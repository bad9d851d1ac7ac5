import SoL.Http.ThreadPool.Accounts

/-!
# The accounting of the workers

Every step of the pool is a move of its counts (`step_move`). So they are balanced
in all runs, and a pool with a thread in it is never freed (`accounting_iff`).
-/

namespace SoL

namespace Http

open Container Transition

namespace ThreadPool

variable {α : Type} {s t : ThreadPool α}

/-- The worker that has made its decrement and still holds the mutex. -/
def leaver (s : ThreadPool α) : Option ℕ :=
  match s.mutexLock with
  | some (.worker i .unlockingExit) => some i
  | _ => none

def phase (s : ThreadPool α) (i : ℕ) : Phase :=
  match s.workers i with
  | .absent => .absent
  | .begin => .begun
  | .inside => if s.leaver = some i then .left else .live
  | .locking | .waiting | .working _ => .live
  | .exited => .exited

def accounts (s : ThreadPool α) : Accounts where
  requested := s.requested
  threadCount := s.threadCount
  started := s.started
  freed := s.freed
  creator := s.creator
  phase := s.phase
  destroyers := s.destroyers

/-- The thread inside the mutex stands where its own program counter says. -/
def Held (s : ThreadPool α) : Prop :=
  match s.mutexLock with
  | none | some (.adder _ _ _) => True
  | some (.worker i _) => s.workers i = .inside
  | some (.destroyer k _) => s.destroyers k ≠ .idle

/-- A step of one worker. -/
theorem phase_eq_update {i : ℕ} {p : Phase} (hworkers : ∀ j, j ≠ i → t.workers j = s.workers j)
    (hleaver : ∀ j, j ≠ i → (t.leaver = some j ↔ s.leaver = some j)) (hp : t.phase i = p) :
    t.phase = Function.update s.phase i p := by
  funext j
  by_cases hj : j = i
  · subst hj
    rw [hp, Function.update_self]
  · rw [Function.update_of_ne hj]
    simp only [phase, hworkers j hj, hleaver j hj]

theorem phase_congr (hworkers : t.workers = s.workers) (hleaver : t.leaver = s.leaver) :
    t.phase = s.phase := by
  funext i
  simp only [phase, hworkers, hleaver]

open Accounts

theorem move_of_phase {w : Accounts} (hmove : Move s.accounts w) (hphase : t.phase = w.phase)
    (h : { t.accounts with phase := w.phase } = w) : Move s.accounts t.accounts := by
  have haccounts : t.accounts = w := by rw [← h, ← hphase]; rfl
  rwa [haccounts]

theorem Held.mono (h : s.Held) (hlock : t.mutexLock = s.mutexLock)
    (hworkers : ∀ i, s.workers i = .inside → t.workers i = .inside)
    (hdestroyers : ∀ k, s.destroyers k ≠ .idle → t.destroyers k ≠ .idle) : t.Held := by
  unfold Held at h ⊢
  rw [hlock]
  split at h
  · trivial
  · trivial
  · exact hworkers _ h
  · exact hdestroyers _ h

theorem inside_of_update {i : ℕ} {pc : WorkerPc α} (hi : s.workers i ≠ .inside) (j : ℕ)
    (hj : s.workers j = .inside) : Function.update s.workers i pc j = .inside := by
  rw [Function.update_of_ne (by rintro rfl; exact hi hj)]
  exact hj

theorem ne_idle_of_update {k : ℕ} {pc : DestroyerPc} (hpc : pc ≠ .idle) (j : ℕ)
    (hj : s.destroyers j ≠ .idle) : Function.update s.destroyers k pc j ≠ .idle := by
  by_cases h : j = k
  · subst h
    simpa using hpc
  · rwa [Function.update_of_ne h]

theorem createStep_move (h : s.Held) (hb : s.accounts.Balanced) {ok : Bool}
    (hstep : s.createStep ok = some t) : t.Held ∧ Move s.accounts t.accounts := by
  unfold createStep at hstep
  split at hstep
  · rename_i i hpc
    split at hstep
    · rename_i hi
      split at hstep
      · obtain rfl := Option.some.inj hstep
        have habsent : s.phase i = .absent := by
          refine (hb.absent i).2 ?_
          simp only [created, accounts, hpc, le_refl]
        have hworker : s.workers i ≠ .inside := by
          intro hinside
          simp only [phase, hinside] at habsent
          split at habsent <;> cases habsent
        refine ⟨h.mono rfl (inside_of_update hworker) fun _ => id, ?_⟩
        refine move_of_phase (.create _ i hpc hi) (phase_eq_update (fun j hj => ?_)
          (fun _ _ => Iff.rfl) ?_) rfl
        · exact Function.update_of_ne hj _ _
        · simp [phase, setWorker]
      · obtain rfl := Option.some.inj hstep
        exact ⟨h.mono rfl (fun _ => id) (ne_idle_of_update (by simp)), .fail _ i hpc hi⟩
    · rename_i hi
      obtain rfl := Option.some.inj hstep
      exact ⟨h.mono rfl (fun _ => id) fun _ => id, .done _ i hpc hi⟩
  · rename_i i hpc
    obtain rfl := Option.some.inj hstep
    exact ⟨h.mono rfl (fun _ => id) fun _ => id, .count _ i hpc⟩
  · rename_i i hpc
    obtain rfl := Option.some.inj hstep
    exact ⟨h.mono rfl (fun _ => id) fun _ => id, .start _ i hpc⟩
  · cases hstep
  · cases hstep

/-- A worker moves outside the mutex or into it, and stays live. -/
theorem stay_of_live {i : ℕ} (hworkers : ∀ j, j ≠ i → t.workers j = s.workers j)
    (hleaver : t.leaver = s.leaver) (hlive : s.phase i = .live)
    (hlive' : t.phase i = .live) : t.phase = s.phase := by
  rw [phase_eq_update hworkers (by simp [hleaver]) hlive', ← hlive, Function.update_eq_self]

theorem workerStep_move (h : s.Held) {i : ℕ} (hstep : s.workerStep i = some t) :
    t.Held ∧ Move s.accounts t.accounts := by
  have hlocks : s.phase i = .live → (if s.mutexLock.isNone then
      some ((s.setWorker i .inside).lock (.worker i .testing)) else none) = some t →
      t.Held ∧ Move s.accounts t.accounts := by
    intro hlive hstep
    obtain ⟨hfree, hstep⟩ := Option.ite_none_right_eq_some.1 hstep
    obtain rfl := Option.some.inj hstep
    refine ⟨by simp [Held, lock, setWorker], move_of_phase (.stay _) ?_ rfl⟩
    refine stay_of_live (i := i) (fun j hj => Function.update_of_ne hj _ _) ?_ hlive ?_
    · simp only [leaver, lock, Option.isNone_iff_eq_none.1 hfree]
    · simp [phase, leaver, lock, setWorker]
  have hmoves : s.workers i ≠ .inside → ∀ pc, (s.setWorker i pc).Held :=
    fun hi pc => h.mono rfl (inside_of_update hi) fun _ => id
  unfold workerStep at hstep
  split at hstep
  · rename_i hpc
    obtain rfl := Option.some.inj hstep
    refine ⟨hmoves (by simp [hpc]) .locking, ?_⟩
    refine move_of_phase (.enter _ i (by simp [accounts, phase, hpc])) (phase_eq_update
      (fun j hj => Function.update_of_ne hj _ _) (fun _ _ => Iff.rfl) ?_) rfl
    simp [phase, setWorker]
  · rename_i hpc
    exact hlocks (by simp [phase, hpc]) hstep
  · rename_i hpc
    exact hlocks (by simp [phase, hpc]) hstep
  · rename_i task hpc
    obtain rfl := Option.some.inj hstep
    refine ⟨hmoves (by simp [hpc]) .locking, move_of_phase (.stay _) ?_ rfl⟩
    exact stay_of_live (i := i) (fun j hj => Function.update_of_ne hj _ _) rfl
      (by simp [phase, hpc]) (by simp [phase, setWorker])
  · cases hstep
  · cases hstep
  · cases hstep

theorem adderStep_move {k : ℕ} (hstep : s.adderStep k = some t) :
    t.Held ∧ Move s.accounts t.accounts := by
  unfold adderStep at hstep
  split at hstep
  · obtain ⟨hfree, hstep⟩ := Option.ite_none_right_eq_some.1 hstep
    obtain rfl := Option.some.inj hstep
    refine ⟨trivial, move_of_phase (.stay _) (phase_congr rfl ?_) rfl⟩
    simp only [leaver, lock, Option.isNone_iff_eq_none.1 hfree]
  · cases hstep
  · cases hstep
  · cases hstep

theorem destroyerStep_move (h : s.Held) {k : ℕ} (hstep : s.destroyerStep k = some t) :
    t.Held ∧ Move s.accounts t.accounts := by
  have hmoves : ∀ pc, pc ≠ .idle → (s.setDestroyer k pc).Held :=
    fun pc hpc => h.mono rfl (fun _ => id) (ne_idle_of_update hpc)
  unfold destroyerStep at hstep
  split at hstep
  · rename_i graceful hpc
    obtain ⟨hfree, hstep⟩ := Option.ite_none_right_eq_some.1 hstep
    obtain rfl := Option.some.inj hstep
    refine ⟨by simp [Held, lock, setDestroyer], ?_⟩
    refine move_of_phase (.destroy _ k .inside (.inr (by simp [accounts, hpc])) (by simp) (by simp))
      (phase_congr rfl ?_) rfl
    simp only [leaver, lock, Option.isNone_iff_eq_none.1 hfree]
  · rename_i i hpc
    split at hstep
    · rename_i hi
      split at hstep
      · rename_i hexited
        obtain rfl := Option.some.inj hstep
        exact ⟨hmoves _ (by simp), .join _ k i hpc hi (by simp [accounts, phase, hexited])⟩
      · cases hstep
    · rename_i hi
      obtain rfl := Option.some.inj hstep
      exact ⟨hmoves _ (by simp), .joined _ k i hpc hi⟩
  · rename_i hpc
    split at hstep
    · obtain rfl := Option.some.inj hstep
      exact ⟨hmoves _ (by simp),
        .destroy _ k _ (.inr (by simp [accounts, hpc])) (by simp) (by simp)⟩
    · rename_i hnone
      obtain ⟨-, hstep⟩ := Option.ite_none_right_eq_some.1 hstep
      obtain rfl := Option.some.inj hstep
      exact ⟨hmoves (.returned .ok) (by simp), .free _ k hpc (not_lt.1 hnone)⟩
  · cases hstep
  · cases hstep
  · cases hstep

theorem leaver_eq_none {holder : Holder α} (hlock : s.mutexLock = some holder)
    (h : ∀ i, holder ≠ .worker i .unlockingExit) : s.leaver = none := by
  rw [leaver, hlock]
  split
  · rename_i i heq
    exact absurd (Option.some.inj heq) (h i)
  · rfl

/-- The thread inside the mutex goes on without a change to the accounts. -/
theorem stay_of_lock {holder next : Holder α} (hlock : s.mutexLock = some holder)
    (hleaves : ∀ i, holder ≠ .worker i .unlockingExit)
    (hleaves' : ∀ i, next ≠ .worker i .unlockingExit) (hworkers : t.workers = s.workers)
    (h : { t.accounts with phase := s.phase } = s.accounts) :
    Move s.accounts (t.lock next).accounts := by
  refine move_of_phase (.stay _) (phase_congr hworkers ?_) h
  rw [leaver_eq_none hlock hleaves, leaver_eq_none rfl hleaves']

theorem workerInside_move (h : s.Held) {i : ℕ} {point : WorkerPoint α}
    (hlock : s.mutexLock = some (.worker i point)) :
    (s.workerInside i point).Held ∧ Move s.accounts (s.workerInside i point).accounts := by
  have hinside : s.workers i = .inside := by simpa only [Held, hlock] using h
  have hlive : point ≠ .unlockingExit → s.phase i = .live ∧ s.leaver = none := by
    intro hpoint
    have hleaver := leaver_eq_none hlock (by simp [hpoint])
    exact ⟨by simp [phase, hinside, hleaver], hleaver⟩
  have hunlocks : ∀ pc, point ≠ .unlockingExit → (s.setWorker i pc).unlock.phase i = .live →
      (s.setWorker i pc).unlock.Held ∧ Move s.accounts (s.setWorker i pc).unlock.accounts := by
    intro pc hpoint hpc
    refine ⟨trivial, move_of_phase (.stay _) ?_ rfl⟩
    exact stay_of_live (fun j hj => Function.update_of_ne hj _ _) (hlive hpoint).2.symm
      (hlive hpoint).1 hpc
  cases point with
  | testing =>
      simp only [workerInside]
      split
      · exact hunlocks .waiting (by simp) (by simp [phase, unlock, setWorker])
      · split
        · exact ⟨hinside, stay_of_lock hlock (by simp) (by simp) rfl rfl⟩
        · exact ⟨hinside, stay_of_lock hlock (by simp) (by simp) rfl rfl⟩
  | taking => exact ⟨hinside, stay_of_lock hlock (by simp) (by simp) rfl rfl⟩
  | moving task => exact ⟨hinside, stay_of_lock hlock (by simp) (by simp) rfl rfl⟩
  | uncounting task => exact ⟨hinside, stay_of_lock hlock (by simp) (by simp) rfl rfl⟩
  | unlocking task =>
      exact hunlocks (.working task) (by simp) (by simp [phase, unlock, setWorker])
  | leaving =>
      refine ⟨hinside, move_of_phase (.leave _ i (hlive (by simp)).1) (phase_eq_update
        (fun _ _ => rfl) (fun j hj => ?_) ?_) rfl⟩
      · simp [leaver, hlock, workerInside, lock, hj.symm]
      · simp [phase, leaver, hinside, workerInside, lock]
  | unlockingExit =>
      have hleft : s.phase i = .left := by simp [phase, hinside, leaver, hlock]
      refine ⟨trivial, move_of_phase (.exit _ i hleft) (phase_eq_update
        (fun j hj => Function.update_of_ne hj _ _) (fun j hj => ?_) ?_) rfl⟩
      · simp [leaver, hlock, workerInside, unlock, setWorker, hj.symm]
      · simp [phase, workerInside, unlock, setWorker]

theorem adderInside_move {k : ℕ} {entry : RingBuffer α × Shutdown} {point : AdderPoint α}
    (hlock : s.mutexLock = some (.adder k entry point)) :
    (s.adderInside k entry point).Held ∧
      Move s.accounts (s.adderInside k entry point).accounts := by
  cases point with
  | testing task =>
      simp only [adderInside]
      split
      · exact ⟨trivial, stay_of_lock hlock (by simp) (by simp) rfl rfl⟩
      · split
        · exact ⟨trivial, stay_of_lock hlock (by simp) (by simp) rfl rfl⟩
        · exact ⟨trivial, stay_of_lock hlock (by simp) (by simp) rfl rfl⟩
  | storing task next => exact ⟨trivial, stay_of_lock hlock (by simp) (by simp) rfl rfl⟩
  | advancing task next => exact ⟨trivial, stay_of_lock hlock (by simp) (by simp) rfl rfl⟩
  | counting task => exact ⟨trivial, stay_of_lock hlock (by simp) (by simp) rfl rfl⟩
  | unlocking result =>
      refine ⟨trivial, move_of_phase (.stay _) (phase_congr rfl ?_) rfl⟩
      exact (leaver_eq_none hlock (by simp)).symm

theorem destroyerInside_move (h : s.Held) {k : ℕ} {point : DestroyerPoint}
    (hlock : s.mutexLock = some (.destroyer k point))
    (hstep : s.destroyerInside k point = some t) :
    t.Held ∧ Move s.accounts t.accounts := by
  have hidle : s.destroyers k ≠ .idle := by simpa only [Held, hlock] using h
  cases point with
  | testing graceful =>
      simp only [destroyerInside] at hstep
      split at hstep
      · obtain rfl := Option.some.inj hstep
        refine ⟨by simp [Held, lock, setDestroyer], ?_⟩
        refine move_of_phase (.destroy _ k (.returned .THREADPOOL_SHUTDOWN) (.inr hidle) (by simp)
          (by simp)) (phase_congr rfl ?_) rfl
        exact (leaver_eq_none hlock (by simp)).symm
      · obtain rfl := Option.some.inj hstep
        exact ⟨hidle, stay_of_lock hlock (by simp) (by simp) rfl rfl⟩
  | unlocking =>
      obtain rfl := Option.some.inj hstep
      refine ⟨trivial, ?_⟩
      refine move_of_phase (.destroy _ k (.joining 0) (.inr hidle) (fun i hi => ?_) (by simp))
        (phase_congr rfl ?_) rfl
      · simpa using hi.symm
      · exact (leaver_eq_none hlock (by simp)).symm
  | returned => cases hstep

/-- Every step moves the accounts. -/
theorem step_move (h : s.Held) (hb : s.accounts.Balanced) {a : Step α}
    (hstep : s.step a = some t) : t.Held ∧ Move s.accounts t.accounts := by
  cases a with
  | create ok => exact createStep_move h hb hstep
  | worker i => exact workerStep_move h hstep
  | adder k => exact adderStep_move hstep
  | destroyer k => exact destroyerStep_move h hstep
  | add k task =>
      obtain ⟨-, hstep⟩ := Option.ite_none_right_eq_some.1 hstep
      split at hstep
      · obtain rfl := Option.some.inj hstep
        exact ⟨h.mono rfl (fun _ => id) fun _ => id, .stay _⟩
      · obtain rfl := Option.some.inj hstep
        exact ⟨h.mono rfl (fun _ => id) fun _ => id, .stay _⟩
      · cases hstep
      · cases hstep
  | destroy k graceful =>
      obtain ⟨hdone, hstep⟩ := Option.ite_none_right_eq_some.1 hstep
      have hcalls : (s.setDestroyer k (.locking graceful)).Held ∧
          Move s.accounts (s.setDestroyer k (.locking graceful)).accounts :=
        ⟨h.mono rfl (fun _ => id) (ne_idle_of_update (by simp)),
          .destroy _ k _ (.inl hdone) (by simp) (by simp)⟩
      split at hstep
      · obtain rfl := Option.some.inj hstep
        exact hcalls
      · obtain rfl := Option.some.inj hstep
        exact hcalls
      · cases hstep
  | inside =>
      simp only [step] at hstep
      split at hstep
      · cases hstep
      · rename_i i point hlock
        obtain rfl := Option.some.inj hstep
        exact workerInside_move h hlock
      · rename_i k entry point hlock
        obtain rfl := Option.some.inj hstep
        exact adderInside_move hlock
      · rename_i k point hlock
        exact destroyerInside_move h hlock hstep

theorem balanced_initial (h : (machine α).initial s) : s.Held ∧ s.accounts.Balanced := by
  obtain ⟨default, threadCount, queueSize, hthreads, -, rfl⟩ := h
  refine ⟨trivial, ⟨hthreads, ⟨rfl, Nat.zero_le _⟩, fun i => ?_, ?_, ?_, ?_, ?_, ?_⟩⟩
  · simp [accounts, phase, new, created]
  · simp [accounts, new, counted, liveCount, countLive, phase]
  · simp [accounts, new]
  · simp [accounts, new]
  · simp [accounts, new]
  · simp [accounts, new]

/-- Before `threadpool_create` has returned the pool, its only caller is its creator, which
destroys it at most once and finds it running. -/
structure Unshared (s : ThreadPool α) : Prop where
  adders : ∀ k, s.adders k = .idle
  destroyers : ∀ k, k ≠ 0 → s.destroyers k = .idle
  running : s.destroyers 0 = .idle ∨ (∃ graceful, s.destroyers 0 = .locking graceful) →
    s.shutdown = .running
  adder : ∀ k entry point, s.mutexLock ≠ some (.adder k entry point)
  destroyer : ∀ k point, s.mutexLock = some (.destroyer k point) →
    s.destroyers k = .inside ∧ point ≠ .returned ∧
      ∀ graceful, point = .testing graceful → s.shutdown = .running

/-- What a worker does is no matter to the callers. -/
theorem Unshared.mono (h : s.Unshared) (hadders : t.adders = s.adders)
    (hdestroyers : t.destroyers = s.destroyers) (hshutdown : t.shutdown = s.shutdown)
    (hlock : t.mutexLock = s.mutexLock ∨ t.mutexLock = none ∨
      ∃ i point, t.mutexLock = some (.worker i point)) : t.Unshared := by
  have hrunning := h.running
  rw [← hdestroyers, ← hshutdown] at hrunning
  refine ⟨hadders ▸ h.adders, hdestroyers ▸ h.destroyers, hrunning, ?_, ?_⟩
  · obtain hlock | hlock | ⟨i, point, hlock⟩ := hlock
    · rw [hlock]
      exact h.adder
    · simp [hlock]
    · simp [hlock]
  · obtain hlock | hlock | ⟨i, point, hlock⟩ := hlock
    · rw [hlock, hdestroyers, hshutdown]
      exact h.destroyer
    · simp [hlock]
    · simp [hlock]

/-- The creator's own call moves on outside the mutex. -/
theorem Unshared.setDestroyer (h : s.Unshared) {pc : DestroyerPc}
    (hinside : s.destroyers 0 ≠ .inside)
    (hpc : pc = .idle ∨ (∃ graceful, pc = .locking graceful) → s.shutdown = .running) :
    (s.setDestroyer 0 pc).Unshared := by
  refine ⟨h.adders, fun k hk => ?_, fun hidle => hpc ?_, h.adder, fun k point hlock => ?_⟩
  · exact (Function.update_of_ne hk _ _).trans (h.destroyers k hk)
  · simpa [ThreadPool.setDestroyer] using hidle
  · have hk := (h.destroyer k point hlock).1
    by_cases hzero : k = 0
    · subst hzero
      exact absurd hk hinside
    · rw [h.destroyers k hzero] at hk
      cases hk

theorem unshared_createStep (h : s.Unshared) (hb : s.accounts.Balanced) {ok : Bool}
    (hstep : s.createStep ok = some t) : t.Unshared := by
  unfold createStep at hstep
  split at hstep
  · rename_i i hpc
    have hidle : s.destroyers 0 = .idle := by
      by_contra hidle
      have hsettled : s.creator = .done ∨ s.creator = .failed := hb.settled 0 hidle
      simp [hpc] at hsettled
    split at hstep
    · split at hstep
      · obtain rfl := Option.some.inj hstep
        exact h.mono rfl rfl rfl (.inl rfl)
      · obtain rfl := Option.some.inj hstep
        have hrunning := h.running (.inl hidle)
        have hcalls : (s.setDestroyer 0 (.locking false)).Unshared :=
          h.setDestroyer (by simp [hidle]) fun _ => hrunning
        exact hcalls.mono rfl rfl rfl (.inl rfl)
    · obtain rfl := Option.some.inj hstep
      exact h.mono rfl rfl rfl (.inl rfl)
  · obtain rfl := Option.some.inj hstep
    exact h.mono rfl rfl rfl (.inl rfl)
  · obtain rfl := Option.some.inj hstep
    exact h.mono rfl rfl rfl (.inl rfl)
  · cases hstep
  · cases hstep

theorem unshared_workerStep (h : s.Unshared) {i : ℕ} (hstep : s.workerStep i = some t) :
    t.Unshared := by
  unfold workerStep at hstep
  split at hstep
  · obtain rfl := Option.some.inj hstep
    exact h.mono rfl rfl rfl (.inl rfl)
  · obtain ⟨-, hstep⟩ := Option.ite_none_right_eq_some.1 hstep
    obtain rfl := Option.some.inj hstep
    exact h.mono rfl rfl rfl (.inr (.inr ⟨i, .testing, rfl⟩))
  · obtain ⟨-, hstep⟩ := Option.ite_none_right_eq_some.1 hstep
    obtain rfl := Option.some.inj hstep
    exact h.mono rfl rfl rfl (.inr (.inr ⟨i, .testing, rfl⟩))
  · obtain rfl := Option.some.inj hstep
    exact h.mono rfl rfl rfl (.inl rfl)
  · cases hstep
  · cases hstep
  · cases hstep

theorem unshared_destroyerStep (h : s.Unshared) {k : ℕ} (hstep : s.destroyerStep k = some t) :
    t.Unshared := by
  have hzero : k = 0 := by
    by_contra hk
    simp [destroyerStep, h.destroyers k hk] at hstep
  subst hzero
  have hmoves : ∀ {pc}, s.destroyers 0 ≠ .inside → pc ≠ .idle →
      (∀ graceful, pc ≠ .locking graceful) → (s.setDestroyer 0 pc).Unshared :=
    fun hinside hidle hlocking => h.setDestroyer hinside fun hpc => by
      obtain hpc | ⟨graceful, hpc⟩ := hpc
      · exact absurd hpc hidle
      · exact absurd hpc (hlocking graceful)
  unfold destroyerStep at hstep
  split at hstep
  · rename_i graceful hpc
    obtain ⟨-, hstep⟩ := Option.ite_none_right_eq_some.1 hstep
    obtain rfl := Option.some.inj hstep
    have hrunning := h.running (.inr ⟨graceful, hpc⟩)
    refine ⟨h.adders, fun k hk => ?_, fun _ => hrunning, by simp [lock], fun k point hlock => ?_⟩
    · exact (Function.update_of_ne hk _ _).trans (h.destroyers k hk)
    · obtain ⟨rfl, rfl⟩ : 0 = k ∧ .testing graceful = point := by simpa [lock] using hlock
      exact ⟨by simp [lock, ThreadPool.setDestroyer], by simp, fun _ _ => hrunning⟩
  · rename_i i hpc
    split at hstep
    · split at hstep
      · obtain rfl := Option.some.inj hstep
        exact hmoves (by simp [hpc]) (by simp) (by simp)
      · cases hstep
    · obtain rfl := Option.some.inj hstep
      exact hmoves (by simp [hpc]) (by simp) (by simp)
  · rename_i hpc
    have hreturned : (s.setDestroyer 0 (.returned .ok)).Unshared :=
      hmoves (by simp [hpc]) (by simp) (by simp)
    split at hstep
    · obtain rfl := Option.some.inj hstep
      exact hreturned
    · obtain ⟨-, hstep⟩ := Option.ite_none_right_eq_some.1 hstep
      obtain rfl := Option.some.inj hstep
      exact hreturned.mono rfl rfl rfl (.inl rfl)
  · cases hstep
  · cases hstep
  · cases hstep

theorem unshared_workerInside (h : s.Unshared) (i : ℕ) (point : WorkerPoint α) :
    (s.workerInside i point).Unshared := by
  cases point with
  | testing =>
      simp only [workerInside]
      split
      · exact h.mono rfl rfl rfl (.inr (.inl rfl))
      · split
        · exact h.mono rfl rfl rfl (.inr (.inr ⟨i, _, rfl⟩))
        · exact h.mono rfl rfl rfl (.inr (.inr ⟨i, _, rfl⟩))
  | taking | moving | uncounting | leaving => exact h.mono rfl rfl rfl (.inr (.inr ⟨i, _, rfl⟩))
  | unlocking | unlockingExit => exact h.mono rfl rfl rfl (.inr (.inl rfl))

theorem unshared_destroyerInside (h : s.Unshared) {k : ℕ} {point : DestroyerPoint}
    (hlock : s.mutexLock = some (.destroyer k point))
    (hstep : s.destroyerInside k point = some t) : t.Unshared := by
  obtain ⟨hinside, hreturned, hrunning⟩ := h.destroyer k point hlock
  have hzero : k = 0 := by
    by_contra hk
    simp [h.destroyers k hk] at hinside
  subst hzero
  cases point with
  | testing graceful =>
      simp only [destroyerInside, hrunning graceful rfl, ne_eq, not_true, if_false] at hstep
      obtain rfl := Option.some.inj hstep
      refine ⟨h.adders, h.destroyers, ?_, by simp [lock], fun k point hlock => ?_⟩
      · simp [lock, hinside]
      · obtain ⟨rfl, rfl⟩ : 0 = k ∧ .unlocking = point := by simpa [lock] using hlock
        exact ⟨hinside, by simp, by simp⟩
  | unlocking =>
      obtain rfl := Option.some.inj hstep
      refine ⟨h.adders, fun k hk => ?_, ?_, by simp [unlock], by simp [unlock]⟩
      · exact (Function.update_of_ne hk _ _).trans (h.destroyers k hk)
      · simp [unlock, ThreadPool.setDestroyer]
  | returned => exact absurd rfl hreturned

/-- A pool that has been returned stays so. -/
theorem creator_eq_done_of_move (hmove : Move s.accounts t.accounts) (hdone : s.creator = .done) :
    t.creator = .done := by
  have hcreator : ∀ {v w : Accounts}, Move v w → v.creator = .done → w.creator = .done := by
    intro v w hmove hdone
    cases hmove with
    | create i hpc | fail i hpc | done i hpc | count i hpc | start i hpc => simp [hpc] at hdone
    | stay | enter | leave | exit | destroy | join | joined | free => exact hdone
  exact hcreator hmove hdone

theorem unshared_step (h : s.creator ≠ .done → s.Unshared) (hb : s.accounts.Balanced)
    {a : Step α} (hstep : s.step a = some t) (hmove : Move s.accounts t.accounts) :
    t.creator ≠ .done → t.Unshared := by
  intro hcreator
  have hnot : s.creator ≠ .done := fun hdone => hcreator (creator_eq_done_of_move hmove hdone)
  have hs := h hnot
  cases a with
  | create ok => exact unshared_createStep hs hb hstep
  | worker i => exact unshared_workerStep hs hstep
  | adder k => simp [step, adderStep, hs.adders k] at hstep
  | destroyer k => exact unshared_destroyerStep hs hstep
  | add k task => exact absurd (Option.ite_none_right_eq_some.1 hstep).1 hnot
  | destroy k graceful => exact absurd (Option.ite_none_right_eq_some.1 hstep).1 hnot
  | inside =>
      simp only [step] at hstep
      split at hstep
      · cases hstep
      · obtain rfl := Option.some.inj hstep
        exact unshared_workerInside hs _ _
      · rename_i k entry point hlock
        exact absurd hlock (hs.adder k entry point)
      · rename_i k point hlock
        exact unshared_destroyerInside hs hlock hstep

/-- What holds of a pool in every run. -/
structure Consistent (s : ThreadPool α) : Prop where
  held : s.Held
  balanced : s.accounts.Balanced
  unshared : s.creator ≠ .done → s.Unshared

theorem consistent_exec {s₀ : ThreadPool α} (hs₀ : (machine α).initial s₀) {as : List (Step α)}
    (hexec : (machine α).exec s₀ as = some s) : s.Consistent := by
  have hinitial : s₀.Consistent := by
    obtain ⟨hheld, hbalanced⟩ := balanced_initial hs₀
    obtain ⟨default, threadCount, queueSize, -, -, rfl⟩ := hs₀
    exact ⟨hheld, hbalanced, fun _ => ⟨by simp [new], by simp [new], by simp [new], by simp [new],
      by simp [new]⟩⟩
  refine (machine α).exec_invariant_of_step (I := Consistent) ?_ hinitial hexec
  rintro s a t ⟨hheld, hbalanced, hunshared⟩ hstep
  obtain ⟨hheld', hmove⟩ := step_move hheld hbalanced hstep
  exact ⟨hheld', hbalanced.move hmove, unshared_step hunshared hbalanced hstep hmove⟩

/-- Without a worker nobody is in the mutex when the pool is to be freed. -/
theorem mutexLock_eq_none (h : s.Consistent) {k : ℕ} (hk : s.destroyers k = .freeing)
    (hcreator : s.creator ≠ .done) (habsent : ∀ i, s.workers i = .absent) :
    s.mutexLock = none := by
  have hs := h.unshared hcreator
  cases hlock : s.mutexLock with
  | none => rfl
  | some holder =>
      exfalso
      cases holder with
      | worker i point =>
          have hinside : s.workers i = .inside := by simpa only [Held, hlock] using h.held
          simp [habsent i] at hinside
      | adder j entry point => exact hs.adder j entry point hlock
      | destroyer j point =>
          -- only the creator calls, and its call is at `threadpool_free`
          have hinside := (hs.destroyer j point hlock).1
          have hzero : ∀ i, s.destroyers i ≠ .idle → i = 0 := fun i hi => by
            by_contra hne
            exact hi (hs.destroyers i hne)
          rw [hzero j (by simp [hinside])] at hinside
          rw [hzero k (by simp [hk]), hinside] at hk
          cases hk

/-- The number of threads that have been created and have not made their
decrement of `started`. -/
def unexited (s : ThreadPool α) : ℕ :=
  ((Finset.range s.requested).filter fun i =>
    s.phase i ≠ .absent ∧ s.phase i ≠ .left ∧ s.phase i ≠ .exited).card

theorem phase_eq_absent_iff {i : ℕ} : s.phase i = .absent ↔ s.workers i = .absent := by
  unfold phase
  split <;> simp_all
  split <;> simp

theorem phase_ne_begun {i : ℕ} (h : s.workers i ≠ .begin) : s.phase i ≠ .begun := by
  unfold phase
  split <;> simp_all
  split <;> simp

theorem unexited_eq_liveCount (h : ∀ i, s.workers i ≠ .begin) :
    s.unexited = s.accounts.liveCount := by
  refine congrArg Finset.card (Finset.filter_congr fun i _ => ?_)
  have hbegun := phase_ne_begun (h i)
  change _ ↔ s.phase i = .live
  cases hphase : s.phase i <;> simp_all

/-- With the creation over, there is no thread exactly when none was counted. -/
theorem threadCount_eq_zero_iff (h : s.accounts.Balanced) (hs : s.accounts.settled) :
    s.threadCount = 0 ↔ ∀ i, s.workers i = .absent := by
  have habsent : ∀ i, s.workers i = .absent ↔ s.threadCount ≤ i := fun i =>
    phase_eq_absent_iff.symm.trans (h.absent_iff_of_settled hs i)
  simp only [habsent]
  exact ⟨fun hzero i => hzero ▸ Nat.zero_le i, fun hle => Nat.le_zero.1 (hle 0)⟩

/-- `threadpool_free` releases the pool when no threads are started, and the mutex is free
then. -/
theorem freed_of_freeing {k : ℕ} (hk : s.destroyers k = .freeing)
    (hfree : s.started ≤ 0 → s.mutexLock = none) :
    ∃ t, s.step (.destroyer k) = some t ∧
      (t.freed = true ↔ s.freed = true ∨ s.started ≤ 0) := by
  by_cases hpositive : s.started > 0
  · refine ⟨s.setDestroyer k (.returned .ok), ?_, ?_⟩
    · simp only [step, destroyerStep, hk, if_pos hpositive]
    · change s.freed = true ↔ _
      simp [not_le.2 hpositive]
  · have hnone := hfree (not_lt.1 hpositive)
    refine ⟨{ s.setDestroyer k (.returned .ok) with freed := true }, ?_, ?_⟩
    · simp only [step, destroyerStep, hk, if_neg hpositive, hnone, Option.isNone_none, if_true]
    · simp [not_lt.1 hpositive]

/-- Once the creation is over and every worker has entered its loop, `started` is
the number of workers that have not exited only if there never was a worker; and
only then does `threadpool_free` find no started threads and release the pool
when all workers have been joined. A pool that has been created has a worker. -/
theorem accounting_iff {s₀ : ThreadPool α} (hs₀ : (machine α).initial s₀) {as : List (Step α)}
    (hexec : (machine α).exec s₀ as = some s) :
    (s.creator = .done ∨ s.creator = .failed → (∀ i, s.workers i ≠ .begin) →
      (s.started = s.unexited ↔ ∀ i, s.workers i = .absent)) ∧
    (∀ k, s.destroyers k = .freeing → (s.started = 0 ↔ ∀ i, s.workers i = .absent) ∧
      ∃ t, s.step (.destroyer k) = some t ∧
        (t.freed = true ↔ ∀ i, s.workers i = .absent)) ∧
    (s.creator = .done → ¬ ∀ i, s.workers i = .absent) := by
  have hconsistent := consistent_exec hs₀ hexec
  have hbalanced := hconsistent.balanced
  have hworker : s.creator = .done → s.threadCount ≠ 0 := by
    intro hdone hzero
    have hloop := hbalanced.loop
    have hrequested := hbalanced.requested
    simp only [Loop, accounts, hdone] at hloop hrequested
    omega
  refine ⟨fun hsettled hentered => ?_, fun k hk => ?_, fun hdone habsent => ?_⟩
  · rw [← threadCount_eq_zero_iff hbalanced hsettled, unexited_eq_liveCount hentered]
    have hstarted : s.started = s.threadCount + s.accounts.liveCount :=
      hbalanced.started_eq_of_settled hsettled
    omega
  · have hsettled : s.accounts.settled := hbalanced.settled k (by simp [accounts, hk])
    have hlive := hbalanced.liveCount_eq_zero hsettled (hbalanced.freeing k hk)
    have hstarted : s.started = s.threadCount + s.accounts.liveCount :=
      hbalanced.started_eq_of_settled hsettled
    have habsent := threadCount_eq_zero_iff hbalanced hsettled
    have hfree : s.started ≤ 0 → s.mutexLock = none := fun hnone =>
      have hzero : s.threadCount = 0 := by omega
      mutexLock_eq_none hconsistent hk (fun hdone => hworker hdone hzero) (habsent.1 hzero)
    rw [← habsent]
    refine ⟨by omega, ?_⟩
    obtain ⟨t, hstep, hfreed⟩ := freed_of_freeing hk hfree
    refine ⟨t, hstep, hfreed.trans ⟨?_, fun hzero => .inr (by omega)⟩⟩
    rintro (hfree | hnone)
    · exact (hbalanced.freed hfree).2
    · omega
  · exact hworker hdone ((threadCount_eq_zero_iff hbalanced (.inl hdone)).2 habsent)

/-- A pool of one thread, which has entered its loop. -/
def oneThread : List (Step ℕ) :=
  [.create true, .create true, .create true, .create true, .worker 0]

/-- The destruction of that pool up to the call of `threadpool_free`. -/
def oneJoined : List (Step ℕ) :=
  oneThread ++ ([.destroy 0 false, .destroyer 0, .inside, .inside, .worker 0, .inside, .inside,
    .inside, .destroyer 0, .destroyer 0] : List (Step ℕ))

theorem accounting_oneJoined :
    ∃ s, (machine ℕ).exec (new 0 1 1) oneJoined = some s ∧ s.destroyers 0 = .freeing ∧
      s.started ≠ 0 := by
  have hinitial : (machine ℕ).initial (new 0 1 1) := ⟨0, 1, 1, le_rfl, le_rfl, rfl⟩
  have hexec : (machine ℕ).exec (new 0 1 1) oneJoined = some _ := rfl
  have haccounting := accounting_iff hinitial hexec
  exact ⟨_, hexec, rfl, ((haccounting.2.1 0 rfl).1).not.2 (haccounting.2.2 rfl)⟩

/-- The one worker is counted twice, and the pool stays. -/
theorem not_accounting_oneThread :
    ∃ s t u, (machine ℕ).exec (new 0 1 1) oneThread = some s ∧ s.creator = .done ∧
      (∀ i, s.workers i ≠ .begin) ∧ s.started = 2 ∧ s.unexited = 1 ∧
      (machine ℕ).exec (new 0 1 1) oneJoined = some t ∧ t.destroyers 0 = .freeing ∧
      t.started = 1 ∧ t.step (.destroyer 0) = some u ∧ u.freed = false := by
  refine ⟨_, _, _, rfl, rfl, fun i => ?_, rfl, by decide, rfl, rfl, rfl, rfl, rfl⟩
  by_cases hi : i = 0
  · subst hi
    rintro ⟨⟩
  · simp [setWorker, new, Function.update_of_ne hi]

end ThreadPool

end Http

end SoL
