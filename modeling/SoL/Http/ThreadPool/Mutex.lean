import SoL.Http.ThreadPool.Accounting
import SoL.Http.ThreadPool.Queue

/-!
# The mutex of the pool

`threadpool_add` unlocks the mutex behind its loop, `threadpool_destroy` inside of
it. A call of `threadpool_destroy` that finds the pool shutting down leaves the
loop before the unlock and returns with the mutex. So the mutex is always released
exactly if no such call gets to the mutex (`always_mutexReleased_iff`), and when
one does, no thread gets to it any more (`frozen_of_returned`).
-/

namespace SoL

namespace Http

open Container Transition

/-- The number of steps to the unlock, at most. -/
def Holder.rank {α : Type} : Holder α → ℕ
  | .worker _ .testing | .adder _ _ (.testing _) => 5
  | .worker _ .taking | .adder _ _ (.storing _ _) => 4
  | .worker _ (.moving _) | .adder _ _ (.advancing _ _) => 3
  | .worker _ (.uncounting _) | .worker _ .leaving | .adder _ _ (.counting _) => 2
  | .worker _ (.unlocking _) | .worker _ .unlockingExit | .adder _ _ (.unlocking _) => 1
  | .destroyer _ (.testing _) => 2
  | .destroyer _ .unlocking => 1
  | .destroyer _ .returned => 0

namespace ThreadPool

variable {α : Type} {s t : ThreadPool α} {a : Step α}

/-- The mutex is free after some more steps of the thread inside. -/
def Releases (s : ThreadPool α) : Prop :=
  ∃ n t, (machine α).exec s (List.replicate n .inside) = some t ∧ t.mutexLock = none

/-- No call has returned with the mutex, and its owner, if there is one, gets to
release it, whoever waits for it. -/
structure MutexReleased (s : ThreadPool α) : Prop where
  adder : ∀ k result, s.adders k = .returned result →
    ∀ entry point, s.mutexLock ≠ some (.adder k entry point)
  destroyer : ∀ k result, s.destroyers k = .returned result →
    ∀ point, s.mutexLock ≠ some (.destroyer k point)
  releases : s.Releases

/-- A call of `threadpool_destroy` locks the mutex of a pool that is running. -/
def destroysRunning (s : ThreadPool α) (a : Step α) : Prop :=
  ∀ k graceful, a = .destroyer k → s.destroyers k = .locking graceful → s.shutdown = .running

instance (s : ThreadPool α) (a : Step α) : Decidable (s.destroysRunning a) :=
  match a with
  | .destroyer k =>
      decidable_of_iff ((∃ graceful, s.destroyers k = .locking graceful) → s.shutdown = .running)
        ⟨by rintro h j graceful ⟨⟩ hpc; exact h ⟨graceful, hpc⟩,
          by rintro h ⟨graceful, hpc⟩; exact h k graceful rfl hpc⟩
  | .create _ | .worker _ | .add _ _ | .adder _ | .destroy _ _ | .inside =>
      isTrue fun _ _ h => by cases h

/-- A caller inside the mutex has not returned. -/
structure Located (s : ThreadPool α) : Prop where
  adder : ∀ k entry point, s.mutexLock = some (.adder k entry point) → s.adders k = .inside
  destroyer : ∀ k point, s.mutexLock = some (.destroyer k point) → point ≠ .returned →
    s.destroyers k = .inside

/-- A caller of `threadpool_destroy` inside the mutex gets to its unlock. -/
def Destroys (s : ThreadPool α) : Prop :=
  ∀ k point, s.mutexLock = some (.destroyer k point) →
    point ≠ .returned ∧ ∀ graceful, point = .testing graceful → s.shutdown = .running

/-- What a step can do to the mutex. -/
inductive Turn (s t : ThreadPool α) : Step α → Prop
  | keep (a : Step α) (hlock : t.mutexLock = s.mutexLock) (hshutdown : t.shutdown = s.shutdown)
      (hadders : ∀ k, s.adders k = .inside → t.adders k = .inside)
      (hdestroyers : ∀ k, s.destroyers k = .inside → t.destroyers k = .inside)
      (ha : ∀ k graceful, a = .destroyer k → s.destroyers k ≠ .locking graceful) : Turn s t a
  | lockWorker (j i : ℕ) (point : WorkerPoint α)
      (hlock : t.mutexLock = some (.worker i point)) : Turn s t (.worker j)
  | lockAdder (k : ℕ) (entry : RingBuffer α × Shutdown) (point : AdderPoint α)
      (hlock : t.mutexLock = some (.adder k entry point)) (hpc : t.adders k = .inside) :
      Turn s t (.adder k)
  | lockDestroyer (k : ℕ) (graceful : Bool) (hpc : s.destroyers k = .locking graceful)
      (hlock : t.mutexLock = some (.destroyer k (.testing graceful)))
      (hshutdown : t.shutdown = s.shutdown) (hinside : t.destroyers k = .inside) :
      Turn s t (.destroyer k)
  | worker (i : ℕ) (point : WorkerPoint α) (hlock : t.mutexLock = some (.worker i point)) :
      Turn s t .inside
  | adder (k : ℕ) (entry : RingBuffer α × Shutdown) (point : AdderPoint α)
      (hlock : t.mutexLock = some (.adder k entry point)) (hpc : t.adders k = .inside) :
      Turn s t .inside
  | shutdown (k : ℕ) (hlock : t.mutexLock = some (.destroyer k .unlocking))
      (hpc : t.destroyers k = .inside) : Turn s t .inside
  | returned (k : ℕ) (graceful : Bool)
      (hold : s.mutexLock = some (.destroyer k (.testing graceful)))
      (hshutdown : s.shutdown ≠ .running)
      (hlock : t.mutexLock = some (.destroyer k .returned)) : Turn s t .inside
  | unlock (hlock : t.mutexLock = none) : Turn s t .inside

theorem inside_setAdder {k : ℕ} {pc : AdderPc α} (h : s.adders k ≠ .inside) :
    ∀ j, s.adders j = .inside → (s.setAdder k pc).adders j = .inside := by
  intro j hj
  have hne : j ≠ k := by
    rintro rfl
    exact h hj
  simpa [setAdder, Function.update_of_ne hne] using hj

theorem inside_setDestroyer {k : ℕ} {pc : DestroyerPc} (h : s.destroyers k ≠ .inside) :
    ∀ j, s.destroyers j = .inside → (s.setDestroyer k pc).destroyers j = .inside := by
  intro j hj
  have hne : j ≠ k := by
    rintro rfl
    exact h hj
  simpa [setDestroyer, Function.update_of_ne hne] using hj

/-- There is no caller of `threadpool_destroy` before the pool has been created. -/
theorem turn_createStep (hb : s.accounts.Balanced) {ok : Bool} (h : s.createStep ok = some t) :
    Turn s t (.create ok) := by
  unfold createStep at h
  split at h
  case h_1 i hpc =>
      have hidle : s.destroyers 0 ≠ .inside := by
        intro hinside
        have hsettled : s.creator = .done ∨ s.creator = .failed := hb.settled 0 (by
          change s.destroyers 0 ≠ .idle
          rw [hinside]
          decide)
        simp [hpc] at hsettled
      split at h
      · split at h
        · cases h
          exact .keep _ rfl rfl (fun _ => id) (fun _ => id) (by simp)
        · cases h
          exact .keep _ rfl rfl (fun _ => id) (inside_setDestroyer hidle) (by simp)
      · cases h
        exact .keep _ rfl rfl (fun _ => id) (fun _ => id) (by simp)
  case h_2 =>
      cases h
      exact .keep _ rfl rfl (fun _ => id) (fun _ => id) (by simp)
  case h_3 =>
      cases h
      exact .keep _ rfl rfl (fun _ => id) (fun _ => id) (by simp)
  all_goals cases h

theorem turn_workerStep {i : ℕ} (h : s.workerStep i = some t) : Turn s t (.worker i) := by
  unfold workerStep at h
  split at h
  case h_2 | h_3 =>
      obtain ⟨-, ⟨⟩⟩ := Option.ite_none_right_eq_some.1 h
      exact .lockWorker i i .testing rfl
  case h_1 | h_4 =>
      cases h
      exact .keep _ rfl rfl (fun _ => id) (fun _ => id) (by simp)
  all_goals cases h

theorem turn_adderStep {k : ℕ} (h : s.adderStep k = some t) : Turn s t (.adder k) := by
  unfold adderStep at h
  split at h
  case h_1 task hpc =>
      obtain ⟨-, ⟨⟩⟩ := Option.ite_none_right_eq_some.1 h
      exact .lockAdder k _ _ rfl (by simp [lock, setAdder])
  all_goals cases h

theorem turn_destroyerStep {k : ℕ} (h : s.destroyerStep k = some t) :
    Turn s t (.destroyer k) := by
  have hkeep : ∀ {pc : DestroyerPc} {b : Bool}, s.destroyers k ≠ .inside →
      (∀ graceful, s.destroyers k ≠ .locking graceful) →
      Turn s { s.setDestroyer k pc with freed := b } (.destroyer k) := by
    intro pc b hinside hlocking
    refine .keep _ rfl rfl (fun _ => id) (inside_setDestroyer hinside) ?_
    rintro j graceful ⟨⟩
    exact hlocking graceful
  unfold destroyerStep at h
  split at h
  case h_1 graceful hpc =>
      obtain ⟨-, ⟨⟩⟩ := Option.ite_none_right_eq_some.1 h
      exact .lockDestroyer k graceful hpc rfl rfl (by simp [lock, setDestroyer])
  case h_2 i hpc =>
      split at h
      · split at h
        · cases h
          exact hkeep (by simp [hpc]) (by simp [hpc])
        · cases h
      · cases h
        exact hkeep (by simp [hpc]) (by simp [hpc])
  case h_3 hpc =>
      split at h
      · cases h
        exact hkeep (by simp [hpc]) (by simp [hpc])
      · obtain ⟨-, ⟨⟩⟩ := Option.ite_none_right_eq_some.1 h
        exact hkeep (by simp [hpc]) (by simp [hpc])
  all_goals cases h

theorem turn_workerInside (i : ℕ) (point : WorkerPoint α) :
    Turn s (s.workerInside i point) .inside := by
  cases point with
  | testing =>
      simp only [workerInside]
      split
      · exact .unlock rfl
      · split
        · exact .worker i _ rfl
        · exact .worker i _ rfl
  | taking | moving | uncounting | leaving => exact .worker i _ rfl
  | unlocking | unlockingExit => exact .unlock rfl

theorem turn_adderInside (h : s.Located) {k : ℕ} {entry : RingBuffer α × Shutdown}
    {point : AdderPoint α} (hlock : s.mutexLock = some (.adder k entry point)) :
    Turn s (s.adderInside k entry point) .inside := by
  have hpc := h.adder k entry point hlock
  cases point with
  | testing =>
      simp only [adderInside]
      split
      · exact .adder k entry _ rfl hpc
      · split
        · exact .adder k entry _ rfl hpc
        · exact .adder k entry _ rfl hpc
  | storing | advancing | counting => exact .adder k entry _ rfl hpc
  | unlocking => exact .unlock rfl

theorem turn_destroyerInside (h : s.Located) {k : ℕ} {point : DestroyerPoint}
    (hlock : s.mutexLock = some (.destroyer k point)) (hstep : s.destroyerInside k point = some t) :
    Turn s t .inside := by
  cases point with
  | testing graceful =>
      simp only [destroyerInside] at hstep
      split at hstep
      · next hshutdown =>
          cases hstep
          exact .returned k graceful hlock hshutdown rfl
      · cases hstep
        exact .shutdown k rfl (h.destroyer k _ hlock (by simp))
  | unlocking =>
      cases hstep
      exact .unlock rfl
  | returned => cases hstep

theorem turn_of_step (h : s.Located) (hb : s.accounts.Balanced) (hstep : s.step a = some t) :
    Turn s t a := by
  cases a with
  | create ok => exact turn_createStep hb hstep
  | worker i => exact turn_workerStep hstep
  | adder k => exact turn_adderStep hstep
  | destroyer k => exact turn_destroyerStep hstep
  | add k task =>
      obtain ⟨-, hstep⟩ := Option.ite_none_right_eq_some.1 hstep
      split at hstep
      case h_1 hpc | h_2 hpc =>
          cases hstep
          exact .keep _ rfl rfl (inside_setAdder (by simp [hpc])) (fun _ => id) (by simp)
      all_goals cases hstep
  | destroy k graceful =>
      obtain ⟨-, hstep⟩ := Option.ite_none_right_eq_some.1 hstep
      split at hstep
      case h_1 hpc | h_2 hpc =>
          cases hstep
          exact .keep _ rfl rfl (fun _ => id) (inside_setDestroyer (by simp [hpc])) (by simp)
      all_goals cases hstep
  | inside =>
      simp only [step] at hstep
      split at hstep
      · cases hstep
      · cases hstep
        exact turn_workerInside _ _
      · next hlock =>
          cases hstep
          exact turn_adderInside h hlock
      · next hlock => exact turn_destroyerInside h hlock hstep

theorem Located.turn (h : s.Located) (hturn : Turn s t a) : t.Located := by
  cases hturn with
  | keep _ hlock hshutdown hadders hdestroyers =>
      refine ⟨fun k entry point hk => ?_, fun k point hk hpoint => ?_⟩
      · exact hadders k (h.adder k entry point (hlock.symm.trans hk))
      · exact hdestroyers k (h.destroyer k point (hlock.symm.trans hk) hpoint)
  | lockWorker _ _ _ hlock | worker _ _ hlock | unlock hlock =>
      exact ⟨by simp [hlock], by simp [hlock]⟩
  | lockAdder k entry point hlock hpc | adder k entry point hlock hpc =>
      refine ⟨fun k' entry' point' hk => ?_, by simp [hlock]⟩
      obtain ⟨rfl, -, -⟩ : k = k' ∧ entry = entry' ∧ point = point' := by simpa [hlock] using hk
      exact hpc
  | lockDestroyer k graceful _ hlock _ hpc | shutdown k hlock hpc =>
      refine ⟨by simp [hlock], fun k' point' hk _ => ?_⟩
      obtain ⟨rfl, -⟩ : k = k' ∧ _ = point' := by simpa [hlock] using hk
      exact hpc
  | returned k graceful _ _ hlock =>
      refine ⟨by simp [hlock], fun k' point' hk hpoint => ?_⟩
      obtain ⟨-, hreturned⟩ : k = k' ∧ .returned = point' := by simpa [hlock] using hk
      exact absurd hreturned.symm hpoint

theorem destroys_turn_iff (h : s.Destroys) (hturn : Turn s t a) :
    t.Destroys ↔ s.destroysRunning a := by
  cases hturn with
  | keep _ hlock hshutdown _ _ ha =>
      refine iff_of_true (fun k point hk => ?_) fun k graceful hk hpc => ?_
      · rw [hshutdown]
        exact h k point (hlock.symm.trans hk)
      · exact absurd hpc (ha k graceful hk)
  | lockWorker _ _ _ hlock | worker _ _ hlock | unlock hlock =>
      exact iff_of_true (by simp [Destroys, hlock]) (by simp [destroysRunning])
  | lockAdder _ _ _ hlock | adder _ _ _ hlock =>
      exact iff_of_true (by simp [Destroys, hlock]) (by simp [destroysRunning])
  | lockDestroyer k graceful hpc hlock hshutdown =>
      constructor
      · intro ht k' graceful' hk hpc'
        rw [← hshutdown]
        exact (ht k _ hlock).2 graceful rfl
      · intro ha k' point hk
        obtain ⟨-, rfl⟩ : k = k' ∧ .testing graceful = point := by simpa [hlock] using hk
        refine ⟨by simp, fun _ _ => ?_⟩
        rw [hshutdown]
        exact ha k graceful rfl hpc
  | shutdown k hlock => exact iff_of_true (by simp [Destroys, hlock]) (by simp [destroysRunning])
  | returned k graceful hold hshutdown =>
      exact absurd ((h k _ hold).2 graceful rfl) hshutdown

/-- The thread inside can move, and it comes closer to its unlock. -/
theorem rank_inside (h : s.Destroys) {holder : Holder α} (hlock : s.mutexLock = some holder) :
    ∃ t, s.step .inside = some t ∧ t.Destroys ∧
      ∀ holder', t.mutexLock = some holder' → holder'.rank < holder.rank := by
  cases holder with
  | worker i point =>
      refine ⟨s.workerInside i point, by simp [step, hlock], ?_⟩
      cases point with
      | testing =>
          simp only [workerInside]
          split
          · simp [Destroys, unlock]
          · split <;> simp [Destroys, lock, Holder.rank]
      | _ => simp [workerInside, Destroys, lock, unlock, Holder.rank]
  | adder k entry point =>
      refine ⟨s.adderInside k entry point, by simp [step, hlock], ?_⟩
      cases point with
      | testing =>
          simp only [adderInside]
          split
          · simp [Destroys, lock, Holder.rank]
          · split <;> simp [Destroys, lock, Holder.rank]
      | _ => simp [adderInside, Destroys, lock, unlock, Holder.rank]
  | destroyer k point =>
      obtain ⟨hreturned, hrunning⟩ := h k point hlock
      cases point with
      | testing graceful =>
          refine ⟨{ s with shutdown := if graceful then .graceful else .immediate }.lock
            (.destroyer k .unlocking), ?_, ?_⟩
          · simp [step, hlock, destroyerInside, hrunning graceful rfl]
          · simp [Destroys, lock, Holder.rank]
      | unlocking =>
          refine ⟨(s.setDestroyer k (.joining 0)).unlock, ?_, ?_⟩
          · simp [step, hlock, destroyerInside]
          · simp [Destroys, unlock]
      | returned => exact absurd rfl hreturned

theorem releases_of_destroys (h : s.Destroys) : s.Releases := by
  cases hlock : s.mutexLock with
  | none => exact ⟨0, s, rfl, hlock⟩
  | some holder =>
      induction hn : holder.rank using Nat.strong_induction_on generalizing s holder with
      | _ n ih =>
          obtain ⟨t, hstep, ht, hrank⟩ := rank_inside h hlock
          have hrest : t.Releases := by
            cases hlock' : t.mutexLock with
            | none => exact ⟨0, t, rfl, hlock'⟩
            | some holder' =>
                exact ih holder'.rank (hn ▸ hrank holder' hlock') ht holder' hlock' rfl
          obtain ⟨m, u, hexec, hfree⟩ := hrest
          refine ⟨m + 1, u, ?_, hfree⟩
          rw [List.replicate_succ, Machine.exec_cons_eq_some_iff]
          exact ⟨t, hstep, hexec⟩

/-- Before the mutex is free, the thread inside moves. -/
theorem Releases.exists_step (h : s.Releases) {holder : Holder α}
    (hlock : s.mutexLock = some holder) : ∃ t, s.step .inside = some t ∧ t.Releases := by
  obtain ⟨n, t, hexec, hfree⟩ := h
  cases n with
  | zero =>
      obtain rfl : s = t := by simpa using hexec
      simp [hlock] at hfree
  | succ n =>
      rw [List.replicate_succ, Machine.exec_cons_eq_some_iff] at hexec
      obtain ⟨r, hstep, hrest⟩ := hexec
      exact ⟨r, hstep, n, t, hrest, hfree⟩

/-- A call that has returned with the mutex does not release it. -/
theorem not_releases_of_returned {k : ℕ} (hlock : s.mutexLock = some (.destroyer k .returned)) :
    ¬ s.Releases := by
  intro h
  obtain ⟨t, hstep, -⟩ := h.exists_step hlock
  simp [step, hlock, destroyerInside] at hstep

theorem destroys_of_releases (h : s.Releases) : s.Destroys := by
  intro k point hlock
  have hreturned : point ≠ .returned := by
    rintro rfl
    exact not_releases_of_returned hlock h
  refine ⟨hreturned, ?_⟩
  rintro graceful rfl
  by_contra hshutdown
  obtain ⟨t, hstep, ht⟩ := h.exists_step hlock
  obtain rfl : (s.setDestroyer k (.returned .THREADPOOL_SHUTDOWN)).lock
      (.destroyer k .returned) = t := by
    simpa [step, hlock, destroyerInside, hshutdown] using hstep
  exact not_releases_of_returned rfl ht

theorem mutexReleased_iff (h : s.Located) : s.MutexReleased ↔ s.Destroys := by
  refine ⟨fun hs => destroys_of_releases hs.releases, fun hs => ?_⟩
  refine ⟨fun k result hpc entry point hlock => ?_, fun k result hpc point hlock => ?_,
    releases_of_destroys hs⟩
  · have hinside := h.adder k entry point hlock
    simp [hpc] at hinside
  · have hinside := h.destroyer k point hlock (hs k point hlock).1
    simp [hpc] at hinside

/-- In every run the mutex is always released exactly if every call of
`threadpool_destroy` that gets to the mutex finds the pool running. -/
theorem always_mutexReleased_iff (h : (machine α).initial s) (as : List (Step α)) :
    (machine α).always MutexReleased s as ↔ (machine α).along destroysRunning s as := by
  have hinitial : s.Located ∧ s.MutexReleased := by
    obtain ⟨default, threadCount, queueSize, -, -, rfl⟩ := h
    have hlocated : (new default threadCount queueSize).Located :=
      ⟨by simp [new], by simp [new]⟩
    exact ⟨hlocated, (mutexReleased_iff hlocated).2 (by simp [Destroys, new])⟩
  obtain ⟨hheld, hbalanced⟩ := balanced_initial h
  refine (machine α).always_iff_along
    (I := fun s => s.Held ∧ s.accounts.Balanced ∧ s.Located) ?_ ?_ as
    ⟨hheld, hbalanced, hinitial.1⟩ hinitial.2
  · rintro s a t ⟨hheld, hbalanced, hlocated⟩ hstep
    obtain ⟨hheld', hmove⟩ := step_move hheld hbalanced hstep
    exact ⟨hheld', hbalanced.move hmove, hlocated.turn (turn_of_step hlocated hbalanced hstep)⟩
  · rintro s a t ⟨-, hbalanced, hlocated⟩ hreleased hstep
    have hturn := turn_of_step hlocated hbalanced hstep
    rw [mutexReleased_iff (hlocated.turn hturn)]
    exact destroys_turn_iff ((mutexReleased_iff hlocated).1 hreleased) hturn

theorem frozen_of_returned {k : ℕ} {as : List (Step α)}
    (h : s.mutexLock = some (.destroyer k .returned)) (hexec : (machine α).exec s as = some t) :
    t.mutexLock = some (.destroyer k .returned) := by
  refine (machine α).exec_invariant_of_step
    (I := fun s => s.mutexLock = some (.destroyer k .returned)) ?_ h hexec
  rintro s a t hlock hstep
  obtain houtside | ⟨holder, hholder, hinside⟩ := outside_step hstep
  · obtain hsame | ⟨hnone, -⟩ := houtside.mutexLock
    · rw [hsame, hlock]
    · simp [hlock] at hnone
  · obtain rfl := Option.some.inj (hlock.symm.trans hholder)
    cases hinside

/-- A pool of one thread, which is in front of its loop, and its destruction. -/
def oneDestroy : List (Step ℕ) :=
  [.create true, .create true, .create true, .create true, .worker 0, .destroy 0 true,
    .destroyer 0, .inside, .inside]

theorem always_mutexReleased_oneDestroy :
    (machine ℕ).always MutexReleased (new 0 1 1) oneDestroy :=
  (always_mutexReleased_iff ⟨0, 1, 1, le_rfl, le_rfl, rfl⟩ oneDestroy).2 (by decide)

/-- A second destruction while the first one waits for the worker. -/
def twoDestroys : List (Step ℕ) :=
  oneDestroy ++ ([.destroy 1 true, .destroyer 1, .inside] : List (Step ℕ))

/-- The second call returns with the mutex, and the worker waits for good. -/
theorem not_mutexReleased_twoDestroys :
    ∃ s, (machine ℕ).exec (new 0 1 1) twoDestroys = some s ∧
      s.destroyers 0 = .joining 0 ∧ s.destroyers 1 = .returned .THREADPOOL_SHUTDOWN ∧
      s.mutexLock = some (.destroyer 1 .returned) ∧ s.workers 0 = .locking ∧
      ¬ s.MutexReleased ∧
      ∀ as t, (machine ℕ).exec s as = some t → t.mutexLock = some (.destroyer 1 .returned) :=
  ⟨_, rfl, rfl, rfl, rfl, rfl, fun h => h.destroyer 1 _ rfl .returned rfl,
    fun _ _ hexec => frozen_of_returned rfl hexec⟩

end ThreadPool

end Http

end SoL
