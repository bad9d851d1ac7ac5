import SoL.Http.ThreadPool.Mutex
import SoL.Http.ThreadPool.Queue

/-!
# The condition variable of the thread pool

The machine of the pool lets a waiting worker wake up at any time. Here the signals
are kept: a worker that waits goes on only when it has been notified. `threadpool_add`
signals one of the sleeping workers, if there is any, and `threadpool_destroy` wakes them
all; both do so before they unlock the mutex. A spurious wake-up is a step of its own, so
that it can be left out of a run.

No wake-up is lost (`awake_of_exec`): as long as a task is in the queue of a pool that
still works it off, some worker is awake, and once the pool shuts down nobody sleeps.
-/

namespace SoL

namespace Http

open Container Transition

namespace ThreadPool

variable {α : Type}

def isWaiting : WorkerPc α → Bool
  | .waiting => true
  | _ => false

/-- The worker will get to the mutex by its own steps. -/
def isRunning : WorkerPc α → Bool
  | .begin | .locking | .working _ => true
  | _ => false

/-- A worker that has been created and has not exited. -/
def isAlive : WorkerPc α → Bool
  | .absent | .exited => false
  | _ => true

/-- The pool, and the waiting workers that have been notified. -/
structure Signalled (α : Type) where
  pool : ThreadPool α
  notified : ℕ → Bool

/-- A step of the pool, with the worker that is chosen by a signal, or a spurious
wake-up. -/
inductive Signal (α : Type)
  | step (a : Step α) (chosen : ℕ)
  | spurious (i : ℕ)

/-- The worker begins to wait in the step. -/
def FallsAsleep (s : ThreadPool α) (a : Step α) (i : ℕ) : Prop :=
  a = .inside ∧ s.mutexLock = some (.worker i .testing) ∧ s.queue.count = 0 ∧
    s.shutdown = .running

/-- The worker exits in the step. -/
def Exits (s : ThreadPool α) (a : Step α) (i : ℕ) : Prop :=
  a = .inside ∧ s.mutexLock = some (.worker i .unlockingExit)

/-- What a step does to a worker. -/
inductive WorkerTurn (s t : ThreadPool α) (a : Step α) (i : ℕ) : Prop
  | keeps (h : t.workers i = s.workers i)
  | runs (h : isRunning (t.workers i) = true)
  | enters (h : t.workers i = .inside) (hlock : t.mutexLock = some (.worker i .testing))
  | sleeps (ha : s.FallsAsleep a i) (h : t.workers i = .waiting)
  | exits (ha : s.Exits a i) (h : t.workers i = .exited)

theorem isAlive_of_isRunning {pc : WorkerPc α} (h : isRunning pc = true) :
    isAlive pc = true ∧ isWaiting pc = false := by
  cases pc <;> simp [isRunning, isAlive, isWaiting] at h ⊢

section

variable {s t : ThreadPool α} {a : Step α}

theorem WorkerTurn.set {i j : ℕ} {pc : WorkerPc α} (hpc : isRunning pc = true)
    (hworkers : t.workers = (s.setWorker j pc).workers) : WorkerTurn s t a i := by
  by_cases hij : i = j
  · subst hij
    exact .runs (by simpa [hworkers, setWorker] using hpc)
  · exact .keeps (by simp [hworkers, setWorker, Function.update_of_ne hij])

theorem WorkerTurn.lock {i j : ℕ} :
    WorkerTurn s ((s.setWorker j .inside).lock (.worker j .testing)) a i := by
  by_cases hij : i = j
  · subst hij
    exact .enters (by simp [setWorker, ThreadPool.lock]) rfl
  · exact .keeps (by simp [setWorker, ThreadPool.lock, Function.update_of_ne hij])

theorem workerTurn_of_step (h : s.step a = some t) (i : ℕ) : WorkerTurn s t a i := by
  cases a with
  | create ok =>
      simp only [step, createStep] at h
      split at h
      · split at h
        · split at h
          · cases h
            exact .set rfl rfl
          · cases h
            exact .keeps rfl
        · cases h
          exact .keeps rfl
      · cases h
        exact .keeps rfl
      · cases h
        exact .keeps rfl
      · cases h
      · cases h
  | worker j =>
      simp only [step, workerStep] at h
      split at h
      · cases h
        exact .set rfl rfl
      · obtain ⟨-, h⟩ := Option.ite_none_right_eq_some.1 h
        cases h
        exact .lock
      · obtain ⟨-, h⟩ := Option.ite_none_right_eq_some.1 h
        cases h
        exact .lock
      · cases h
        exact .set rfl rfl
      · cases h
      · cases h
      · cases h
  | add k task =>
      obtain ⟨-, h⟩ := Option.ite_none_right_eq_some.1 h
      split at h <;> cases h <;> exact .keeps rfl
  | destroy k graceful =>
      obtain ⟨-, h⟩ := Option.ite_none_right_eq_some.1 h
      split at h <;> cases h <;> exact .keeps rfl
  | adder k =>
      simp only [step, adderStep] at h
      split at h
      · obtain ⟨-, h⟩ := Option.ite_none_right_eq_some.1 h
        cases h
        exact .keeps rfl
      all_goals cases h
  | destroyer k =>
      simp only [step, destroyerStep] at h
      split at h
      · obtain ⟨-, h⟩ := Option.ite_none_right_eq_some.1 h
        cases h
        exact .keeps rfl
      · split at h
        · split at h
          · cases h
            exact .keeps rfl
          · cases h
        · cases h
          exact .keeps rfl
      · split at h
        · cases h
          exact .keeps rfl
        · obtain ⟨-, ⟨⟩⟩ := Option.ite_none_right_eq_some.1 h
          exact .keeps rfl
      all_goals cases h
  | inside =>
      simp only [step] at h
      split at h
      · cases h
      · next j point hlock =>
          cases h
          cases point with
          | testing =>
              simp only [workerInside]
              split
              · next hempty =>
                  by_cases hi : i = j
                  · subst hi
                    exact .sleeps ⟨rfl, hlock, hempty⟩ (by simp [unlock, setWorker])
                  · exact .keeps (by simp [unlock, setWorker, Function.update_of_ne hi])
              · split <;> exact .keeps rfl
          | unlocking task => exact .set rfl rfl
          | unlockingExit =>
              by_cases hi : i = j
              · subst hi
                exact .exits ⟨rfl, hlock⟩ (by simp [workerInside, unlock, setWorker])
              · exact .keeps (by simp [workerInside, unlock, setWorker, Function.update_of_ne hi])
          | taking | moving | uncounting | leaving => exact .keeps rfl
      · next k entry point hlock =>
          cases h
          cases point with
          | testing =>
              simp only [adderInside]
              split
              · exact .keeps rfl
              · split <;> exact .keeps rfl
          | storing | advancing | counting | unlocking => exact .keeps rfl
      · next k point hlock =>
          cases point with
          | testing graceful =>
              simp only [destroyerInside] at h
              split at h <;> cases h <;> exact .keeps rfl
          | unlocking =>
              cases h
              exact .keeps rfl
          | returned => cases h

theorem outside_of_ne_inside (ha : a ≠ .inside) (h : s.step a = some t) : Outside s t := by
  cases a with
  | create ok => exact outside_createStep h
  | worker i => exact outside_workerStep h
  | adder k => exact outside_adderStep h
  | destroyer k => exact outside_destroyerStep h
  | add k task =>
      obtain ⟨-, h⟩ := Option.ite_none_right_eq_some.1 h
      split at h <;> cases h <;> exact ⟨rfl, rfl, rfl, rfl, rfl, fun _ => id, .inl rfl⟩
  | destroy k graceful =>
      obtain ⟨-, h⟩ := Option.ite_none_right_eq_some.1 h
      split at h <;> cases h <;> exact ⟨rfl, rfl, rfl, rfl, rfl, fun _ => id, .inl rfl⟩
  | inside => exact absurd rfl ha

/-- Only the thread inside the mutex gives it up. -/
theorem mutexLock_of_ne_inside (ha : a ≠ .inside) (h : s.step a = some t) {holder : Holder α}
    (hlock : s.mutexLock = some holder) : t.mutexLock = some holder := by
  obtain hsame | ⟨hnone, -⟩ := (outside_of_ne_inside ha h).mutexLock
  · exact hsame.trans hlock
  · rw [hlock] at hnone
    cases hnone

/-- Only the worker that has the mutex is inside. -/
def Inner (s : ThreadPool α) : Prop :=
  ∀ i, s.workers i = .inside → ∃ point, s.mutexLock = some (.worker i point)

theorem inner_step (hinner : s.Inner) (h : s.step a = some t) : t.Inner := by
  intro i hi
  cases workerTurn_of_step h i with
  | keeps hsame =>
      obtain ⟨point, hlock⟩ := hinner i (hsame ▸ hi)
      by_cases ha : a = .inside
      · subst ha
        simp only [step, hlock, Option.some.injEq] at h
        subst h
        cases point with
        | testing =>
            simp only [workerInside] at hi ⊢
            split at hi
            · simp [setWorker, unlock] at hi
            · next hgoes =>
                rw [if_neg hgoes]
                split <;> exact ⟨_, rfl⟩
        | taking | moving | uncounting | leaving => exact ⟨_, rfl⟩
        | unlocking | unlockingExit => simp [workerInside, setWorker, unlock] at hi
      · exact ⟨point, mutexLock_of_ne_inside ha h hlock⟩
  | runs hruns =>
      rw [hi] at hruns
      cases hruns
  | enters _ hlock => exact ⟨_, hlock⟩
  | sleeps _ hwaiting =>
      rw [hi] at hwaiting
      cases hwaiting
  | exits _ hexited =>
      rw [hi] at hexited
      cases hexited

/-- A call of `threadpool_add` has stored its task and is about to signal. -/
def Accepting (s : ThreadPool α) : Prop :=
  ∃ k entry, s.mutexLock = some (.adder k entry (.unlocking .ok))

/-- What the thread inside does to the shutdown flag and to the tasks. -/
theorem ledger_inside {r : RingBuffer α} (hs : s.Sound r) (h : s.step .inside = some t) :
    (t.shutdown = s.shutdown ∨
      s.shutdown = .running ∧ ∃ k, t.mutexLock = some (.destroyer k .unlocking)) ∧
    (t.accepted = s.accepted ∧ t.taken = s.taken ∨ t.Accepting ∨ 0 < r.count) ∧
    (t.Accepting → t.shutdown = .running) := by
  have hmidway := hs.midway
  simp only [step] at h
  split at h
  · cases h
  · next i point hlock =>
      cases h
      rw [hlock] at hmidway
      cases point with
      | testing =>
          simp only [workerInside]
          split
          · exact ⟨.inl rfl, .inl ⟨rfl, rfl⟩, by simp [Accepting, unlock]⟩
          · split <;> exact ⟨.inl rfl, .inl ⟨rfl, rfl⟩, by simp [Accepting, lock]⟩
      | uncounting task =>
          exact ⟨.inl rfl, .inr (.inr hmidway.2.1), by simp [Accepting, workerInside, lock]⟩
      | taking | moving | leaving =>
          exact ⟨.inl rfl, .inl ⟨rfl, rfl⟩, by simp [Accepting, workerInside, lock]⟩
      | unlocking | unlockingExit =>
          exact ⟨.inl rfl, .inl ⟨rfl, rfl⟩, by simp [Accepting, workerInside, unlock]⟩
  · next k entry point hlock =>
      cases h
      rw [hlock] at hmidway
      cases point with
      | testing task =>
          simp only [adderInside]
          split
          · exact ⟨.inl rfl, .inl ⟨rfl, rfl⟩, by simp [Accepting, lock]⟩
          · split <;> exact ⟨.inl rfl, .inl ⟨rfl, rfl⟩, by simp [Accepting, lock]⟩
      | counting task =>
          exact ⟨.inl rfl, .inr (.inl ⟨k, entry, rfl⟩), fun _ => hmidway.2.2⟩
      | storing | advancing =>
          exact ⟨.inl rfl, .inl ⟨rfl, rfl⟩, by simp [Accepting, adderInside, lock]⟩
      | unlocking result =>
          exact ⟨.inl rfl, .inl ⟨rfl, rfl⟩, by simp [Accepting, adderInside, unlock]⟩
  · next k point hlock =>
      cases point with
      | testing graceful =>
          simp only [destroyerInside] at h
          split at h
          · cases h
            exact ⟨.inl rfl, .inl ⟨rfl, rfl⟩, by simp [Accepting, lock]⟩
          · next hrunning =>
              cases h
              exact ⟨.inr ⟨not_not.1 hrunning, k, rfl⟩, .inl ⟨rfl, rfl⟩, by simp [Accepting, lock]⟩
      | unlocking =>
          cases h
          exact ⟨.inl rfl, .inl ⟨rfl, rfl⟩, by simp [Accepting, unlock]⟩
      | returned => cases h

/-- The tasks that are left are those in the queue. -/
theorem Sound.accepted_eq_taken_iff {r : RingBuffer α} (h : s.Sound r) :
    s.accepted = s.taken ↔ r.count = 0 := by
  have hlen : r.contents.length = r.count := by simp [RingBuffer.contents]
  rw [← h.ledger, List.append_right_eq_self, ← hlen, List.length_eq_zero_iff]

theorem shutdown_step {r : RingBuffer α} (hs : s.Sound r) (h : s.step a = some t) :
    t.shutdown = s.shutdown ∨
      s.shutdown = .running ∧ ∃ k, t.mutexLock = some (.destroyer k .unlocking) := by
  by_cases ha : a = .inside
  · subst ha
    exact (ledger_inside hs h).1
  · exact .inl (outside_of_ne_inside ha h).shutdown

/-- A task is left after a step only if there was one before or has just been stored. -/
theorem tasks_step {r : RingBuffer α} (hs : s.Sound r) (h : s.step a = some t)
    (hleft : t.accepted ≠ t.taken) : s.accepted ≠ s.taken ∨ t.Accepting := by
  by_cases ha : a = .inside
  · subst ha
    obtain ⟨haccepted, htaken⟩ | haccepting | hcount := (ledger_inside hs h).2.1
    · left
      rwa [← haccepted, ← htaken]
    · exact .inr haccepting
    · left
      rw [ne_eq, hs.accepted_eq_taken_iff]
      omega
  · have houtside := outside_of_ne_inside ha h
    left
    rwa [← houtside.accepted, ← houtside.taken]

theorem accepting_step {r : RingBuffer α} (hs : s.Sound r) (h : s.step a = some t)
    (haccepting : s.Accepting → s.shutdown = .running) (ht : t.Accepting) :
    t.shutdown = .running := by
  by_cases ha : a = .inside
  · subst ha
    exact (ledger_inside hs h).2.2 ht
  · have houtside := outside_of_ne_inside ha h
    rw [houtside.shutdown]
    obtain ⟨k, entry, hlock⟩ := ht
    obtain hsame | ⟨-, holder, hholder, hentered⟩ := houtside.mutexLock
    · exact haccepting ⟨k, entry, hsame.symm.trans hlock⟩
    · -- A thread that has just locked the mutex has not stored anything.
      rw [hlock] at hholder
      cases hholder
      exact hentered.elim

/-- A call of `threadpool_destroy` waits for the workers only in a pool that shuts down. -/
structure Ends (s : ThreadPool α) : Prop where
  unlocking : ∀ k, s.mutexLock = some (.destroyer k .unlocking) → s.shutdown ≠ .running
  joining : ∀ k i, s.destroyers k = .joining i → s.shutdown ≠ .running

theorem joining_setDestroyer {j k i : ℕ} {pc : DestroyerPc}
    (hpc : ∀ i, pc = .joining i → ∃ i, s.destroyers j = .joining i)
    (hk : (s.setDestroyer j pc).destroyers k = .joining i) : ∃ i, s.destroyers k = .joining i := by
  by_cases hkj : k = j
  · subst hkj
    exact hpc i (by simpa [setDestroyer] using hk)
  · exact ⟨i, by simpa [setDestroyer, Function.update_of_ne hkj] using hk⟩

theorem joining_step (h : s.step a = some t) {k i : ℕ} (hk : t.destroyers k = .joining i) :
    (∃ j, s.destroyers k = .joining j) ∨ s.mutexLock = some (.destroyer k .unlocking) := by
  cases a with
  | create ok =>
      left
      simp only [step, createStep] at h
      split at h
      · split at h
        · split at h
          · cases h
            exact ⟨i, hk⟩
          · cases h
            exact joining_setDestroyer (by simp) hk
        · cases h
          exact ⟨i, hk⟩
      · cases h
        exact ⟨i, hk⟩
      · cases h
        exact ⟨i, hk⟩
      all_goals cases h
  | worker j =>
      left
      simp only [step, workerStep] at h
      repeat' split at h
      all_goals cases h <;> exact ⟨i, hk⟩
  | add j task =>
      obtain ⟨-, h⟩ := Option.ite_none_right_eq_some.1 h
      split at h <;> cases h <;> exact .inl ⟨i, hk⟩
  | adder j =>
      left
      simp only [step, adderStep] at h
      repeat' split at h
      all_goals cases h <;> exact ⟨i, hk⟩
  | destroy j graceful =>
      obtain ⟨-, h⟩ := Option.ite_none_right_eq_some.1 h
      split at h <;> cases h <;> exact .inl (joining_setDestroyer (by simp) hk)
  | destroyer j =>
      left
      simp only [step, destroyerStep] at h
      split at h
      · obtain ⟨-, h⟩ := Option.ite_none_right_eq_some.1 h
        cases h
        exact joining_setDestroyer (by simp) hk
      · next hpc =>
          split at h
          · split at h
            · cases h
              exact joining_setDestroyer (fun _ _ => ⟨_, hpc⟩) hk
            · cases h
          · cases h
            exact joining_setDestroyer (by simp) hk
      · split at h
        · cases h
          exact joining_setDestroyer (by simp) hk
        · obtain ⟨-, ⟨⟩⟩ := Option.ite_none_right_eq_some.1 h
          exact joining_setDestroyer (by simp) hk
      all_goals cases h
  | inside =>
      simp only [step] at h
      split at h
      · cases h
      · next j point hlock =>
          cases h
          left
          cases point with
          | testing =>
              simp only [workerInside] at hk
              split at hk
              · exact ⟨i, hk⟩
              · split at hk <;> exact ⟨i, hk⟩
          | _ => exact ⟨i, hk⟩
      · next j entry point hlock =>
          cases h
          left
          cases point with
          | testing =>
              simp only [adderInside] at hk
              split at hk
              · exact ⟨i, hk⟩
              · split at hk <;> exact ⟨i, hk⟩
          | _ => exact ⟨i, hk⟩
      · next j point hlock =>
          cases point with
          | testing =>
              simp only [destroyerInside] at h
              split at h
              · cases h
                exact .inl (joining_setDestroyer (by simp) hk)
              · cases h
                exact .inl ⟨i, hk⟩
          | unlocking =>
              cases h
              by_cases hkj : k = j
              · exact .inr (hkj ▸ hlock)
              · exact .inl ⟨i, by simpa [setDestroyer, unlock, Function.update_of_ne hkj] using hk⟩
          | returned => cases h

theorem unlocking_inside (h : s.step .inside = some t) {k : ℕ}
    (hk : t.mutexLock = some (.destroyer k .unlocking)) : t.shutdown ≠ .running := by
  simp only [step] at h
  split at h
  · cases h
  · next i point hlock =>
      cases h
      cases point with
      | testing =>
          simp only [workerInside] at hk
          split at hk
          · simp [unlock] at hk
          · split at hk <;> simp [lock] at hk
      | _ => simp [workerInside, lock, unlock] at hk
  · next j entry point hlock =>
      cases h
      cases point with
      | testing =>
          simp only [adderInside] at hk
          split at hk
          · simp [lock] at hk
          · split at hk <;> simp [lock] at hk
      | _ => simp [adderInside, lock, unlock] at hk
  · next j point hlock =>
      cases point with
      | testing graceful =>
          simp only [destroyerInside] at h
          split at h
          · cases h
            simp [lock] at hk
          · cases h
            cases graceful <;> simp [lock]
      | unlocking =>
          cases h
          simp [unlock] at hk
      | returned => cases h

theorem ends_step {r : RingBuffer α} (hs : s.Sound r) (h : s.step a = some t) (hends : s.Ends) :
    t.Ends := by
  have hkeep : s.shutdown ≠ .running → t.shutdown ≠ .running := by
    intro hshutdown
    obtain hsame | ⟨hrunning, -⟩ := shutdown_step hs h
    · rwa [hsame]
    · exact absurd hrunning hshutdown
  refine ⟨fun k hk => ?_, fun k i hk => ?_⟩
  · by_cases ha : a = .inside
    · subst ha
      exact unlocking_inside h hk
    · obtain hsame | ⟨-, holder, hholder, hentered⟩ := (outside_of_ne_inside ha h).mutexLock
      · exact hkeep (hends.unlocking k (hsame.symm.trans hk))
      · rw [hk] at hholder
        cases hholder
        exact hentered.elim
  · obtain ⟨j, hj⟩ | hlock := joining_step h hk
    · exact hkeep (hends.joining k j hj)
    · exact hkeep (hends.unlocking k hlock)

/-- Tasks are handed over only after the creation. -/
theorem done_step (hlocated : s.Located) (h : s.step a = some t)
    (hdone : ∀ k, s.adders k ≠ .idle → s.creator = .done) :
    ∀ k, t.adders k ≠ .idle → t.creator = .done := by
  have hset : ∀ {j : ℕ} {pc : AdderPc α}, s.creator = .done →
      ∀ k, (s.setAdder j pc).adders k ≠ .idle → s.creator = .done :=
    fun hcreator _ _ => hcreator
  cases a with
  | create ok =>
      intro k hk
      simp only [step, createStep] at h
      have hadders : t.adders = s.adders := by
        repeat' split at h
        all_goals cases h <;> rfl
      rw [hdone k (hadders ▸ hk)] at h
      cases h
  | worker i =>
      simp only [step, workerStep] at h
      repeat' split at h
      all_goals cases h <;> exact hdone
  | destroyer k =>
      simp only [step, destroyerStep] at h
      repeat' split at h
      all_goals cases h <;> exact hdone
  | add k task =>
      obtain ⟨hcreator, h⟩ := Option.ite_none_right_eq_some.1 h
      split at h <;> cases h <;> exact hset hcreator
  | destroy k graceful =>
      obtain ⟨-, h⟩ := Option.ite_none_right_eq_some.1 h
      split at h <;> cases h <;> exact hdone
  | adder k =>
      simp only [step, adderStep] at h
      split at h
      · next hpc =>
          obtain ⟨-, h⟩ := Option.ite_none_right_eq_some.1 h
          cases h
          exact hset (hdone k (by simp [hpc]))
      all_goals cases h
  | inside =>
      simp only [step] at h
      split at h
      · cases h
      · next i point hlock =>
          cases h
          cases point with
          | testing =>
              simp only [workerInside]
              repeat' split
              all_goals exact hdone
          | _ => exact hdone
      · next k entry point hlock =>
          cases h
          have hcreator := hdone k (by simp [hlocated.adder k entry point hlock])
          cases point with
          | testing =>
              simp only [adderInside]
              repeat' split
              all_goals exact hdone
          | unlocking => exact hset hcreator
          | _ => exact hdone
      · next k point hlock =>
          cases point with
          | testing =>
              simp only [destroyerInside] at h
              split at h <;> cases h <;> exact hdone
          | unlocking =>
              cases h
              exact hdone
          | returned => cases h

end

namespace Signalled

/-- The worker waits and has not been notified. -/
def sleeping (s : Signalled α) (i : ℕ) : Bool := isWaiting (s.pool.workers i) && !s.notified i

/-- The worker lives and does not sleep. -/
def awake (s : Signalled α) (i : ℕ) : Bool := isAlive (s.pool.workers i) && !s.sleeping i

def sleepers (s : Signalled α) : List ℕ := (List.range s.pool.requested).filter s.sleeping

/-- A worker does not leave its wait before it has been notified. -/
def mayRun (s : Signalled α) : Step α → Bool
  | .worker i => !s.sleeping i
  | _ => true

/-- Who is notified after a step. A worker that begins to wait has not been notified;
`pthread_cond_signal` chooses one of the sleepers, and `pthread_cond_broadcast` takes
all of them. -/
def notify (s : Signalled α) (chosen : ℕ) : Option (Holder α) → Option (ℕ → Bool)
  | some (.worker i .testing) => some (Function.update s.notified i false)
  | some (.adder _ _ (.unlocking .ok)) =>
      if s.sleepers = [] then some s.notified
      else if chosen ∈ s.sleepers then some (Function.update s.notified chosen true)
      else none
  | some (.destroyer _ .unlocking) => some fun _ => true
  | _ => some s.notified

def notifies (s : Signalled α) (chosen : ℕ) : Step α → Option (ℕ → Bool)
  | .inside => s.notify chosen s.pool.mutexLock
  | _ => some s.notified

def step (s : Signalled α) : Signal α → Option (Signalled α)
  | .step a chosen =>
      if s.mayRun a then do
        let t ← s.pool.step a
        let notified ← s.notifies chosen a
        return ⟨t, notified⟩
      else none
  | .spurious i =>
      if isWaiting (s.pool.workers i) then
        some { s with notified := Function.update s.notified i true }
      else none

def machine (α : Type) : Machine (Signalled α) (Signal α) where
  initial := fun s => (ThreadPool.machine α).initial s.pool
  step := step

section Invariant

variable {s t : Signalled α} {a : Step α} {chosen i : ℕ}

theorem step_eq_some_iff : s.step (.step a chosen) = some t ↔
    s.mayRun a = true ∧ s.pool.step a = some t.pool ∧
      s.notifies chosen a = some t.notified := by
  obtain ⟨pool, notified⟩ := t
  simp only [step, Option.ite_none_right_eq_some, Option.bind_eq_bind, Option.bind_eq_some_iff]
  constructor
  · rintro ⟨hrun, p, hp, n, hn, h⟩
    cases h
    exact ⟨hrun, hp, hn⟩
  · rintro ⟨hrun, hp, hn⟩
    exact ⟨hrun, pool, hp, notified, hn, rfl⟩

/-- A worker loses its notification only when it tests the queue. -/
theorem notified_step (h : s.step (.step a chosen) = some t) (hi : t.notified i = false) :
    s.notified i = false ∨ a = .inside ∧ s.pool.mutexLock = some (.worker i .testing) := by
  obtain ⟨-, -, hnotify⟩ := step_eq_some_iff.1 h
  have hupdate : ∀ (j : ℕ) (b : Bool), i ≠ j → some (Function.update s.notified j b) =
      some t.notified → s.notified i = false := by
    intro j b hij hsame
    rwa [← Option.some.inj hsame, Function.update_of_ne hij] at hi
  have hkeep : some s.notified = some t.notified → s.notified i = false := by
    intro hsame
    rwa [← Option.some.inj hsame] at hi
  by_cases ha : a = .inside
  · subst ha
    simp only [notifies] at hnotify
    unfold notify at hnotify
    split at hnotify
    · next j hlock =>
        by_cases hij : i = j
        · exact .inr ⟨rfl, by rw [hij]; exact hlock⟩
        · exact .inl (hupdate j false hij hnotify)
    · split at hnotify
      · exact .inl (hkeep hnotify)
      · split at hnotify
        · by_cases hij : i = chosen
          · rw [← Option.some.inj hnotify, hij, Function.update_self] at hi
            cases hi
          · exact .inl (hupdate chosen true hij hnotify)
        · cases hnotify
    · rw [← Option.some.inj hnotify] at hi
      cases hi
    · exact .inl (hkeep hnotify)
  · left
    refine hkeep ?_
    cases a with
    | inside => exact absurd rfl ha
    | _ => exact hnotify

theorem sleeping_step (hheld : s.pool.Held) (h : s.step (.step a chosen) = some t)
    (hi : t.sleeping i = true) : s.sleeping i = true ∨ s.pool.FallsAsleep a i := by
  obtain ⟨-, hstep, -⟩ := step_eq_some_iff.1 h
  obtain ⟨hwaiting, hnot⟩ : isWaiting (t.pool.workers i) = true ∧ t.notified i = false := by
    simpa [sleeping] using hi
  cases workerTurn_of_step hstep i with
  | keeps hsame =>
      rw [hsame] at hwaiting
      obtain hold | ⟨-, hlock⟩ := notified_step h hnot
      · left
        simp [sleeping, hwaiting, hold]
      · -- The worker inside the mutex does not wait.
        have hinside : s.pool.workers i = .inside := by simpa only [Held, hlock] using hheld
        rw [hinside] at hwaiting
        cases hwaiting
  | runs hruns =>
      rw [(isAlive_of_isRunning hruns).2] at hwaiting
      cases hwaiting
  | enters hinside =>
      rw [hinside] at hwaiting
      cases hwaiting
  | sleeps hfalls => exact .inr hfalls
  | exits _ hexited =>
      rw [hexited] at hwaiting
      cases hwaiting

theorem awake_step (hheld : s.pool.Held) (h : s.step (.step a chosen) = some t)
    (hi : s.awake i = true) :
    t.awake i = true ∨ s.pool.FallsAsleep a i ∨ s.pool.Exits a i := by
  obtain ⟨-, hstep, -⟩ := step_eq_some_iff.1 h
  obtain ⟨halive, hnot⟩ : isAlive (s.pool.workers i) = true ∧ s.sleeping i = false := by
    simpa [awake] using hi
  cases hsleeping : t.sleeping i with
  | true =>
      obtain hold | hfalls := sleeping_step hheld h hsleeping
      · rw [hold] at hnot
        cases hnot
      · exact .inr (.inl hfalls)
  | false =>
      cases workerTurn_of_step hstep i with
      | keeps hsame =>
          left
          simp [awake, hsame, halive, hsleeping]
      | runs hruns =>
          left
          simp [awake, isAlive_of_isRunning hruns, hsleeping]
      | enters hinside =>
          left
          simp [awake, isAlive, hinside, hsleeping]
      | sleeps hfalls => exact .inr (.inl hfalls)
      | exits hexits => exact .inr (.inr hexits)

/-- What holds of a pool with its signals, in every reachable state. A task that is
left is watched by a worker that is awake, or by the caller that is about to signal. -/
structure Watched (s : Signalled α) : Prop where
  held : s.pool.Held
  inner : s.pool.Inner
  balanced : s.pool.accounts.Balanced
  located : s.pool.Located
  sound : ∃ r, s.pool.Sound r
  ends : s.pool.Ends
  done : ∀ k, s.pool.adders k ≠ .idle → s.pool.creator = .done
  accepting : s.pool.Accepting → s.pool.shutdown = .running
  work : s.pool.accepted ≠ s.pool.taken → s.pool.shutdown ≠ .immediate →
    (∃ i, s.awake i = true) ∨ s.pool.Accepting
  woken : s.pool.shutdown ≠ .running →
    (∀ i, s.sleeping i = false) ∨ ∃ k, s.pool.mutexLock = some (.destroyer k .unlocking)

theorem watched_initial (h : (machine α).initial s) : s.Watched := by
  obtain ⟨hheld, hbalanced⟩ := balanced_initial h
  have hsound := sound_initial h
  obtain ⟨default, threadCount, queueSize, -, -, hpool⟩ := h
  refine ⟨hheld, ?_, hbalanced, ⟨?_, ?_⟩, hsound, ⟨?_, ?_⟩, ?_, ?_, ?_, ?_⟩
  all_goals simp [hpool, new, Accepting, Inner]

/-- A worker that is awake as long as tasks are left does not stop watching them. -/
theorem awake_step_of_left (hs : s.Watched) (h : s.step (.step a chosen) = some t)
    (hleft : s.pool.accepted ≠ s.pool.taken) (hshutdown : s.pool.shutdown ≠ .immediate)
    (hi : s.awake i = true) : t.awake i = true := by
  obtain ⟨r, hsound⟩ := hs.sound
  rw [ne_eq, hsound.accepted_eq_taken_iff] at hleft
  obtain hawake | ⟨-, hlock, hcount, -⟩ | ⟨-, hlock⟩ := awake_step hs.held h hi
  · exact hawake
  · have hqueue : s.pool.queue = r := by
      have hmidway := hsound.midway
      rwa [hlock] at hmidway
    rw [hqueue] at hcount
    exact absurd hcount hleft
  · obtain himmediate | ⟨-, hcount⟩ := hsound.left i (.inr (.inr hlock))
    · exact absurd himmediate hshutdown
    · exact absurd hcount hleft

/-- A running pool that has been created has its first worker. -/
theorem Watched.isAlive_zero (hs : s.Watched) (hdone : s.pool.creator = .done)
    (hrunning : s.pool.shutdown = .running) :
    0 < s.pool.requested ∧ isAlive (s.pool.workers 0) = true := by
  obtain ⟨r, hsound⟩ := hs.sound
  have hrequested : 0 < s.pool.requested := hs.balanced.requested
  have hcount : s.pool.threadCount = s.pool.requested := by
    simpa [Accounts.Loop, accounts, hdone] using hs.balanced.loop
  have habsent : s.pool.workers 0 ≠ .absent := by
    rw [ne_eq, ← phase_eq_absent_iff]
    refine (hs.balanced.absent_iff_of_settled (.inl hdone) 0).not.2 ?_
    change ¬ s.pool.threadCount ≤ 0
    omega
  have hexited : s.pool.workers 0 ≠ .exited := fun hexited =>
    hsound.exited_of_running hrunning 0 (.inl hexited)
  refine ⟨hrequested, ?_⟩
  cases hpc : s.pool.workers 0 with
  | absent => exact absurd hpc habsent
  | exited => exact absurd hpc hexited
  | _ => rfl

/-- The signal of `threadpool_add` leaves a worker awake: the one that it wakes, or any
worker when nobody sleeps. -/
theorem exists_awake_of_accepting (hs : s.Watched) (haccepting : s.pool.Accepting)
    (h : s.step (.step .inside chosen) = some t) : ∃ i, t.awake i = true := by
  have hrunning := hs.accepting haccepting
  obtain ⟨k, entry, hlock⟩ := haccepting
  have hdone := hs.done k (by simp [hs.located.adder k entry _ hlock])
  obtain ⟨-, hstep, hnotify⟩ := step_eq_some_iff.1 h
  have hworkers : t.pool.workers = s.pool.workers := by
    simp only [ThreadPool.step, hlock, Option.some.injEq] at hstep
    rw [← hstep]
    rfl
  simp only [notifies, hlock, notify] at hnotify
  split at hnotify
  · next hnobody =>
      obtain ⟨hrequested, halive⟩ := hs.isAlive_zero hdone hrunning
      have hawake : s.sleeping 0 = false := by
        have hmem : 0 ∉ s.sleepers := by simp [hnobody]
        simpa [sleepers, hrequested] using hmem
      refine ⟨0, ?_⟩
      simp only [awake, sleeping, hworkers, ← Option.some.inj hnotify, halive, Bool.true_and]
      exact congrArg Bool.not hawake
  · obtain ⟨hmem, hnotify⟩ := Option.ite_none_right_eq_some.1 hnotify
    have hwaiting : isWaiting (s.pool.workers chosen) = true := by
      have hsleeping := List.of_mem_filter hmem
      simp only [sleeping, Bool.and_eq_true] at hsleeping
      exact hsleeping.1
    have halive : isAlive (s.pool.workers chosen) = true := by
      cases hpc : s.pool.workers chosen <;> simp [hpc, isWaiting] at hwaiting
      rfl
    exact ⟨chosen, by simp [awake, sleeping, hworkers, ← Option.some.inj hnotify, halive]⟩

theorem Watched.work_step (hs : s.Watched) (h : s.step (.step a chosen) = some t)
    (hleft : t.pool.accepted ≠ t.pool.taken) (hshutdown : t.pool.shutdown ≠ .immediate) :
    (∃ i, t.awake i = true) ∨ t.pool.Accepting := by
  obtain ⟨r, hsound⟩ := hs.sound
  obtain ⟨-, hstep, -⟩ := step_eq_some_iff.1 h
  have hbefore : s.pool.shutdown ≠ .immediate := by
    obtain hsame | ⟨hrunning, -⟩ := shutdown_step hsound hstep
    · rwa [← hsame]
    · simp [hrunning]
  obtain hleft' | haccepting := tasks_step hsound hstep hleft
  · obtain ⟨i, hi⟩ | haccepting := hs.work hleft' hbefore
    · exact .inl ⟨i, awake_step_of_left hs h hleft' hbefore hi⟩
    · by_cases ha : a = .inside
      · subst ha
        exact .inl (exists_awake_of_accepting hs haccepting h)
      · obtain ⟨k, entry, hlock⟩ := haccepting
        exact .inr ⟨k, entry, mutexLock_of_ne_inside ha hstep hlock⟩
  · exact .inr haccepting

theorem Watched.woken_step (hs : s.Watched) (h : s.step (.step a chosen) = some t)
    (hshutdown : t.pool.shutdown ≠ .running) :
    (∀ i, t.sleeping i = false) ∨ ∃ k, t.pool.mutexLock = some (.destroyer k .unlocking) := by
  obtain ⟨r, hsound⟩ := hs.sound
  obtain ⟨-, hstep, hnotify⟩ := step_eq_some_iff.1 h
  obtain hsame | ⟨-, hdestroyer⟩ := shutdown_step hsound hstep
  · rw [hsame] at hshutdown
    obtain hnobody | ⟨k, hlock⟩ := hs.woken hshutdown
    · left
      intro i
      by_contra hi
      obtain hsleeping | hfalls := sleeping_step hs.held h (Bool.not_eq_false _ ▸ hi)
      · rw [hnobody i] at hsleeping
        cases hsleeping
      · exact hshutdown hfalls.2.2.2
    · by_cases ha : a = .inside
      · subst ha
        simp only [notifies, hlock, notify] at hnotify
        left
        intro i
        simp [sleeping, ← Option.some.inj hnotify]
      · exact .inr ⟨k, mutexLock_of_ne_inside ha hstep hlock⟩
  · exact .inr hdestroyer

/-- A spurious wake-up only adds to the workers that are awake. -/
theorem Watched.spurious (hs : s.Watched) :
    Watched { s with notified := Function.update s.notified i true } := by
  have hsleeping : ∀ j, s.sleeping j = false →
      sleeping { s with notified := Function.update s.notified i true } j = false := by
    intro j hj
    by_cases hji : j = i
    · subst hji
      simp [sleeping]
    · simpa [sleeping, Function.update_of_ne hji] using hj
  refine ⟨hs.held, hs.inner, hs.balanced, hs.located, hs.sound, hs.ends, hs.done, hs.accepting,
    fun hleft hshutdown => (hs.work hleft hshutdown).imp_left ?_,
    fun hshutdown => (hs.woken hshutdown).imp_left fun hnobody j => hsleeping j (hnobody j)⟩
  rintro ⟨j, hj⟩
  obtain ⟨halive, hnot⟩ : isAlive (s.pool.workers j) = true ∧ s.sleeping j = false := by
    simpa [awake] using hj
  exact ⟨j, by simp [awake, halive, hsleeping j hnot]⟩

theorem watched_step {b : Signal α} (hs : s.Watched) (h : s.step b = some t) : t.Watched := by
  cases b with
  | spurious i =>
      obtain ⟨-, h⟩ := Option.ite_none_right_eq_some.1 h
      cases h
      exact hs.spurious
  | step a chosen =>
      obtain ⟨-, hstep, -⟩ := step_eq_some_iff.1 h
      obtain ⟨hheld, hmove⟩ := step_move hs.held hs.balanced hstep
      obtain ⟨r, hsound⟩ := hs.sound
      exact {
        held := hheld
        inner := inner_step hs.inner hstep
        balanced := hs.balanced.move hmove
        located := hs.located.turn (turn_of_step hs.located hs.balanced hstep)
        sound := Sound.step hs.sound hstep
        ends := ends_step hsound hstep hs.ends
        done := done_step hs.located hstep hs.done
        accepting := accepting_step hsound hstep hs.accepting
        work := hs.work_step h
        woken := hs.woken_step h }

theorem watched_exec {s₀ : Signalled α} (hs₀ : (machine α).initial s₀) {as : List (Signal α)}
    (hexec : (machine α).exec s₀ as = some s) : s.Watched :=
  (machine α).exec_invariant_of_step (fun _ _ _ hs h => watched_step hs h)
    (watched_initial hs₀) hexec

/-- Whenever the mutex is free, a task in the queue of a pool that has not been shut down
at once finds a worker awake, and nobody sleeps in a pool that shuts down. -/
theorem awake_of_exec {s₀ : Signalled α} (hs₀ : (machine α).initial s₀) {as : List (Signal α)}
    (hexec : (machine α).exec s₀ as = some s) (hfree : s.pool.mutexLock = none) :
    (0 < s.pool.queue.count → s.pool.shutdown ≠ .immediate →
      ∃ i < s.pool.requested, s.awake i = true) ∧
    (s.pool.shutdown ≠ .running → ∀ i, s.sleeping i = false) := by
  have hs := watched_exec hs₀ hexec
  constructor
  · intro hcount hshutdown
    obtain ⟨r, hsound⟩ := hs.sound
    obtain rfl := hsound.queue_eq hfree
    have hleft : s.pool.accepted ≠ s.pool.taken := by
      rw [ne_eq, hsound.accepted_eq_taken_iff]
      omega
    obtain ⟨i, hi⟩ | ⟨k, entry, hlock⟩ := hs.work hleft hshutdown
    · refine ⟨i, hs.balanced.lt_requested (i := i) ?_, hi⟩
      change s.pool.phase i ≠ .absent
      rw [ne_eq, phase_eq_absent_iff]
      intro habsent
      simp [awake, isAlive, habsent] at hi
    · rw [hfree] at hlock
      cases hlock
  · intro hshutdown
    obtain hnobody | ⟨k, hlock⟩ := hs.woken hshutdown
    · exact hnobody
    · rw [hfree] at hlock
      cases hlock

end Invariant

/-- A worker that has gone to sleep, and a task. -/
def oneSignal : List (Signal ℕ) :=
  [.step (.create true) 0, .step (.create true) 0, .step (.create true) 0, .step (.create true) 0,
    .step (.worker 0) 0, .step (.worker 0) 0, .step .inside 0, .step (.add 0 7) 0,
    .step (.adder 0) 0, .step .inside 0, .step .inside 0, .step .inside 0, .step .inside 0,
    .step .inside 0]

theorem awake_oneSignal :
    ∃ s, (machine ℕ).exec ⟨ThreadPool.new 0 1 1, fun _ => false⟩ oneSignal = some s ∧
      s.pool.workers 0 = .waiting ∧ 0 < s.pool.queue.count ∧
      ∃ i < s.pool.requested, s.awake i = true := by
  have hinitial : (machine ℕ).initial ⟨ThreadPool.new 0 1 1, fun _ => false⟩ :=
    ⟨0, 1, 1, le_rfl, le_rfl, rfl⟩
  have hexec : (machine ℕ).exec ⟨ThreadPool.new 0 1 1, fun _ => false⟩ oneSignal = some _ := rfl
  exact ⟨_, hexec, rfl, by decide, (awake_of_exec hinitial hexec rfl).1 (by decide) (by decide)⟩

end Signalled

end ThreadPool

end Http

end SoL
