import SoL.Http.ThreadPool.Machine

/-!
# The queue of the thread pool

The queue is a ring buffer. Between two critical sections it is valid, and the
tasks taken and its contents are the tasks accepted. Inside a critical section
the queue is that ring with some of the assignments made (`Midway`), so that the
last of them completes a `push` or a `pop`.

A worker leaves its loop only in a pool that is shutting down, and after a
graceful shutdown only when the queue is empty. Since nothing is accepted any
more, the queue stays empty (`queue_sound`).
-/

namespace SoL

namespace Http

open Container Transition

namespace ThreadPool

variable {α : Type}

/-- The worker has left its loop. -/
def hasLeft (s : ThreadPool α) (i : ℕ) : Prop :=
  s.workers i = .exited ∨ s.mutexLock = some (.worker i .leaving) ∨
    s.mutexLock = some (.worker i .unlockingExit)

/-- A worker that has left its loop and is not on its way out has exited. -/
theorem hasLeft.exited {s : ThreadPool α} {i : ℕ} (h : s.hasLeft i)
    (hleaving : s.mutexLock ≠ some (.worker i .leaving))
    (hunlocking : s.mutexLock ≠ some (.worker i .unlockingExit)) : s.workers i = .exited := by
  obtain hexited | hlock | hlock := h
  · exact hexited
  · exact absurd hlock hleaving
  · exact absurd hlock hunlocking

/-- How far the thread inside the mutex has come with its assignments: `q` is the
queue, and `r` the queue that it has found. -/
def Midway (shutdown : Shutdown) (r q : RingBuffer α) : Option (Holder α) → Prop
  | some (.worker _ .taking) => q = r ∧ 0 < r.count
  | some (.worker _ (.moving task)) => q = r ∧ 0 < r.count ∧ task = r.front
  | some (.worker _ (.uncounting task)) => q = r.moveHead ∧ 0 < r.count ∧ task = r.front
  | some (.adder _ _ (.storing _ next)) =>
      q = r ∧ r.count < r.size ∧ next = r.next ∧ shutdown = .running
  | some (.adder _ _ (.advancing task next)) =>
      q = r.store task ∧ r.count < r.size ∧ next = r.next ∧ shutdown = .running
  | some (.adder _ _ (.counting task)) =>
      q = (r.store task).moveTail r.next ∧ r.count < r.size ∧ shutdown = .running
  | _ => q = r

/-- A call of `threadpool_add` that has not changed anything and will not. -/
def Idles : AdderPoint α → Prop
  | .testing _ => True
  | .unlocking result => result ≠ .ok
  | .storing _ _ | .advancing _ _ | .counting _ => False

/-- What holds with `r` as the queue outside the critical sections. -/
structure Sound (s : ThreadPool α) (r : RingBuffer α) : Prop where
  valid : r.Valid
  ledger : s.taken ++ r.contents = s.accepted
  midway : Midway s.shutdown r s.queue s.mutexLock
  left : ∀ i, s.hasLeft i → s.shutdown = .immediate ∨ s.shutdown = .graceful ∧ r.count = 0
  entry : ∀ k entry point, s.mutexLock = some (.adder k entry point) → Idles point →
    entry = (s.queue, s.shutdown)

theorem Sound.queue_eq {s : ThreadPool α} {r : RingBuffer α} (h : s.Sound r)
    (hfree : s.mutexLock = none) : s.queue = r := by
  have hmidway := h.midway
  rw [hfree] at hmidway
  exact hmidway

theorem sound_initial {s : ThreadPool α} (h : (machine α).initial s) : ∃ r, s.Sound r := by
  obtain ⟨default, threadCount, queueSize, -, hsize, rfl⟩ := h
  have hvalid := RingBuffer.valid_empty default hsize
  refine ⟨RingBuffer.empty default queueSize, hvalid, rfl, rfl, ?_, ?_⟩
  · intro i hleft
    simp [hasLeft, new] at hleft
  · intro k entry point hlock
    simp [new] at hlock

/-- A thread that has just locked the mutex. -/
def Entered (s : ThreadPool α) : Holder α → Prop
  | .worker _ .testing | .destroyer _ (.testing _) => True
  | .adder _ entry (.testing _) => entry = (s.queue, s.shutdown)
  | _ => False

/-- A step outside the mutex: at most, the mutex is locked. -/
structure Outside (s t : ThreadPool α) : Prop where
  requested : t.requested = s.requested
  queue : t.queue = s.queue
  shutdown : t.shutdown = s.shutdown
  accepted : t.accepted = s.accepted
  taken : t.taken = s.taken
  exited : ∀ i, t.workers i = .exited → s.workers i = .exited
  mutexLock : t.mutexLock = s.mutexLock ∨
    s.mutexLock = none ∧ ∃ h, t.mutexLock = some h ∧ s.Entered h

theorem exited_setWorker {s : ThreadPool α} {i : ℕ} {pc : WorkerPc α} (hpc : pc ≠ .exited) :
    ∀ j, (s.setWorker i pc).workers j = .exited → s.workers j = .exited := by
  intro j hj
  by_cases h : j = i
  · subst h
    simp [setWorker] at hj
    exact absurd hj hpc
  · simpa [setWorker, Function.update_of_ne h] using hj

theorem outside_createStep {s t : ThreadPool α} {ok : Bool} (h : s.createStep ok = some t) :
    Outside s t := by
  unfold createStep at h
  split at h
  · split at h
    · split at h
      · obtain rfl := Option.some.inj h
        exact ⟨rfl, rfl, rfl, rfl, rfl, exited_setWorker (by simp), .inl rfl⟩
      · obtain rfl := Option.some.inj h
        exact ⟨rfl, rfl, rfl, rfl, rfl, fun _ => id, .inl rfl⟩
    · obtain rfl := Option.some.inj h
      exact ⟨rfl, rfl, rfl, rfl, rfl, fun _ => id, .inl rfl⟩
  · obtain rfl := Option.some.inj h
    exact ⟨rfl, rfl, rfl, rfl, rfl, fun _ => id, .inl rfl⟩
  · obtain rfl := Option.some.inj h
    exact ⟨rfl, rfl, rfl, rfl, rfl, fun _ => id, .inl rfl⟩
  · cases h
  · cases h

theorem outside_workerStep {s t : ThreadPool α} {i : ℕ} (h : s.workerStep i = some t) :
    Outside s t := by
  have hlocks : (if s.mutexLock.isNone then
      some ((s.setWorker i .inside).lock (.worker i .testing)) else none) = some t →
      Outside s t := by
    intro h
    obtain ⟨hfree, h⟩ := Option.ite_none_right_eq_some.1 h
    obtain rfl := Option.some.inj h
    exact ⟨rfl, rfl, rfl, rfl, rfl, exited_setWorker (by simp),
      .inr ⟨Option.isNone_iff_eq_none.1 hfree, _, rfl, trivial⟩⟩
  unfold workerStep at h
  split at h
  · obtain rfl := Option.some.inj h
    exact ⟨rfl, rfl, rfl, rfl, rfl, exited_setWorker (by simp), .inl rfl⟩
  · exact hlocks h
  · exact hlocks h
  · obtain rfl := Option.some.inj h
    exact ⟨rfl, rfl, rfl, rfl, rfl, exited_setWorker (by simp), .inl rfl⟩
  · cases h
  · cases h
  · cases h

theorem outside_adderStep {s t : ThreadPool α} {k : ℕ} (h : s.adderStep k = some t) :
    Outside s t := by
  unfold adderStep at h
  split at h
  · obtain ⟨hfree, h⟩ := Option.ite_none_right_eq_some.1 h
    obtain rfl := Option.some.inj h
    exact ⟨rfl, rfl, rfl, rfl, rfl, fun _ => id,
      .inr ⟨Option.isNone_iff_eq_none.1 hfree, _, rfl, rfl⟩⟩
  · cases h
  · cases h
  · cases h

theorem outside_destroyerStep {s t : ThreadPool α} {k : ℕ} (h : s.destroyerStep k = some t) :
    Outside s t := by
  unfold destroyerStep at h
  split at h
  · obtain ⟨hfree, h⟩ := Option.ite_none_right_eq_some.1 h
    obtain rfl := Option.some.inj h
    exact ⟨rfl, rfl, rfl, rfl, rfl, fun _ => id,
      .inr ⟨Option.isNone_iff_eq_none.1 hfree, _, rfl, trivial⟩⟩
  · split at h
    · split at h
      · obtain rfl := Option.some.inj h
        exact ⟨rfl, rfl, rfl, rfl, rfl, fun _ => id, .inl rfl⟩
      · cases h
    · obtain rfl := Option.some.inj h
      exact ⟨rfl, rfl, rfl, rfl, rfl, fun _ => id, .inl rfl⟩
  · split at h
    · obtain rfl := Option.some.inj h
      exact ⟨rfl, rfl, rfl, rfl, rfl, fun _ => id, .inl rfl⟩
    · obtain ⟨-, h⟩ := Option.ite_none_right_eq_some.1 h
      obtain rfl := Option.some.inj h
      exact ⟨rfl, rfl, rfl, rfl, rfl, fun _ => id, .inl rfl⟩
  · cases h
  · cases h
  · cases h

theorem outside_step {s t : ThreadPool α} {a : Step α} (h : s.step a = some t) :
    Outside s t ∨ ∃ holder, s.mutexLock = some holder ∧
      (match holder with
      | .worker i point => some (s.workerInside i point)
      | .adder k entry point => some (s.adderInside k entry point)
      | .destroyer k point => s.destroyerInside k point) = some t := by
  cases a with
  | create ok => exact .inl (outside_createStep h)
  | worker i => exact .inl (outside_workerStep h)
  | adder k => exact .inl (outside_adderStep h)
  | destroyer k => exact .inl (outside_destroyerStep h)
  | add k task =>
      left
      obtain ⟨-, h⟩ := Option.ite_none_right_eq_some.1 h
      split at h
      · obtain rfl := Option.some.inj h
        exact ⟨rfl, rfl, rfl, rfl, rfl, fun _ => id, .inl rfl⟩
      · obtain rfl := Option.some.inj h
        exact ⟨rfl, rfl, rfl, rfl, rfl, fun _ => id, .inl rfl⟩
      · cases h
      · cases h
  | destroy k graceful =>
      left
      obtain ⟨-, h⟩ := Option.ite_none_right_eq_some.1 h
      split at h
      · obtain rfl := Option.some.inj h
        exact ⟨rfl, rfl, rfl, rfl, rfl, fun _ => id, .inl rfl⟩
      · obtain rfl := Option.some.inj h
        exact ⟨rfl, rfl, rfl, rfl, rfl, fun _ => id, .inl rfl⟩
      · cases h
  | inside =>
      right
      simp only [step] at h
      cases hlock : s.mutexLock with
      | none => simp [hlock] at h
      | some holder =>
          rw [hlock] at h
          refine ⟨holder, rfl, ?_⟩
          cases holder <;> exact h

theorem Sound.outside {s t : ThreadPool α} {r : RingBuffer α} (h : s.Sound r)
    (ho : Outside s t) : t.Sound r := by
  obtain hsame | ⟨hnone, holder, hlock, hentered⟩ := ho.mutexLock
  · refine ⟨h.valid, by rw [ho.taken, ho.accepted, h.ledger], ?_, fun i hi => ?_, ?_⟩
    · rw [hsame, ho.queue, ho.shutdown]
      exact h.midway
    · rw [ho.shutdown]
      refine h.left i (hi.imp (ho.exited i) ?_)
      rw [hsame]
      exact id
    · rw [hsame, ho.queue, ho.shutdown]
      exact h.entry
  · have hqueue : s.queue = r := h.queue_eq hnone
    refine ⟨h.valid, by rw [ho.taken, ho.accepted, h.ledger], ?_, fun i hi => ?_, ?_⟩
    · rw [hlock, ho.queue, ho.shutdown]
      match holder, hentered with
      | .worker _ .testing, _ => exact hqueue
      | .destroyer _ (.testing _), _ => exact hqueue
      | .adder _ _ (.testing _), _ => exact hqueue
    · rw [ho.shutdown]
      obtain hexited | hleaving | hleaving := hi
      · exact h.left i (.inl (ho.exited i hexited))
      · obtain rfl := Option.some.inj (hlock.symm.trans hleaving)
        exact hentered.elim
      · obtain rfl := Option.some.inj (hlock.symm.trans hleaving)
        exact hentered.elim
    · intro k entry point hadder hpoint
      obtain rfl := Option.some.inj (hlock.symm.trans hadder)
      rw [ho.queue, ho.shutdown]
      match point, hentered with
      | .testing _, hentry => exact hentry

/-- A step inside the mutex that leaves the queue and the flag as they are. -/
theorem Sound.lock {s t : ThreadPool α} {r : RingBuffer α} (h : s.Sound r) {holder : Holder α}
    (hqueue : t.queue = s.queue) (hshutdown : t.shutdown = s.shutdown)
    (haccepted : t.accepted = s.accepted) (htaken : t.taken = s.taken)
    (hworkers : t.workers = s.workers)
    (hmidway : Midway s.shutdown r s.queue (some holder))
    (hleft : ∀ i, holder = .worker i .leaving ∨ holder = .worker i .unlockingExit →
      s.shutdown = .immediate ∨ s.shutdown = .graceful ∧ r.count = 0)
    (hentry : ∀ k entry point, holder = .adder k entry point → Idles point →
      entry = (s.queue, s.shutdown)) :
    (t.lock holder).Sound r := by
  refine ⟨h.valid, ?_, ?_, fun i hi => ?_, ?_⟩
  · change t.taken ++ r.contents = t.accepted
    rw [htaken, haccepted, h.ledger]
  · change Midway t.shutdown r t.queue (some holder)
    rwa [hqueue, hshutdown]
  · change t.shutdown = _ ∨ t.shutdown = _ ∧ _
    rw [hshutdown]
    obtain hexited | hleaving := hi
    · exact h.left i (.inl (hworkers ▸ hexited))
    · exact hleft i (hleaving.imp Option.some.inj Option.some.inj)
  · intro k entry point hadder hpoint
    change entry = (t.queue, t.shutdown)
    rw [hqueue, hshutdown]
    exact hentry k entry point (Option.some.inj hadder) hpoint

/-- The mutex is unlocked with the queue as it was found. -/
theorem Sound.unlock {s t : ThreadPool α} {r : RingBuffer α} (h : s.Sound r)
    (hr : s.queue = r) (hqueue : t.queue = s.queue) (hshutdown : t.shutdown = s.shutdown)
    (haccepted : t.accepted = s.accepted) (htaken : t.taken = s.taken)
    (hexited : ∀ i, t.workers i = .exited → s.hasLeft i) : t.unlock.Sound r := by
  refine ⟨h.valid, ?_, ?_, fun i hi => ?_, ?_⟩
  · change t.taken ++ r.contents = t.accepted
    rw [htaken, haccepted, h.ledger]
  · exact hqueue.trans hr
  · change t.shutdown = _ ∨ t.shutdown = _ ∧ _
    rw [hshutdown]
    exact h.left i (hexited i (hi.exited (by rintro ⟨⟩) (by rintro ⟨⟩)))
  · intro k entry point hadder
    cases hadder

theorem Sound.workerInside {s : ThreadPool α} {r : RingBuffer α} (h : s.Sound r) {i : ℕ}
    {point : WorkerPoint α} (hlock : s.mutexLock = some (.worker i point)) :
    ∃ r', (s.workerInside i point).Sound r' := by
  have hmidway := h.midway
  rw [hlock] at hmidway
  have hexited : ∀ {pc : WorkerPc α}, pc ≠ .exited →
      ∀ j, (s.setWorker i pc).workers j = .exited → s.hasLeft j :=
    fun hpc j hj => .inl (exited_setWorker hpc j hj)
  cases point with
  | testing =>
      have hr : s.queue = r := hmidway
      simp only [ThreadPool.workerInside]
      split
      · exact ⟨r, h.unlock hr rfl rfl rfl rfl (hexited (by simp))⟩
      · rename_i hnot
        split
        · rename_i hleaves
          refine ⟨r, h.lock rfl rfl rfl rfl rfl hr (fun _ _ => ?_) (by simp)⟩
          rwa [hr] at hleaves
        · rename_i hstays
          refine ⟨r, h.lock rfl rfl rfl rfl rfl ⟨hr, ?_⟩ (by simp) (by simp)⟩
          by_contra hcount
          have hzero : s.queue.count = 0 := by
            rw [hr]
            omega
          cases hshutdown : s.shutdown with
          | running => exact hnot ⟨hzero, hshutdown⟩
          | immediate => exact hstays (.inl hshutdown)
          | graceful => exact hstays (.inr ⟨hshutdown, hzero⟩)
  | taking =>
      obtain ⟨hr, hcount⟩ := hmidway
      exact ⟨r, h.lock rfl rfl rfl rfl rfl ⟨hr, hcount, by rw [hr]⟩ (by simp) (by simp)⟩
  | moving task =>
      obtain ⟨hr, hcount, htask⟩ := hmidway
      refine ⟨r, h.valid, h.ledger, ⟨congrArg RingBuffer.moveHead hr, hcount, htask⟩,
        fun j hj => ?_, fun k entry point hadder => by cases hadder⟩
      exact h.left j (.inl (hj.exited (by rintro ⟨⟩) (by rintro ⟨⟩)))
  | uncounting task =>
      obtain ⟨hr, hcount, rfl⟩ := hmidway
      refine ⟨r.pop, h.valid.pop hcount, ?_, congrArg RingBuffer.shrink hr, fun j hj => ?_,
        fun k entry point hadder => by cases hadder⟩
      · change s.taken ++ [r.front] ++ r.pop.contents = s.accepted
        rw [List.append_assoc, List.singleton_append, ← RingBuffer.contents_pop h.valid hcount,
          h.ledger]
      · have hexited := hj.exited (by rintro ⟨⟩) (by rintro ⟨⟩)
        refine (h.left j (.inl hexited)).imp id fun hgraceful => ⟨hgraceful.1, ?_⟩
        change r.count - 1 = 0
        rw [hgraceful.2]
  | unlocking task => exact ⟨r, h.unlock hmidway rfl rfl rfl rfl (hexited (by simp))⟩
  | leaving =>
      refine ⟨r, h.lock rfl rfl rfl rfl rfl hmidway (fun _ _ => ?_) (by simp)⟩
      exact h.left i (.inr (.inl hlock))
  | unlockingExit =>
      refine ⟨r, h.unlock hmidway rfl rfl rfl rfl fun j hj => ?_⟩
      by_cases hji : j = i
      · exact hji ▸ .inr (.inr hlock)
      · exact .inl (by simpa [setWorker, Function.update_of_ne hji] using hj)

/-- No worker leaves a pool that is running. -/
theorem Sound.exited_of_running {s : ThreadPool α} {r : RingBuffer α} (h : s.Sound r)
    (hrunning : s.shutdown = .running) (i : ℕ) : ¬ s.hasLeft i := by
  intro hleft
  obtain himmediate | ⟨hgraceful, -⟩ := h.left i hleft
  · simp [hrunning] at himmediate
  · simp [hrunning] at hgraceful

theorem Sound.adderInside {s : ThreadPool α} {r : RingBuffer α} (h : s.Sound r) {k : ℕ}
    {entry : RingBuffer α × Shutdown} {point : AdderPoint α}
    (hlock : s.mutexLock = some (.adder k entry point)) :
    ∃ r', (s.adderInside k entry point).Sound r' := by
  have hmidway := h.midway
  have hentry := h.entry k entry point hlock
  rw [hlock] at hmidway
  -- the three assignments are made in a pool that is running, which no worker leaves
  have hleft : ∀ {t : ThreadPool α} {r' : RingBuffer α} {point' : AdderPoint α},
      s.shutdown = .running → t.workers = s.workers →
      t.mutexLock = some (.adder k entry point') → ∀ j, t.hasLeft j →
      t.shutdown = .immediate ∨ t.shutdown = .graceful ∧ r'.count = 0 := by
    intro t r' point' hrunning hworkers hadder j hj
    have hexited := hj.exited (by simp [hadder]) (by simp [hadder])
    exact absurd (.inl (hworkers ▸ hexited)) (h.exited_of_running hrunning j)
  cases point with
  | testing task =>
      have hr : s.queue = r := hmidway
      simp only [ThreadPool.adderInside]
      split
      · refine ⟨r, h.lock rfl rfl rfl rfl rfl hr (by simp) ?_⟩
        rintro k' entry' point' ⟨⟩ -
        exact hentry trivial
      · rename_i hroom
        split
        · refine ⟨r, h.lock rfl rfl rfl rfl rfl hr (by simp) ?_⟩
          rintro k' entry' point' ⟨⟩ -
          exact hentry trivial
        · rename_i hrunning
          rw [hr] at hroom
          have hcount := h.valid.count_le
          refine ⟨r, h.lock rfl rfl rfl rfl rfl ⟨hr, by omega, by rw [hr], not_not.1 hrunning⟩
            (by simp) ?_⟩
          rintro k' entry' point' ⟨⟩ hidles
          exact hidles.elim
  | storing task next =>
      obtain ⟨hr, hroom, hnext, hrunning⟩ := hmidway
      refine ⟨r, h.valid, h.ledger, ⟨congrArg (RingBuffer.store · task) hr, hroom, hnext, hrunning⟩,
        hleft hrunning rfl rfl, ?_⟩
      rintro k' entry' point' ⟨⟩ hidles
      exact hidles.elim
  | advancing task next =>
      obtain ⟨hr, hroom, rfl, hrunning⟩ := hmidway
      refine ⟨r, h.valid, h.ledger, ⟨congrArg (RingBuffer.moveTail · r.next) hr, hroom, hrunning⟩,
        hleft hrunning rfl rfl, ?_⟩
      rintro k' entry' point' ⟨⟩ hidles
      exact hidles.elim
  | counting task =>
      obtain ⟨hr, hroom, hrunning⟩ := hmidway
      refine ⟨r.push task, h.valid.push hroom task, ?_, congrArg RingBuffer.grow hr,
        hleft hrunning rfl rfl, ?_⟩
      · change s.taken ++ (r.push task).contents = s.accepted ++ [task]
        rw [RingBuffer.contents_push h.valid hroom, ← List.append_assoc, h.ledger]
      · rintro k' entry' point' ⟨⟩ hidles
        exact absurd rfl hidles
  | unlocking result =>
      exact ⟨r, h.unlock hmidway rfl rfl rfl rfl fun j hj => .inl hj⟩

theorem Sound.destroyerInside {s t : ThreadPool α} {r : RingBuffer α} (h : s.Sound r) {k : ℕ}
    {point : DestroyerPoint} (hlock : s.mutexLock = some (.destroyer k point))
    (hstep : s.destroyerInside k point = some t) : t.Sound r := by
  have hr : s.queue = r := by
    have hmidway := h.midway
    rw [hlock] at hmidway
    cases point <;> exact hmidway
  cases point with
  | testing graceful =>
      simp only [ThreadPool.destroyerInside] at hstep
      split at hstep
      · obtain rfl := Option.some.inj hstep
        exact h.lock rfl rfl rfl rfl rfl hr (by simp) (by simp)
      · rename_i hrunning
        obtain rfl := Option.some.inj hstep
        refine ⟨h.valid, h.ledger, hr, fun j hj => ?_, fun k entry point hadder => by cases hadder⟩
        have hexited := hj.exited (by rintro ⟨⟩) (by rintro ⟨⟩)
        exact absurd (.inl hexited) (h.exited_of_running (not_not.1 hrunning) j)
  | unlocking =>
      obtain rfl := Option.some.inj hstep
      exact h.unlock hr rfl rfl rfl rfl fun j hj => .inl hj
  | returned => cases hstep

theorem Sound.step {s t : ThreadPool α} {a : Step α} (h : ∃ r, s.Sound r)
    (hstep : (machine α).step s a = some t) : ∃ r, t.Sound r := by
  obtain ⟨r, h⟩ := h
  obtain houtside | ⟨holder, hlock, hinside⟩ := outside_step hstep
  · exact ⟨r, h.outside houtside⟩
  cases holder with
  | worker i point =>
      obtain rfl := Option.some.inj hinside
      exact h.workerInside hlock
  | adder k entry point =>
      obtain rfl := Option.some.inj hinside
      exact h.adderInside hlock
  | destroyer k point => exact ⟨r, h.destroyerInside hlock hinside⟩

theorem sound_exec {s₀ s : ThreadPool α} (hs₀ : (machine α).initial s₀) {as : List (Step α)}
    (hexec : (machine α).exec s₀ as = some s) : ∃ r, s.Sound r :=
  (machine α).exec_invariant_of_step (fun _ _ _ h hstep => Sound.step h hstep)
    (sound_initial hs₀) hexec

/-- The number of threads and the size of the queue do not change. -/
theorem sizes_step {s t : ThreadPool α} {a : Step α} (h : (machine α).step s a = some t) :
    t.requested = s.requested ∧ t.queue.size = s.queue.size := by
  obtain houtside | ⟨holder, -, hinside⟩ := outside_step h
  · exact ⟨houtside.requested, congrArg RingBuffer.size houtside.queue⟩
  cases holder with
  | worker i point =>
      obtain rfl := Option.some.inj hinside
      cases point with
      | testing =>
          simp only [workerInside]
          split
          · exact ⟨rfl, rfl⟩
          · split <;> exact ⟨rfl, rfl⟩
      | _ => exact ⟨rfl, rfl⟩
  | adder k entry point =>
      obtain rfl := Option.some.inj hinside
      cases point with
      | testing task =>
          simp only [adderInside]
          split
          · exact ⟨rfl, rfl⟩
          · split <;> exact ⟨rfl, rfl⟩
      | _ => exact ⟨rfl, rfl⟩
  | destroyer k point =>
      cases point with
      | testing graceful =>
          simp only [destroyerInside] at hinside
          split at hinside
          · obtain rfl := Option.some.inj hinside
            exact ⟨rfl, rfl⟩
          · obtain rfl := Option.some.inj hinside
            exact ⟨rfl, rfl⟩
      | unlocking =>
          obtain rfl := Option.some.inj hinside
          exact ⟨rfl, rfl⟩
      | returned => cases hinside

theorem sizes_exec {s₀ s : ThreadPool α} {as : List (Step α)}
    (hexec : (machine α).exec s₀ as = some s) :
    s.requested = s₀.requested ∧ s.queue.size = s₀.queue.size :=
  (machine α).exec_invariant_of_step
    (I := fun s => s.requested = s₀.requested ∧ s.queue.size = s₀.queue.size)
    (fun _ _ _ h hstep =>
      ⟨(sizes_step hstep).1.trans h.1, (sizes_step hstep).2.trans h.2⟩) ⟨rfl, rfl⟩ hexec

/-- In every reachable state with the mutex free the queue is a valid ring of the
size that the pool was created with, and the tasks taken and its contents are the
tasks accepted. A call of `threadpool_add` that fails leaves the queue and the
flag as it has found them. Once every worker has left its loop after a graceful
shutdown, the tasks taken are the tasks accepted. -/
theorem queue_sound {s₀ s : ThreadPool α} (hs₀ : (machine α).initial s₀) {as : List (Step α)}
    (hexec : (machine α).exec s₀ as = some s) :
    (s.mutexLock = none → s.queue.size = s₀.queue.size ∧ s.queue.count ≤ s.queue.size ∧
      s.queue.head < s.queue.size ∧ s.queue.tail < s.queue.size ∧
      s.queue.tail = (s.queue.head + s.queue.count) % s.queue.size ∧
      s.taken ++ s.queue.contents = s.accepted) ∧
    (∀ k entry result, s.mutexLock = some (.adder k entry (.unlocking result)) →
      result ≠ .ok → entry = (s.queue, s.shutdown)) ∧
    (s.shutdown = .graceful → (∀ i < s₀.requested, s.hasLeft i) → s.taken = s.accepted) := by
  obtain ⟨r, hsound⟩ := sound_exec hs₀ hexec
  refine ⟨fun hfree => ?_, fun k entry result hlock hresult => hsound.entry k entry _ hlock hresult,
    fun hgraceful hleft => ?_⟩
  · obtain rfl : s.queue = r := hsound.queue_eq hfree
    exact ⟨(sizes_exec hexec).2, hsound.valid.count_le, hsound.valid.head_lt, hsound.valid.tail_lt,
      hsound.valid.tail_eq, hsound.ledger⟩
  · -- there is a worker, and it has left an empty queue
    obtain ⟨default, threadCount, queueSize, hthreads, -, rfl⟩ := hs₀
    obtain himmediate | ⟨-, hcount⟩ := hsound.left 0 (hleft 0 hthreads)
    · simp [hgraceful] at himmediate
    · have hledger := hsound.ledger
      rwa [RingBuffer.contents_eq_nil hcount, List.append_nil] at hledger

/-- A whole call of `threadpool_add` with room in the queue. -/
def addTask (k task : ℕ) : List (Step ℕ) :=
  [.add k task, .adder k, .inside, .inside, .inside, .inside, .inside]

/-- The first worker takes a task and runs it. -/
def takeTask : List (Step ℕ) :=
  [.worker 0, .inside, .inside, .inside, .inside, .inside, .worker 0]

/-- A pool of one thread and two slots, up to the end of an `add` that finds it full. -/
def fullRun : List (Step ℕ) :=
  [.create true, .create true, .create true, .create true, .worker 0] ++ addTask 0 7 ++
    addTask 0 8 ++ ([.add 0 9, .adder 0, .inside] : List (Step ℕ))

/-- The worker takes a task, and the next one goes into the first slot again. -/
def wrapRun : List (Step ℕ) := .inside :: takeTask ++ addTask 1 9

/-- A graceful destruction of that pool, in the middle of which an `add` is refused. -/
def destroyRun : List (Step ℕ) :=
  ([.destroy 0 true, .destroyer 0, .inside, .inside] : List (Step ℕ)) ++ takeTask ++
    ([.add 1 10, .adder 1, .inside, .inside] : List (Step ℕ)) ++ takeTask ++
    ([.worker 0, .inside, .inside, .inside, .destroyer 0, .destroyer 0, .destroyer 0] :
      List (Step ℕ))

/-- The call of `threadpool_add` in front of its unlock, with its result. -/
def adding (s : ThreadPool α) : Option (ℕ × PoolResult) :=
  match s.mutexLock with
  | some (.adder k _ (.unlocking result)) => some (k, result)
  | _ => none

theorem exists_entry_of_adding {s : ThreadPool α} {k : ℕ} {result : PoolResult}
    (h : s.adding = some (k, result)) :
    ∃ entry, s.mutexLock = some (.adder k entry (.unlocking result)) := by
  unfold adding at h
  split at h
  · rename_i j entry result' hlock
    obtain ⟨rfl, rfl⟩ := Prod.mk.inj (Option.some.inj h)
    exact ⟨entry, hlock⟩
  · cases h

theorem queue_sound_destroyRun :
    ∃ full wrapped ended : ThreadPool ℕ,
      (machine ℕ).exec (new 0 1 2) fullRun = some full ∧
      (∃ entry, full.mutexLock = some (.adder 0 entry (.unlocking .THREADPOOL_QUEUE_FULL)) ∧
        entry = (full.queue, full.shutdown)) ∧
      (machine ℕ).exec (new 0 1 2) (fullRun ++ wrapRun) = some wrapped ∧
      wrapped.queue.head = 1 ∧ wrapped.queue.count = 2 ∧
      wrapped.taken ++ wrapped.queue.contents = wrapped.accepted ∧
      (machine ℕ).exec (new 0 1 2) (fullRun ++ wrapRun ++ destroyRun) = some ended ∧
      ended.destroyers 0 = .returned .ok ∧ ended.adders 1 = .returned .THREADPOOL_SHUTDOWN ∧
      ended.taken = ended.accepted ∧ ended.accepted = [7, 8, 9] := by
  have hinitial : (machine ℕ).initial (new 0 1 2) := ⟨0, 1, 2, by omega, by omega, rfl⟩
  have hfull : ((machine ℕ).exec (new 0 1 2) fullRun).map adding =
      some (some (0, .THREADPOOL_QUEUE_FULL)) := by decide +kernel
  have hwrapped : ((machine ℕ).exec (new 0 1 2) (fullRun ++ wrapRun)).map
      (fun s => (s.mutexLock.isNone, s.queue.head, s.queue.count)) = some (true, 1, 2) := by
    decide +kernel
  have hended : ((machine ℕ).exec (new 0 1 2) (fullRun ++ wrapRun ++ destroyRun)).map
      (fun s => (s.shutdown, s.workers 0, s.destroyers 0, s.adders 1, s.accepted)) =
        some (.graceful, .exited, .returned .ok, .returned .THREADPOOL_SHUTDOWN, [7, 8, 9]) := by
    decide +kernel
  obtain ⟨full, hfullExec, hadding⟩ := Option.map_eq_some_iff.1 hfull
  obtain ⟨wrapped, hwrappedExec, hring⟩ := Option.map_eq_some_iff.1 hwrapped
  obtain ⟨ended, hendedExec, hend⟩ := Option.map_eq_some_iff.1 hended
  obtain ⟨entry, hlock⟩ := exists_entry_of_adding hadding
  simp only [Prod.mk.injEq, Option.isNone_iff_eq_none] at hring hend
  obtain ⟨hfree, hhead, hcount⟩ := hring
  obtain ⟨hgraceful, hexited, hdestroyer, hadder, haccepted⟩ := hend
  refine ⟨full, wrapped, ended, hfullExec, ⟨entry, hlock, ?_⟩, hwrappedExec, hhead, hcount, ?_,
    hendedExec, hdestroyer, hadder, ?_, haccepted⟩
  · exact (queue_sound hinitial hfullExec).2.1 0 entry _ hlock (by simp)
  · exact ((queue_sound hinitial hwrappedExec).1 hfree).2.2.2.2.2
  · refine (queue_sound hinitial hendedExec).2.2 hgraceful fun i hi => ?_
    obtain rfl : i = 0 := by
      change i < 1 at hi
      omega
    exact .inl hexited

end ThreadPool

end Http

end SoL
