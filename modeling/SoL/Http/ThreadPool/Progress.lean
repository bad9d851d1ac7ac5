import SoL.Http.ThreadPool.Signals

/-!
# The pool gets its work done

When the callers hold still, the workers come to rest, in whatever order they move and
without a spurious wake-up: every one of their steps lowers the `rank` of the pool. A pool
at rest has taken all of its tasks, unless it was shut down at once; its workers sleep as
long as it runs, and have exited once it shuts down (`rest_of_exec`). So a call of
`threadpool_destroy` that waits for the workers returns (`destroy_returns`).
-/

namespace SoL

namespace Http

open Container Transition

namespace ThreadPool

variable {α : Type}

/-- The steps of a worker to its next turn at the mutex, at most. -/
def pcWeight (sleeping : Bool) : WorkerPc α → ℕ
  | .absent | .inside | .exited => 0
  | .waiting => if sleeping then 0 else 4
  | .locking => 4
  | .begin | .working _ => 5

/-- The steps of the worker inside to the point where it rests or takes out a task, at
most, and from there to its next turn. -/
def pointWeight : WorkerPoint α → ℕ
  | .testing => 3
  | .taking | .leaving => 2
  | .moving _ | .unlockingExit => 1
  | .uncounting _ => 0
  | .unlocking _ => 6

def lockWeight : Option (Holder α) → ℕ
  | some (.worker _ point) => pointWeight point
  | _ => 0

/-- The callers are not inside the mutex. -/
def CallersOut (s : ThreadPool α) : Prop :=
  ∀ holder, s.mutexLock = some holder → ∃ i point, holder = .worker i point

theorem callersOut_lock (s : ThreadPool α) (i : ℕ) (point : WorkerPoint α) :
    (s.lock (.worker i point)).CallersOut := by
  rintro holder ⟨⟩
  exact ⟨i, point, rfl⟩

theorem callersOut_of_free {s : ThreadPool α} (h : s.mutexLock = none) : s.CallersOut := by
  simp [CallersOut, h]

namespace Signalled

def weight (s : Signalled α) (i : ℕ) : ℕ := pcWeight (s.sleeping i) (s.pool.workers i)

def rank (s : Signalled α) : ℕ :=
  7 * s.pool.queue.count + lockWeight s.pool.mutexLock +
    ∑ i ∈ Finset.range s.pool.requested, s.weight i

/-- A step of a worker, outside the mutex or inside. -/
def byWorker : Signal α → Prop
  | .step (.worker _) _ | .step .inside _ => True
  | _ => False

/-- What the workers do by themselves. -/
structure Works (s t : Signalled α) : Prop where
  callersOut : t.pool.CallersOut
  threadCount : t.pool.threadCount = s.pool.threadCount
  shutdown : t.pool.shutdown = s.pool.shutdown
  accepted : t.pool.accepted = s.pool.accepted
  destroyers : t.pool.destroyers = s.pool.destroyers
  rank : t.rank < s.rank

variable {s t : Signalled α} {a : Step α} {b : Signal α} {chosen i : ℕ}

/-- Only one worker has changed. -/
theorem rank_lt (hi : i < s.pool.requested) (hrequested : t.pool.requested = s.pool.requested)
    (hsame : ∀ j, j ≠ i → t.weight j = s.weight j)
    (hlt : 7 * t.pool.queue.count + lockWeight t.pool.mutexLock + t.weight i <
      7 * s.pool.queue.count + lockWeight s.pool.mutexLock + s.weight i) : t.rank < s.rank := by
  have hmem : i ∈ Finset.range s.pool.requested := Finset.mem_range.2 hi
  have hrest : ∑ j ∈ (Finset.range s.pool.requested).erase i, t.weight j =
      ∑ j ∈ (Finset.range s.pool.requested).erase i, s.weight j :=
    Finset.sum_congr rfl fun j hj => hsame j (Finset.ne_of_mem_erase hj)
  have hs := Finset.add_sum_erase (Finset.range s.pool.requested) s.weight hmem
  have ht := Finset.add_sum_erase (Finset.range s.pool.requested) t.weight hmem
  rw [rank, rank, hrequested]
  omega

theorem Watched.lt_requested (hs : s.Watched) (hi : s.pool.workers i ≠ .absent) :
    i < s.pool.requested :=
  hs.balanced.lt_requested (phase_eq_absent_iff.not.2 hi)

/-- A step that changes one worker and leaves the callers' part of the pool alone. -/
theorem Works.of_worker (hs : s.Watched) (hi : s.pool.workers i ≠ .absent)
    (hsame : t.pool.requested = s.pool.requested ∧ t.pool.threadCount = s.pool.threadCount ∧
      t.pool.shutdown = s.pool.shutdown ∧ t.pool.accepted = s.pool.accepted ∧
      t.pool.destroyers = s.pool.destroyers)
    (hworkers : ∀ j, j ≠ i → t.pool.workers j = s.pool.workers j)
    (hnotified : ∀ j, j ≠ i → t.notified j = s.notified j)
    (hout : t.pool.CallersOut)
    (hlt : 7 * t.pool.queue.count + lockWeight t.pool.mutexLock + t.weight i <
      7 * s.pool.queue.count + lockWeight s.pool.mutexLock + s.weight i) : s.Works t := by
  obtain ⟨hrequested, hthreadCount, hshutdown, haccepted, hdestroyers⟩ := hsame
  refine ⟨hout, hthreadCount, hshutdown, haccepted, hdestroyers,
    rank_lt (hs.lt_requested hi) hrequested (fun j hj => ?_) hlt⟩
  simp only [weight, sleeping, hworkers j hj, hnotified j hj]

theorem works_worker (hs : s.Watched) (hout : s.pool.CallersOut)
    (h : s.step (.step (.worker i) chosen) = some t) : s.Works t := by
  obtain ⟨hrun, hstep, hnotify⟩ := step_eq_some_iff.1 h
  obtain ⟨pool, notified⟩ := t
  obtain rfl : s.notified = notified := Option.some.inj hnotify
  have hawake : s.sleeping i = false := by simpa [mayRun] using hrun
  have hothers : ∀ {pc : WorkerPc α} (j : ℕ), j ≠ i →
      Function.update s.pool.workers i pc j = s.pool.workers j :=
    fun j hj => Function.update_of_ne hj _ _
  have hlocks : s.pool.workers i = .locking ∨ s.pool.workers i = .waiting →
      (if s.pool.mutexLock.isNone then
        some ((s.pool.setWorker i .inside).lock (.worker i .testing)) else none) = some pool →
      s.Works ⟨pool, s.notified⟩ := by
    intro hpc hstep
    obtain ⟨hfree, hstep⟩ := Option.ite_none_right_eq_some.1 hstep
    cases hstep
    have hweight : s.weight i = 4 := by
      obtain hpc | hpc := hpc <;> simp [weight, hpc, hawake, pcWeight]
    refine .of_worker hs (by obtain hpc | hpc := hpc <;> simp [hpc]) ⟨rfl, rfl, rfl, rfl, rfl⟩
      hothers (fun _ _ => rfl) (callersOut_lock _ i _) ?_
    rw [hweight, Option.isNone_iff_eq_none.1 hfree]
    simp [weight, setWorker, ThreadPool.lock, lockWeight, pointWeight, pcWeight]
  simp only [ThreadPool.step, workerStep] at hstep
  split at hstep
  · next hpc =>
      cases hstep
      refine .of_worker hs (by simp [hpc]) ⟨rfl, rfl, rfl, rfl, rfl⟩ hothers (fun _ _ => rfl)
        hout ?_
      simp [weight, hpc, setWorker, pcWeight]
  · next hpc => exact hlocks (.inl hpc) hstep
  · next hpc => exact hlocks (.inr hpc) hstep
  · next hpc =>
      cases hstep
      refine .of_worker hs (by simp [hpc]) ⟨rfl, rfl, rfl, rfl, rfl⟩ hothers (fun _ _ => rfl)
        hout ?_
      simp [weight, hpc, setWorker, pcWeight]
  all_goals cases hstep

theorem works_inside (hs : s.Watched) (hout : s.pool.CallersOut)
    (h : s.step (.step .inside chosen) = some t) : s.Works t := by
  obtain ⟨-, hstep, hnotify⟩ := step_eq_some_iff.1 h
  obtain ⟨pool, notified⟩ := t
  cases hlock : s.pool.mutexLock with
  | none => simp [ThreadPool.step, hlock] at hstep
  | some holder =>
      obtain ⟨i, point, rfl⟩ := hout holder hlock
      have hinside : s.pool.workers i = .inside := by simpa only [Held, hlock] using hs.held
      have habsent : s.pool.workers i ≠ .absent := by simp [hinside]
      have hweight : s.weight i = 0 := by simp [weight, hinside, pcWeight]
      have hothers : ∀ {pc : WorkerPc α} (j : ℕ), j ≠ i →
          Function.update s.pool.workers i pc j = s.pool.workers j :=
        fun j hj => Function.update_of_ne hj _ _
      simp only [ThreadPool.step, hlock, Option.some.injEq] at hstep
      subst hstep
      simp only [notifies, hlock] at hnotify
      cases point with
      | testing =>
          obtain rfl : Function.update s.notified i false = notified := Option.some.inj hnotify
          simp only [workerInside]
          split
          · refine .of_worker hs habsent ⟨rfl, rfl, rfl, rfl, rfl⟩ hothers
              (fun j hj => Function.update_of_ne hj _ _) (callersOut_of_free rfl) ?_
            rw [hweight, hlock]
            simp [weight, sleeping, isWaiting, setWorker, unlock, lockWeight, pointWeight, pcWeight]
          · split
            all_goals
              refine .of_worker hs habsent ⟨rfl, rfl, rfl, rfl, rfl⟩ (fun _ _ => rfl)
                (fun j hj => Function.update_of_ne hj _ _) (callersOut_lock _ i _) ?_
              rw [hweight, hlock]
              simp [weight, ThreadPool.lock, hinside, lockWeight, pointWeight, pcWeight]
      | taking | moving | leaving =>
          obtain rfl : s.notified = notified := Option.some.inj hnotify
          refine .of_worker hs habsent ⟨rfl, rfl, rfl, rfl, rfl⟩ (fun _ _ => rfl) (fun _ _ => rfl)
            (callersOut_lock _ i _) ?_
          rw [hweight, hlock]
          simp [weight, workerInside, ThreadPool.lock, hinside, lockWeight, pointWeight, pcWeight,
            RingBuffer.moveHead]
      | uncounting task =>
          obtain rfl : s.notified = notified := Option.some.inj hnotify
          have hcount : 0 < s.pool.queue.count := by
            obtain ⟨r, hsound⟩ := hs.sound
            have hmidway := hsound.midway
            rw [hlock] at hmidway
            rw [hmidway.1]
            exact hmidway.2.1
          refine .of_worker hs habsent ⟨rfl, rfl, rfl, rfl, rfl⟩ (fun _ _ => rfl) (fun _ _ => rfl)
            (callersOut_lock _ i _) ?_
          rw [hweight, hlock]
          simp only [weight, workerInside, ThreadPool.lock, hinside, lockWeight, pointWeight,
            pcWeight, RingBuffer.shrink]
          omega
      | unlocking | unlockingExit =>
          obtain rfl : s.notified = notified := Option.some.inj hnotify
          refine .of_worker hs habsent ⟨rfl, rfl, rfl, rfl, rfl⟩ hothers (fun _ _ => rfl)
            (callersOut_of_free rfl) ?_
          rw [hweight, hlock]
          simp [weight, workerInside, unlock, setWorker, lockWeight, pointWeight, pcWeight]

theorem works_step (hs : s.Watched) (hout : s.pool.CallersOut) (hb : byWorker b)
    (h : s.step b = some t) : s.Works t := by
  match b, hb with
  | .step (.worker i) chosen, _ => exact works_worker hs hout h
  | .step .inside chosen, _ => exact works_inside hs hout h

/-- No worker can move. -/
def AtRest (s : Signalled α) : Prop := ∀ b, byWorker b → s.step b = none

theorem exists_step_inside {point : WorkerPoint α}
    (hlock : s.pool.mutexLock = some (.worker i point)) :
    ∃ t, s.step (.step .inside 0) = some t := by
  cases point <;>
    exact ⟨_, by simp only [step, mayRun, ThreadPool.step, notifies, hlock, notify]; rfl⟩

theorem AtRest.free (hrest : s.AtRest) (hout : s.pool.CallersOut) : s.pool.mutexLock = none := by
  cases hlock : s.pool.mutexLock with
  | none => rfl
  | some holder =>
      obtain ⟨i, point, rfl⟩ := hout holder hlock
      obtain ⟨t, hstep⟩ := exists_step_inside hlock
      have hnone : s.step (.step .inside 0) = none := hrest _ trivial
      rw [hnone] at hstep
      cases hstep

theorem AtRest.awake_eq_false (hrest : s.AtRest) (hs : s.Watched)
    (hfree : s.pool.mutexLock = none) (i : ℕ) : s.awake i = false := by
  by_contra hi
  obtain ⟨halive, hnot⟩ : isAlive (s.pool.workers i) = true ∧ s.sleeping i = false := by
    simpa [awake] using hi
  have hnone : s.step (.step (.worker i) 0) = none := hrest _ trivial
  simp only [step, mayRun, hnot, ThreadPool.step, workerStep, hfree, notifies] at hnone
  cases hpc : s.pool.workers i with
  | absent | exited => simp [hpc, isAlive] at halive
  | inside =>
      obtain ⟨point, hlock⟩ := hs.inner i hpc
      rw [hfree] at hlock
      cases hlock
  | _ => simp [hpc] at hnone

theorem Watched.threadCount_le (hs : s.Watched) : s.pool.threadCount ≤ s.pool.requested := by
  have hloop := hs.balanced.loop
  change s.pool.accounts.threadCount ≤ s.pool.accounts.requested
  cases hpc : s.pool.accounts.creator <;> simp only [Accounts.Loop, hpc] at hloop <;> omega

theorem Watched.ne_absent (hs : s.Watched) (hi : i < s.pool.threadCount) :
    s.pool.workers i ≠ .absent := by
  rw [ne_eq, ← phase_eq_absent_iff]
  refine (hs.balanced.absent i).not.2 ?_
  have hloop := hs.balanced.loop
  change i < s.pool.accounts.threadCount at hi
  cases hpc : s.pool.accounts.creator <;>
    simp only [Accounts.Loop, Accounts.created, hpc] at hloop ⊢ <;> omega

/-- A pool at rest, with every worker that has been created. -/
structure Rests (s : Signalled α) : Prop where
  free : s.pool.mutexLock = none
  taken : s.pool.shutdown ≠ .immediate → s.pool.taken = s.pool.accepted
  sleeping : s.pool.shutdown = .running →
    ∀ i, s.pool.workers i ≠ .absent → s.sleeping i = true
  exited : s.pool.shutdown ≠ .running →
    ∀ i, s.pool.workers i ≠ .absent → s.pool.workers i = .exited

theorem AtRest.rests (hrest : s.AtRest) (hs : s.Watched) (hout : s.pool.CallersOut) :
    s.Rests := by
  have hfree := hrest.free hout
  have hawake := hrest.awake_eq_false hs hfree
  obtain ⟨r, hsound⟩ := hs.sound
  refine ⟨hfree, fun hshutdown => ?_, fun hrunning i habsent => ?_, fun hshutdown i habsent => ?_⟩
  · by_contra hleft
    obtain ⟨i, hi⟩ | ⟨k, entry, hlock⟩ := hs.work (Ne.symm hleft) hshutdown
    · rw [hawake i] at hi
      cases hi
    · rw [hfree] at hlock
      cases hlock
  · have hnot := hawake i
    have hexited : s.pool.workers i ≠ .exited := fun hexited =>
      hsound.exited_of_running hrunning i (.inl hexited)
    cases hpc : s.pool.workers i <;> simp_all [awake, isAlive]
  · obtain hnobody | ⟨k, hlock⟩ := hs.woken hshutdown
    · have hnot := hawake i
      cases hpc : s.pool.workers i <;> simp_all [awake, isAlive]
    · rw [hfree] at hlock
      cases hlock

/-- A state that the workers get to from `s`. -/
structure Follows (s t : Signalled α) : Prop where
  watched : t.Watched
  callersOut : t.pool.CallersOut
  threadCount : t.pool.threadCount = s.pool.threadCount
  shutdown : t.pool.shutdown = s.pool.shutdown
  accepted : t.pool.accepted = s.pool.accepted

theorem Follows.refl (hs : s.Watched) (hfree : s.pool.mutexLock = none) : s.Follows s :=
  ⟨hs, callersOut_of_free hfree, rfl, rfl, rfl⟩

theorem Follows.step {u : Signalled α} (h : s.Follows t) (hb : byWorker b)
    (hstep : t.step b = some u) : s.Follows u := by
  have hworks := works_step h.watched h.callersOut hb hstep
  exact ⟨watched_step h.watched hstep, hworks.callersOut, hworks.threadCount.trans h.threadCount,
    hworks.shutdown.trans h.shutdown, hworks.accepted.trans h.accepted⟩

theorem weight_le (s : Signalled α) (i : ℕ) : s.weight i ≤ 5 := by
  unfold weight pcWeight
  repeat' split
  all_goals omega

theorem rank_le (hfree : s.pool.mutexLock = none) :
    s.rank ≤ 7 * s.pool.queue.count + 5 * s.pool.requested := by
  have hsum := Finset.sum_le_card_nsmul (Finset.range s.pool.requested) (fun i => s.weight i) 5
    fun i _ => s.weight_le i
  rw [Finset.card_range, smul_eq_mul] at hsum
  have hlock : lockWeight s.pool.mutexLock = 0 := by rw [hfree]; rfl
  rw [rank, hlock]
  omega

/-- From every reachable state with the mutex free, the workers come to rest, whatever the
order of their steps: there are at most seven steps for a task in the queue and five for a
worker. Then every task that had been accepted has been taken, unless the pool was shut
down at once; every worker that has been created sleeps in a pool that runs, and has
exited in one that shuts down. -/
theorem rest_of_exec {s₀ : Signalled α} (hs₀ : (machine α).initial s₀) {as bs : List (Signal α)}
    (hexec : (machine α).exec s₀ as = some s) (hfree : s.pool.mutexLock = none)
    (hbs : ∀ b ∈ bs, byWorker b) (hwork : (machine α).exec s bs = some t) :
    bs.length ≤ 7 * s.pool.queue.count + 5 * s.pool.requested ∧
      t.pool.accepted = s.pool.accepted ∧ t.pool.shutdown = s.pool.shutdown ∧
      t.pool.threadCount = s.pool.threadCount ∧ (t.AtRest → t.Rests) := by
  have hs := watched_exec hs₀ hexec
  obtain ⟨hfollows, hlength⟩ := (machine α).length_le_of_variant (I := s.Follows) (f := rank)
    (fun u b v hu hb hstep =>
      ⟨hu.step hb hstep, (works_step hu.watched hu.callersOut hb hstep).rank⟩)
    (Follows.refl hs hfree) hbs hwork
  have hrank := s.rank_le hfree
  exact ⟨by omega, hfollows.accepted, hfollows.shutdown, hfollows.threadCount,
    fun hrest => hrest.rests hfollows.watched hfollows.callersOut⟩

/-- The worker of `oneSignal` takes the task and goes back to sleep. -/
def oneRound : List (Signal ℕ) :=
  [.step (.worker 0) 0, .step .inside 0, .step .inside 0, .step .inside 0, .step .inside 0,
    .step .inside 0, .step (.worker 0) 0, .step (.worker 0) 0, .step .inside 0]

theorem rest_oneRound :
    ∃ s t, (machine ℕ).exec ⟨ThreadPool.new 0 1 1, fun _ => false⟩ oneSignal = some s ∧
      (machine ℕ).exec s oneRound = some t ∧ t.AtRest ∧ t.Rests ∧ t.pool.taken = [7] := by
  have hinitial : (machine ℕ).initial ⟨ThreadPool.new 0 1 1, fun _ => false⟩ :=
    ⟨0, 1, 1, le_rfl, le_rfl, rfl⟩
  have hexec : (machine ℕ).exec ⟨ThreadPool.new 0 1 1, fun _ => false⟩ oneSignal = some _ := rfl
  refine ⟨_, _, hexec, rfl, ?_⟩
  have hrest := (rest_of_exec hinitial hexec rfl (by simp [oneRound, byWorker])
    (show (machine ℕ).exec _ oneRound = some _ from rfl)).2.2.2.2
  refine (fun hatRest => ⟨hatRest, hrest hatRest, rfl⟩) ?_
  intro b hb
  match b, hb with
  | .step .inside chosen, _ => rfl
  | .step (.worker 0) chosen, _ => rfl
  | .step (.worker (i + 1)) chosen, _ => rfl

/-- A step of a worker, or of the caller of `threadpool_destroy`. -/
def byWorkerOr (k : ℕ) (b : Signal α) : Prop :=
  byWorker b ∨ ∃ chosen, b = .step (.destroyer k) chosen

/-- The steps of a call of `threadpool_destroy` that waits for the workers. -/
def joinWeight (threadCount : ℕ) : DestroyerPc → ℕ
  | .joining i => threadCount - i + 2
  | .freeing => 1
  | _ => 0

/-- The call has shut down the pool and waits, or has returned. -/
def Joins : DestroyerPc → Prop
  | .joining _ | .freeing | .returned .ok => True
  | _ => False

/-- The workers and the caller move on. -/
theorem follows_destroyer {u : Signalled α} {k : ℕ} (h : s.Follows t)
    (hjoins : Joins (t.pool.destroyers k)) (hstep : t.step (.step (.destroyer k) chosen) = some u) :
    s.Follows u ∧ Joins (u.pool.destroyers k) ∧ u.rank = t.rank ∧
      joinWeight s.pool.threadCount (u.pool.destroyers k) <
        joinWeight s.pool.threadCount (t.pool.destroyers k) := by
  have hwatched := watched_step h.watched hstep
  obtain ⟨-, hpool, hnotify⟩ := step_eq_some_iff.1 hstep
  obtain ⟨pool, notified⟩ := u
  obtain rfl : t.notified = notified := Option.some.inj hnotify
  simp only [ThreadPool.step, destroyerStep] at hpool
  split at hpool
  · next hpc => simp [hpc, Joins] at hjoins
  · next i hpc =>
      split at hpool
      · next hi =>
          split at hpool
          · cases hpool
            refine ⟨⟨hwatched, h.callersOut, h.threadCount, h.shutdown, h.accepted⟩, ?_, rfl, ?_⟩
            · simp [setDestroyer, Joins]
            · rw [h.threadCount] at hi
              simp only [setDestroyer, Function.update_self, hpc, joinWeight]
              omega
          · cases hpool
      · cases hpool
        refine ⟨⟨hwatched, h.callersOut, h.threadCount, h.shutdown, h.accepted⟩, ?_, rfl, ?_⟩
        · simp [setDestroyer, Joins]
        · simp [setDestroyer, hpc, joinWeight]
  · next hpc =>
      split at hpool
      · cases hpool
        refine ⟨⟨hwatched, h.callersOut, h.threadCount, h.shutdown, h.accepted⟩, ?_, rfl, ?_⟩
        · simp [setDestroyer, Joins]
        · simp [setDestroyer, hpc, joinWeight]
      · obtain ⟨-, ⟨⟩⟩ := Option.ite_none_right_eq_some.1 hpool
        refine ⟨⟨hwatched, h.callersOut, h.threadCount, h.shutdown, h.accepted⟩, ?_, rfl, ?_⟩
        · simp [setDestroyer, Joins]
        · simp [setDestroyer, hpc, joinWeight]
  all_goals cases hpool

theorem joins_step {u : Signalled α} {k : ℕ} (h : s.Follows t)
    (hjoins : Joins (t.pool.destroyers k)) (hb : byWorkerOr k b) (hstep : t.step b = some u) :
    (s.Follows u ∧ Joins (u.pool.destroyers k)) ∧
      u.rank + joinWeight s.pool.threadCount (u.pool.destroyers k) <
        t.rank + joinWeight s.pool.threadCount (t.pool.destroyers k) := by
  obtain hb | ⟨chosen, rfl⟩ := hb
  · have hworks := works_step h.watched h.callersOut hb hstep
    rw [hworks.destroyers]
    exact ⟨⟨h.step hb hstep, hjoins⟩, Nat.add_lt_add_right hworks.rank _⟩
  · obtain ⟨hu, hjoins', hrank, hlt⟩ := follows_destroyer h hjoins hstep
    rw [hrank]
    exact ⟨⟨hu, hjoins'⟩, Nat.add_lt_add_left hlt _⟩

/-- A call that waits for workers that have exited goes on. -/
theorem returned_of_rests {k : ℕ} (hs : s.Watched) (hrests : s.Rests)
    (hshutdown : s.pool.shutdown ≠ .running) (hjoins : Joins (s.pool.destroyers k))
    (hrest : s.step (.step (.destroyer k) 0) = none) :
    s.pool.destroyers k = .returned .ok := by
  simp only [step, mayRun, ThreadPool.step, destroyerStep, notifies] at hrest
  cases hpc : s.pool.destroyers k with
  | idle | locking | inside => simp [hpc, Joins] at hjoins
  | joining i =>
      by_cases hi : i < s.pool.threadCount
      · simp [hpc, hi, hrests.exited hshutdown i (hs.ne_absent hi)] at hrest
      · simp [hpc, hi] at hrest
  | freeing =>
      by_cases hpositive : s.pool.started > 0
      · simp [hpc, hpositive] at hrest
      · simp [hpc, hpositive, hrests.free] at hrest
  | returned result =>
      cases result with
      | ok => rfl
      | THREADPOOL_QUEUE_FULL | THREADPOOL_SHUTDOWN => simp [hpc, Joins] at hjoins

/-- A call of `threadpool_destroy` that waits for the workers returns, whatever the order in
which they and the caller move: once nothing of this can move any more, the call has
returned and every worker has exited. After a graceful shutdown every task that had been
accepted has been taken. -/
theorem destroy_returns {s₀ : Signalled α} (hs₀ : (machine α).initial s₀)
    {as bs : List (Signal α)} (hexec : (machine α).exec s₀ as = some s)
    (hfree : s.pool.mutexLock = none) {k j : ℕ} (hk : s.pool.destroyers k = .joining j)
    (hbs : ∀ b ∈ bs, byWorkerOr k b) (hwork : (machine α).exec s bs = some t) :
    bs.length ≤ 7 * s.pool.queue.count + 6 * s.pool.requested + 2 ∧
      ((∀ b, byWorkerOr k b → t.step b = none) →
        t.pool.destroyers k = .returned .ok ∧
        (∀ i < s.pool.threadCount, t.pool.workers i = .exited) ∧
        (s.pool.shutdown = .graceful → t.pool.taken = s.pool.accepted)) := by
  have hs := watched_exec hs₀ hexec
  have hshutdown := hs.ends.joining k j hk
  obtain ⟨⟨hfollows, hjoins⟩, hlength⟩ := (machine α).length_le_of_variant
    (I := fun u => s.Follows u ∧ Joins (u.pool.destroyers k))
    (f := fun u => u.rank + joinWeight s.pool.threadCount (u.pool.destroyers k))
    (fun u b v hu hb hstep => joins_step hu.1 hu.2 hb hstep)
    ⟨Follows.refl hs hfree, by simp [hk, Joins]⟩ hbs hwork
  have hrank := s.rank_le hfree
  have hthreads := hs.threadCount_le
  refine ⟨?_, fun hrest => ?_⟩
  · simp only [hk, joinWeight] at hlength
    omega
  · have hatRest : t.AtRest := fun b hb => hrest b (.inl hb)
    have hrests := hatRest.rests hfollows.watched hfollows.callersOut
    rw [← hfollows.shutdown] at hshutdown
    have hwatched := hfollows.watched
    refine ⟨returned_of_rests hwatched hrests hshutdown hjoins (hrest _ (.inr ⟨0, rfl⟩)), ?_, ?_⟩
    · rw [← hfollows.threadCount]
      exact fun i hi => hrests.exited hshutdown i (hwatched.ne_absent hi)
    · intro hgraceful
      rw [← hfollows.accepted]
      refine hrests.taken ?_
      rw [hfollows.shutdown, hgraceful]
      simp

/-- A graceful destruction of a pool with one task, up to its wait. -/
def oneShutdown : List (Signal ℕ) :=
  oneSignal ++ ([.step (.destroy 0 true) 0, .step (.destroyer 0) 0, .step .inside 0,
    .step .inside 0] : List (Signal ℕ))

/-- The worker takes the task and exits, and the call returns. -/
def oneExit : List (Signal ℕ) :=
  [.step (.worker 0) 0, .step .inside 0, .step .inside 0, .step .inside 0, .step .inside 0,
    .step .inside 0, .step (.worker 0) 0, .step (.worker 0) 0, .step .inside 0, .step .inside 0,
    .step .inside 0, .step (.destroyer 0) 0, .step (.destroyer 0) 0, .step (.destroyer 0) 0]

theorem destroy_oneExit :
    ∃ s t, (machine ℕ).exec ⟨ThreadPool.new 0 1 1, fun _ => false⟩ oneShutdown = some s ∧
      s.pool.destroyers 0 = .joining 0 ∧ (machine ℕ).exec s oneExit = some t ∧
      t.pool.destroyers 0 = .returned .ok ∧ (∀ i < 1, t.pool.workers i = .exited) ∧
      t.pool.taken = [7] := by
  have hinitial : (machine ℕ).initial ⟨ThreadPool.new 0 1 1, fun _ => false⟩ :=
    ⟨0, 1, 1, le_rfl, le_rfl, rfl⟩
  have hexec : (machine ℕ).exec ⟨ThreadPool.new 0 1 1, fun _ => false⟩ oneShutdown = some _ := rfl
  refine ⟨_, _, hexec, rfl, rfl, ?_⟩
  have hreturns := (destroy_returns hinitial hexec rfl (k := 0) rfl
    (by simp [oneExit, byWorkerOr, byWorker])
    (show (machine ℕ).exec _ oneExit = some _ from rfl)).2
  refine (fun hrest => ⟨(hreturns hrest).1, (hreturns hrest).2.1, (hreturns hrest).2.2 rfl⟩) ?_
  rintro b (hb | ⟨chosen, rfl⟩)
  · match b, hb with
    | .step .inside chosen, _ => rfl
    | .step (.worker 0) chosen, _ => rfl
    | .step (.worker (i + 1)) chosen, _ => rfl
  · rfl

end Signalled

end ThreadPool

end Http

end SoL
