import SoL.Container.RingBuffer
import SoL.Transition.Machine

/-!
# The thread pool

The threads that share a pool are the one that creates it, its workers, the
callers of `threadpool_add` and the callers of `threadpool_destroy`. The mutex is
free, or one of them is inside and stands at a point of its critical section; an
assignment to a field of the pool is a step of its own. A thread that waits on
the condition variable may wake up at any time, so that the signals need no
representation. Locks and condition variables do not fail, and the updates of
`started`, some of which are made without the mutex, are atomic.

`accepted` lists the tasks in the order in which `threadpool_add` stores them and
`taken` those that the workers take out; no code sees them. An `entry` is the
queue and the shutdown flag at the time when a caller locks the mutex.
-/

namespace SoL

namespace Http

open Container Transition

inductive Shutdown
  | running
  | immediate
  | graceful
  deriving DecidableEq

/-- The results of `threadpool_add` and `threadpool_destroy`. -/
inductive PoolResult
  | ok
  | THREADPOOL_QUEUE_FULL
  | THREADPOOL_SHUTDOWN
  deriving DecidableEq

/-- The loop of `threadpool_create`. -/
inductive CreatorPc
  | creating (i : ℕ)
  | counting (i : ℕ)
  | starting (i : ℕ)
  | failed
  | done
  deriving DecidableEq

inductive WorkerPc (α : Type)
  | absent
  | begin
  | locking
  | inside
  | waiting
  | working (task : α)
  | exited
  deriving DecidableEq

inductive AdderPc (α : Type)
  | idle
  | locking (task : α)
  | inside
  | returned (result : PoolResult)
  deriving DecidableEq

inductive DestroyerPc
  | idle
  | locking (graceful : Bool)
  | inside
  | joining (i : ℕ)
  | freeing
  | returned (result : PoolResult)
  deriving DecidableEq

/-- The points of `threadpool_thread` between lock and unlock. -/
inductive WorkerPoint (α : Type)
  | testing
  | taking
  | moving (task : α)
  | uncounting (task : α)
  | unlocking (task : α)
  | leaving
  | unlockingExit

/-- The points of `threadpool_add` between lock and unlock. -/
inductive AdderPoint (α : Type)
  | testing (task : α)
  | storing (task : α) (next : ℕ)
  | advancing (task : α) (next : ℕ)
  | counting (task : α)
  | unlocking (result : PoolResult)

/-- The points of `threadpool_destroy` with the mutex locked. A call that finds
the pool shutting down returns with the mutex. -/
inductive DestroyerPoint
  | testing (graceful : Bool)
  | unlocking
  | returned
  deriving DecidableEq

/-- The thread inside the mutex. -/
inductive Holder (α : Type)
  | worker (i : ℕ) (point : WorkerPoint α)
  | adder (k : ℕ) (entry : RingBuffer α × Shutdown) (point : AdderPoint α)
  | destroyer (k : ℕ) (point : DestroyerPoint)

structure ThreadPool (α : Type) where
  requested : ℕ
  queue : RingBuffer α
  shutdown : Shutdown
  threadCount : ℕ
  started : ℤ
  freed : Bool
  mutexLock : Option (Holder α)
  creator : CreatorPc
  workers : ℕ → WorkerPc α
  adders : ℕ → AdderPc α
  destroyers : ℕ → DestroyerPc
  accepted : List α
  taken : List α

namespace ThreadPool

def MAX_THREADS : ℤ := 1024
def MAX_QUEUE : ℤ := 65535

variable {α : Type}

/-- The pool before its first thread is created. -/
def new (default : α) (threadCount queueSize : ℕ) : ThreadPool α where
  requested := threadCount
  queue := RingBuffer.empty default queueSize
  shutdown := .running
  threadCount := 0
  started := 0
  freed := false
  mutexLock := none
  creator := .creating 0
  workers := fun _ => .absent
  adders := fun _ => .idle
  destroyers := fun _ => .idle
  accepted := []
  taken := []

/-- `threadpool_create` up to its loop; `none` when it refuses its arguments. -/
def threadpoolCreate (default : α) (threadCount queueSize : ℤ) : Option (ThreadPool α) :=
  if threadCount ≤ 0 ∨ MAX_THREADS < threadCount ∨ queueSize ≤ 0 ∨ MAX_QUEUE < queueSize then
    none
  else some (new default threadCount.toNat queueSize.toNat)

/-- The steps of a run. Only a pool that has been returned by `threadpool_create`
is used by the callers. `create` carries the result of `pthread_create`. -/
inductive Step (α : Type)
  | create (ok : Bool)
  | worker (i : ℕ)
  | add (k : ℕ) (task : α)
  | adder (k : ℕ)
  | destroy (k : ℕ) (graceful : Bool)
  | destroyer (k : ℕ)
  | inside

def setWorker (s : ThreadPool α) (i : ℕ) (pc : WorkerPc α) : ThreadPool α :=
  { s with workers := Function.update s.workers i pc }

def setAdder (s : ThreadPool α) (k : ℕ) (pc : AdderPc α) : ThreadPool α :=
  { s with adders := Function.update s.adders k pc }

def setDestroyer (s : ThreadPool α) (k : ℕ) (pc : DestroyerPc) : ThreadPool α :=
  { s with destroyers := Function.update s.destroyers k pc }

def lock (s : ThreadPool α) (h : Holder α) : ThreadPool α := { s with mutexLock := some h }

def unlock (s : ThreadPool α) : ThreadPool α := { s with mutexLock := none }

/-- The loop of `threadpool_create`. When a thread cannot be created, the pool is
destroyed at once. -/
def createStep (s : ThreadPool α) (ok : Bool) : Option (ThreadPool α) :=
  match s.creator with
  | .creating i =>
      if i < s.requested then
        if ok then some { s.setWorker i .begin with creator := .counting i }
        else some { s.setDestroyer 0 (.locking false) with creator := .failed }
      else some { s with creator := .done }
  | .counting i => some { s with threadCount := s.threadCount + 1, creator := .starting i }
  | .starting i => some { s with started := s.started + 1, creator := .creating (i + 1) }
  | .failed | .done => none

/-- `threadpool_thread` outside the mutex. -/
def workerStep (s : ThreadPool α) (i : ℕ) : Option (ThreadPool α) :=
  match s.workers i with
  | .begin => some { s.setWorker i .locking with started := s.started + 1 }
  | .locking | .waiting =>
      if s.mutexLock.isNone then some ((s.setWorker i .inside).lock (.worker i .testing))
      else none
  | .working _ => some (s.setWorker i .locking)
  | .absent | .inside | .exited => none

/-- `threadpool_add` outside the mutex. -/
def adderStep (s : ThreadPool α) (k : ℕ) : Option (ThreadPool α) :=
  match s.adders k with
  | .locking task =>
      if s.mutexLock.isNone then
        some ((s.setAdder k .inside).lock (.adder k (s.queue, s.shutdown) (.testing task)))
      else none
  | .idle | .inside | .returned _ => none

/-- `threadpool_destroy` outside the mutex. It joins the threads one after the
other, and frees a pool that has no started threads. `threadpool_free` waits for the
mutex and destroys it with the pool. -/
def destroyerStep (s : ThreadPool α) (k : ℕ) : Option (ThreadPool α) :=
  match s.destroyers k with
  | .locking graceful =>
      if s.mutexLock.isNone then
        some ((s.setDestroyer k .inside).lock (.destroyer k (.testing graceful)))
      else none
  | .joining i =>
      if i < s.threadCount then
        match s.workers i with
        | .exited => some (s.setDestroyer k (.joining (i + 1)))
        | _ => none
      else some (s.setDestroyer k .freeing)
  | .freeing =>
      if s.started > 0 then some (s.setDestroyer k (.returned .ok))
      else if s.mutexLock.isNone then
        some { s.setDestroyer k (.returned .ok) with freed := true }
      else none
  | .idle | .inside | .returned _ => none

/-- `threadpool_thread` inside the mutex. -/
def workerInside (s : ThreadPool α) (i : ℕ) : WorkerPoint α → ThreadPool α
  | .testing =>
      if s.queue.count = 0 ∧ s.shutdown = .running then (s.setWorker i .waiting).unlock
      else if s.shutdown = .immediate ∨ (s.shutdown = .graceful ∧ s.queue.count = 0) then
        s.lock (.worker i .leaving)
      else s.lock (.worker i .taking)
  | .taking => s.lock (.worker i (.moving s.queue.front))
  | .moving task => { s with queue := s.queue.moveHead }.lock (.worker i (.uncounting task))
  | .uncounting task =>
      { s with queue := s.queue.shrink, taken := s.taken ++ [task] }.lock
        (.worker i (.unlocking task))
  | .unlocking task => (s.setWorker i (.working task)).unlock
  | .leaving => { s with started := s.started - 1 }.lock (.worker i .unlockingExit)
  | .unlockingExit => (s.setWorker i .exited).unlock

/-- `threadpool_add` inside the mutex. -/
def adderInside (s : ThreadPool α) (k : ℕ) (entry : RingBuffer α × Shutdown) :
    AdderPoint α → ThreadPool α
  | .testing task =>
      if s.queue.count = s.queue.size then
        s.lock (.adder k entry (.unlocking .THREADPOOL_QUEUE_FULL))
      else if s.shutdown ≠ .running then
        s.lock (.adder k entry (.unlocking .THREADPOOL_SHUTDOWN))
      else s.lock (.adder k entry (.storing task s.queue.next))
  | .storing task next =>
      { s with queue := s.queue.store task }.lock (.adder k entry (.advancing task next))
  | .advancing task next =>
      { s with queue := s.queue.moveTail next }.lock (.adder k entry (.counting task))
  | .counting task =>
      { s with queue := s.queue.grow, accepted := s.accepted ++ [task] }.lock
        (.adder k entry (.unlocking .ok))
  | .unlocking result => (s.setAdder k (.returned result)).unlock

/-- `threadpool_destroy` inside the mutex. -/
def destroyerInside (s : ThreadPool α) (k : ℕ) : DestroyerPoint → Option (ThreadPool α)
  | .testing graceful =>
      if s.shutdown ≠ .running then
        some ((s.setDestroyer k (.returned .THREADPOOL_SHUTDOWN)).lock (.destroyer k .returned))
      else
        some ({ s with shutdown := if graceful then .graceful else .immediate }.lock
          (.destroyer k .unlocking))
  | .unlocking => some (s.setDestroyer k (.joining 0)).unlock
  | .returned => none

def step (s : ThreadPool α) : Step α → Option (ThreadPool α)
  | .create ok => s.createStep ok
  | .worker i => s.workerStep i
  | .add k task =>
      if s.creator = .done then
        match s.adders k with
        | .idle | .returned _ => some (s.setAdder k (.locking task))
        | .locking _ | .inside => none
      else none
  | .adder k => s.adderStep k
  | .destroy k graceful =>
      if s.creator = .done then
        match s.destroyers k with
        | .idle | .returned _ => some (s.setDestroyer k (.locking graceful))
        | _ => none
      else none
  | .destroyer k => s.destroyerStep k
  | .inside =>
      match s.mutexLock with
      | none => none
      | some (.worker i point) => some (s.workerInside i point)
      | some (.adder k entry point) => some (s.adderInside k entry point)
      | some (.destroyer k point) => s.destroyerInside k point

/-- A pool with at least one thread and at least one slot. -/
def machine (α : Type) : Machine (ThreadPool α) (Step α) where
  initial := fun s => ∃ default threadCount queueSize, 1 ≤ threadCount ∧ 1 ≤ queueSize ∧
    s = new default threadCount queueSize
  step := step

theorem initial_threadpoolCreate {default : α} {threadCount queueSize : ℤ} {s : ThreadPool α}
    (h : threadpoolCreate default threadCount queueSize = some s) : (machine α).initial s := by
  unfold threadpoolCreate at h
  split at h
  · cases h
  · obtain rfl := Option.some.inj h
    exact ⟨default, threadCount.toNat, queueSize.toNat, by omega, by omega, rfl⟩

end ThreadPool

end Http

end SoL
