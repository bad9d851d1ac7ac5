import SoL.Container.PriorityQueue
import SoL.Net.Channel
import SoL.Transition.Machine

/-!
# Requests and their timers

The main thread owns two kinds of objects that point to each other. A request
points to its timer, a timer to its request, and the destructor of each clears or
deletes the other. The timers are also in a queue ordered by their expiry, from
which they are removed late: a request that goes to the thread pool is separated
from its timer, which stays in the queue until it is on top.

`Heap` holds the live objects under numbers that are not used again. An access to
an object that is not live, or its deletion, is a `MemoryFault`. The comparator of
the queue looks at the timers in it. `armed` are the requests whose descriptors
are registered and armed, which is undone when an event is reported
(`EPOLLONESHOT`) and when the descriptor is removed; `handed` are the requests
that are in the thread pool.
-/

namespace SoL

namespace Http

open Container Transition Net

structure Request where
  fd : ℕ
  timer : Option ℕ
  deriving DecidableEq

structure MyTimer where
  deleted : Bool
  expiredTime : ℕ
  requestData : Option ℕ
  deriving DecidableEq

inductive MemoryFault
  | useAfterFree
  | doubleDelete
  deriving DecidableEq

structure Heap where
  requests : ℕ → Option Request
  timers : ℕ → Option MyTimer
  myTimerQueue : List ℕ
  listener : ℕ
  listenFd : ℕ
  armed : List ℕ
  handed : List ℕ
  nextRequest : ℕ
  nextTimer : ℕ

namespace Heap

def TIMER_TIME_OUT : ℕ := 500

/-- The heap when the main loop begins, with the request of the listening
descriptor. -/
def start (listenFd : ℕ) : Heap where
  requests := Function.update (fun _ => none) 0 (some ⟨listenFd, none⟩)
  timers := fun _ => none
  myTimerQueue := []
  listener := 0
  listenFd := listenFd
  armed := []
  handed := []
  nextRequest := 1
  nextTimer := 0

def getRequest (h : Heap) (r : ℕ) : Except MemoryFault Request :=
  match h.requests r with
  | some request => .ok request
  | none => .error .useAfterFree

def getTimer (h : Heap) (t : ℕ) : Except MemoryFault MyTimer :=
  match h.timers t with
  | some timer => .ok timer
  | none => .error .useAfterFree

def setRequest (h : Heap) (r : ℕ) (request : Option Request) : Heap :=
  { h with requests := Function.update h.requests r request }

def setTimer (h : Heap) (t : ℕ) (timer : Option MyTimer) : Heap :=
  { h with timers := Function.update h.timers t timer }

/-- `mytimer::clearReq`. -/
def clearReq (h : Heap) (t : ℕ) : Except MemoryFault Heap := do
  let timer ← h.getTimer t
  return h.setTimer t (some { timer with requestData := none, deleted := true })

/-- `delete` of a request: `~requestData` removes the descriptor, clears the
request in its timer, and the object is gone. -/
def deleteRequest (h : Heap) (r : ℕ) : Except MemoryFault Heap :=
  match h.requests r with
  | none => .error .doubleDelete
  | some request => do
      let h := { h with armed := h.armed.filter fun a => a ≠ r }
      let h ←
        match request.timer with
        | some t => h.clearReq t
        | none => .ok h
      return h.setRequest r none

/-- `delete` of a timer: `~mytimer` deletes its request, and the object is
gone. -/
def deleteTimer (h : Heap) (t : ℕ) : Except MemoryFault Heap :=
  match h.timers t with
  | none => .error .doubleDelete
  | some timer => do
      let h ←
        match timer.requestData with
        | some r => h.deleteRequest r
        | none => .ok h
      return h.setTimer t none

/-- `requestData::addTimer`. -/
def addTimer (h : Heap) (r t : ℕ) : Except MemoryFault Heap := do
  let request ← h.getRequest r
  match request.timer with
  | none => return h.setRequest r (some { request with timer := some t })
  | some _ => return h

/-- `requestData::seperateTimer`. -/
def seperateTimer (h : Heap) (r : ℕ) : Except MemoryFault Heap := do
  let request ← h.getRequest r
  match request.timer with
  | some t =>
      let h ← h.clearReq t
      return h.setRequest r (some { request with timer := none })
  | none => return h

/-- The comparator reads the timers of the queue. -/
def comparable (h : Heap) : Bool := h.myTimerQueue.all fun t => (h.timers t).isSome

/-- `myTimerQueue.push`. -/
def push (h : Heap) (t : ℕ) : Except MemoryFault Heap :=
  let h := { h with myTimerQueue := t :: h.myTimerQueue }
  if h.comparable then .ok h else .error .useAfterFree

/-- A connection that `accept` returns: its descriptor, whether the poller takes
it, and the time. -/
structure Connection where
  fd : ℕ
  registered : Bool
  now : ℕ
  deriving DecidableEq

/-- A round of the loop of `acceptConnection`. -/
def acceptOne (h : Heap) (c : Connection) : Except MemoryFault Heap := do
  let r := h.nextRequest
  let t := h.nextTimer
  let h := { h.setRequest r (some ⟨c.fd, none⟩) with
    armed := if c.registered then r :: h.armed else h.armed
    nextRequest := r + 1 }
  let h := { h.setTimer t (some ⟨false, c.now + TIMER_TIME_OUT, some r⟩) with nextTimer := t + 1 }
  let h ← h.addTimer r t
  h.push t

/-- `acceptConnection`, until `accept` returns no connection. -/
def acceptConnection (h : Heap) : List Connection → Except MemoryFault Heap
  | [] => .ok h
  | c :: rest => do
      let h ← h.acceptOne c
      acceptConnection h rest

/-- An event that the poller reports, with what its handling meets: the
connections that can be accepted, and whether the thread pool takes the
request. -/
structure Event where
  ptr : ℕ
  events : UInt32
  connections : List Connection
  added : Bool
  deriving DecidableEq

/-- A round of the loop of `handle_events`. -/
def handleEvent (h : Heap) (e : Event) : Except MemoryFault Heap := do
  let request ← h.getRequest e.ptr
  if request.fd = h.listenFd then h.acceptConnection e.connections
  else if e.events &&& EPOLLERR ≠ 0 ∨ e.events &&& EPOLLHUP ≠ 0 ∨ e.events &&& EPOLLIN = 0 then
    h.deleteRequest e.ptr
  else
    let h ← h.seperateTimer e.ptr
    return if e.added then { h with handed := e.ptr :: h.handed } else h

def handleEvents (h : Heap) : List Event → Except MemoryFault Heap
  | [] => .ok h
  | e :: rest => do
      let h ← h.handleEvent e
      handleEvents h rest

/-- `mytimer::isvalid`. -/
def isvalid (timer : MyTimer) (now : ℕ) : Bool := now < timer.expiredTime

variable (S : Selector ℕ ℕ)

/-- The order of the queue. -/
def key (h : Heap) (t : ℕ) : ℕ :=
  match h.timers t with
  | some timer => timer.expiredTime
  | none => 0

/-- The loop of `handle_expired_event`, which reads the clock for every timer that
is not marked as deleted. The queue has at most the given number of timers. -/
def expireLoop (clock : ℕ → ℕ) : ℕ → Heap → Except MemoryFault Heap
  | 0, h => .ok h
  | n + 1, h =>
      if h.comparable then
        match S.top h.key h.myTimerQueue with
        | none => .ok h
        | some t => do
            let timer ← h.getTimer t
            let popped := { h with myTimerQueue := h.myTimerQueue.erase t }
            if timer.deleted then
              let h ← popped.deleteTimer t
              expireLoop clock n h
            else if isvalid timer (clock n) then .ok h
            else
              let h ← (popped.setTimer t (some { timer with deleted := true })).deleteTimer t
              expireLoop clock n h
      else .error .useAfterFree

def handleExpiredEvent (clock : ℕ → ℕ) (h : Heap) : Except MemoryFault Heap :=
  expireLoop S clock h.myTimerQueue.length h

/-- A worker works on a request of the thread pool. -/
def handleRequest (h : Heap) (r : ℕ) : Except MemoryFault Heap := do
  let _ ← h.getRequest r
  return h

/-- The functions of the main thread, with what they meet, and a worker. -/
inductive Act
  | acceptConnection (connections : List Connection)
  | handleEvents (events : List Event)
  | handleExpiredEvent (clock : ℕ → ℕ)
  | handleRequest (r : ℕ)

/-- A reported event disarms its descriptor, apart from the listening one. -/
def report (h : Heap) (events : List Event) : Heap :=
  { h with armed := h.armed.filter fun r => r ∉ events.map Event.ptr }

/-- The poller reports every descriptor once, and only those that are registered
and armed. Workers get their requests from the thread pool. -/
def enabled (h : Heap) : Act → Prop
  | .acceptConnection _ | .handleExpiredEvent _ => True
  | .handleEvents events =>
      (events.map Event.ptr).Nodup ∧ ∀ e ∈ events, e.ptr = h.listener ∨ e.ptr ∈ h.armed
  | .handleRequest r => r ∈ h.handed

instance (h : Heap) : DecidablePred h.enabled
  | .acceptConnection _ | .handleExpiredEvent _ => isTrue trivial
  | .handleEvents events =>
      haveI : Decidable (∀ e ∈ events, e.ptr = h.listener ∨ e.ptr ∈ h.armed) :=
        List.decidableBAll (fun e : Event => e.ptr = h.listener ∨ e.ptr ∈ h.armed) events
      inferInstanceAs (Decidable (_ ∧ _))
  | .handleRequest r => inferInstanceAs (Decidable (r ∈ h.handed))

def act (h : Heap) : Act → Except MemoryFault Heap
  | .acceptConnection connections => h.acceptConnection connections
  | .handleEvents events => (h.report events).handleEvents events
  | .handleExpiredEvent clock => h.handleExpiredEvent S clock
  | .handleRequest r => h.handleRequest r

def machine : Machine Heap Act where
  initial := fun h => ∃ listenFd, h = start listenFd
  step := fun h a => if h.enabled a then (h.act S a).toOption else none

end Heap

end Http

end SoL
