import SoL.Net.Epoll

/-!
# The event loop as a machine

One `EventLoop` with the thread that runs `loop` and any number of other
threads that call `queueInLoop`. A functor is opaque (the type `Φ`), and so is
the code of a handler: while one of them runs, the loop thread may call
`queueInLoop` and the poller in any order, and the label `ret` is its return.
The mutex protects one `push_back` and one `swap`, and each of them is one step.
`queueInLoop` has two more: the test of `callingPendingFunctors_` after the
push, and the write to the eventfd that follows when the test allows it.

The wakeup channel is handled by the loop itself: its read handler takes the
counter of the eventfd back to zero. `accept` is what `Server::handNewConn` does
from the thread of the acceptor: it sets the mask of a new channel and adds it
to the poller of this loop.

The history variables are `pushed` and `executed`, the functors in the order in
which they were queued and called, and `removed`, the channels for which
`removeFromPoller` has returned and that have not been added again since.
-/

namespace SoL

namespace Net

namespace EventLoop

open Transition

/-- `EVENTSNUM`, the most events that one `epoll_wait` returns. -/
def EVENTSNUM : ℕ := 4096

inductive Thread
  | loop
  | other (i : ℕ)
  deriving DecidableEq

/-- Where a thread is in `queueInLoop`: outside, before its test, or before its
write to the eventfd. The number is the position of its functor among all
functors pushed. -/
inductive QueuePc
  | out
  | decide (k : ℕ)
  | wake (k : ℕ)
  deriving DecidableEq

/-- Where the loop thread is. `dispatch rest` is the loop over the active
channels, `running` and `inFunctor` are calls of a handler and of a functor, and
`setCalling`, `swap` and `call` are the steps of `doPendingFunctors`. -/
inductive LoopPc
  | idle
  | poll
  | dispatch (rest : List ChannelId)
  | running (c : ChannelId) (h : Handler) (rest : List ChannelId)
  | testWrite (c : ChannelId) (rest : List ChannelId)
  | setCalling
  | swap
  | call (i : ℕ)
  | inFunctor (i : ℕ)
  deriving DecidableEq

structure State (Φ : Type*) where
  poller : Epoll
  wakeupChannel : ChannelId
  counter : ℕ
  callingPendingFunctors : Bool
  pendingFunctors : List Φ
  functors : List Φ
  pc : LoopPc
  callers : Thread → QueuePc
  pushed : List Φ
  executed : List Φ
  removed : ChannelId → Bool

inductive Action (Φ : Type*)
  | loop
  | pollReturn (events : List (Fd × UInt32))
  | ret
  | push (r : Thread) (f : Φ)
  | decide (r : Thread)
  | wake (r : Thread)
  | user (a : Epoll.Call)
  | accept (c : ChannelId) (events : UInt32)

variable {Φ : Type*}

/-- `EventLoop::EventLoop`: the eventfd is registered with its read handler. -/
def create (Φ : Type*) (channels : ChannelId → Channel) (wakeupChannel : ChannelId) :
    State Φ where
  poller :=
    ((Epoll.create (Function.update channels wakeupChannel
      { channels wakeupChannel with readHandler := true })).setEvents wakeupChannel
        (EPOLLIN ||| EPOLLET)).epollAdd wakeupChannel
  wakeupChannel := wakeupChannel
  counter := 0
  callingPendingFunctors := false
  pendingFunctors := []
  functors := []
  pc := .idle
  callers := fun _ => .out
  pushed := []
  executed := []
  removed := fun _ => false

/-- A write of 1 to a nonblocking eventfd: it fails at the largest value. -/
def eventfdWrite (counter : ℕ) : ℕ :=
  if counter < 2 ^ 64 - 2 then counter + 1 else counter

/-- The loop thread runs code of the user. -/
def userCode (s : State Φ) : Bool :=
  match s.pc with
  | .running c _ _ => c != s.wakeupChannel
  | .inFunctor _ => true
  | _ => false

/-- Where `handleEvents` of channel `c` goes first. -/
def afterEvents (channel : Channel) (c : ChannelId) (rest : List ChannelId) : LoopPc :=
  match channel.firstHandler with
  | some h => .running c h rest
  | none => if channel.reachesWrite then .testWrite c rest else .dispatch rest

/-- Where `handleEvents` of channel `c` goes when the handler `h` returns. -/
def afterHandler (h : Handler) (c : ChannelId) (rest : List ChannelId) : LoopPc :=
  match h with
  | .read => .testWrite c rest
  | .write => .dispatch rest
  | .error => .dispatch rest

/-- What the loop does with the poller when a handler returns: the wakeup
channel asks for its events again, and `handleEvents` clears the events after an
error. -/
def finishHandler (s : State Φ) (h : Handler) (c : ChannelId) : Epoll :=
  match h with
  | .read =>
      if c = s.wakeupChannel then s.poller.setEvents c (EPOLLIN ||| EPOLLET) else s.poller
  | .write => s.poller
  | .error => s.poller.setEvents c 0

/-- The channels removed and not added again, after a call on the poller `p`. -/
def removedAfter (removed : ChannelId → Bool) (p : Epoll) : Epoll.Call → ChannelId → Bool
  | .del c => Function.update removed c true
  | .add c =>
      if (p.epollAdd c).fd2chan (p.channels c).fd = some c then
        Function.update removed c false
      else removed
  | .mod _ => removed
  | .setEvents _ _ => removed

/-- The next step of the loop thread outside handlers and functors. -/
def loopStep (s : State Φ) : Option (State Φ) :=
  match s.pc with
  | .idle => some { s with pc := .poll }
  | .poll => none
  | .dispatch [] => some { s with pc := .setCalling }
  | .dispatch (c :: rest) =>
      some { s with
        poller := s.poller.setEvents c 0
        pc := afterEvents (s.poller.channels c) c rest }
  | .running _ _ _ => none
  | .testWrite c rest =>
      some { s with
        pc := if (s.poller.channels c).handlesWrite then .running c .write rest
          else .dispatch rest }
  | .setCalling => some { s with callingPendingFunctors := true, pc := .swap }
  | .swap =>
      some { s with functors := s.pendingFunctors, pendingFunctors := [], pc := .call 0 }
  | .call i =>
      match s.functors[i]? with
      | some f => some { s with executed := s.executed ++ [f], pc := .inFunctor i }
      | none => some { s with callingPendingFunctors := false, pc := .poll }
  | .inFunctor _ => none

def step (s : State Φ) (a : Action Φ) : Option (State Φ) :=
  match a with
  | .loop => if s.callers .loop = .out then loopStep s else none
  | .pollReturn events =>
      if s.pc = .poll ∧ s.poller.reported events ∧ (events.map Prod.fst).Nodup ∧
          events.length ≤ EVENTSNUM ∧
          ((s.poller.channels s.wakeupChannel).fd ∈ events.map Prod.fst → 0 < s.counter) then
        some { s with
          poller := (s.poller.getEventsRequest events).1
          pc := .dispatch (s.poller.getEventsRequest events).2 }
      else none
  | .ret =>
      if s.callers .loop = .out then
        match s.pc with
        | .running c h rest =>
            some { s with
              poller := finishHandler s h c
              counter := if c = s.wakeupChannel ∧ h = .read then 0 else s.counter
              pc := afterHandler h c rest }
        | .inFunctor i => some { s with pc := .call (i + 1) }
        | _ => none
      else none
  | .push r f =>
      if s.callers r = .out ∧ (r = .loop → userCode s = true) then
        some { s with
          pendingFunctors := s.pendingFunctors ++ [f]
          pushed := s.pushed ++ [f]
          callers := Function.update s.callers r (.decide s.pushed.length) }
      else none
  | .decide r =>
      match s.callers r with
      | .decide k =>
          some { s with
            callers := Function.update s.callers r
              (if s.callingPendingFunctors then .out else .wake k) }
      | _ => none
  | .wake r =>
      match s.callers r with
      | .wake _ =>
          some { s with
            counter := eventfdWrite s.counter
            callers := Function.update s.callers r .out }
      | _ => none
  | .user a =>
      if s.callers .loop = .out ∧ userCode s = true then
        some { s with
          poller := s.poller.call a
          removed := removedAfter s.removed s.poller a }
      else none
  | .accept c events =>
      some { s with
        poller := (s.poller.setEvents c events).epollAdd c
        removed := removedAfter s.removed (s.poller.setEvents c events) (.add c) }

def machine (Φ : Type*) : Machine (State Φ) (Action Φ) where
  initial := fun s => ∃ channels wakeupChannel, s = create Φ channels wakeupChannel
  step := step

/-- Every step of the event loop, with its guard and its result. -/
inductive Trans (s : State Φ) : Action Φ → State Φ → Prop
  | enter (hpc : s.pc = .idle) : Trans s .loop { s with pc := .poll }
  | dispatched (hpc : s.pc = .dispatch []) : Trans s .loop { s with pc := .setCalling }
  | dispatch (c : ChannelId) (rest : List ChannelId) (hpc : s.pc = .dispatch (c :: rest)) :
      Trans s .loop { s with
        poller := s.poller.setEvents c 0
        pc := afterEvents (s.poller.channels c) c rest }
  | testWrite (c : ChannelId) (rest : List ChannelId) (hpc : s.pc = .testWrite c rest) :
      Trans s .loop { s with
        pc := if (s.poller.channels c).handlesWrite then .running c .write rest
          else .dispatch rest }
  | setCalling (hpc : s.pc = .setCalling) :
      Trans s .loop { s with callingPendingFunctors := true, pc := .swap }
  | swap (hpc : s.pc = .swap) :
      Trans s .loop
        { s with functors := s.pendingFunctors, pendingFunctors := [], pc := .call 0 }
  | call (i : ℕ) (f : Φ) (hpc : s.pc = .call i) (hf : s.functors[i]? = some f) :
      Trans s .loop { s with executed := s.executed ++ [f], pc := .inFunctor i }
  | called (i : ℕ) (hpc : s.pc = .call i) (hend : s.functors[i]? = none) :
      Trans s .loop { s with callingPendingFunctors := false, pc := .poll }
  | pollReturn (events : List (Fd × UInt32)) (hpc : s.pc = .poll)
      (hreported : s.poller.reported events) :
      Trans s (.pollReturn events) { s with
        poller := (s.poller.getEventsRequest events).1
        pc := .dispatch (s.poller.getEventsRequest events).2 }
  | handlerReturn (c : ChannelId) (h : Handler) (rest : List ChannelId)
      (hpc : s.pc = .running c h rest) :
      Trans s .ret { s with
        poller := finishHandler s h c
        counter := if c = s.wakeupChannel ∧ h = .read then 0 else s.counter
        pc := afterHandler h c rest }
  | functorReturn (i : ℕ) (hpc : s.pc = .inFunctor i) :
      Trans s .ret { s with pc := .call (i + 1) }
  | push (r : Thread) (f : Φ) (hout : s.callers r = .out) :
      Trans s (.push r f) { s with
        pendingFunctors := s.pendingFunctors ++ [f]
        pushed := s.pushed ++ [f]
        callers := Function.update s.callers r (.decide s.pushed.length) }
  | decide (r : Thread) (k : ℕ) (hcaller : s.callers r = .decide k) :
      Trans s (.decide r) { s with
        callers := Function.update s.callers r
          (if s.callingPendingFunctors then .out else .wake k) }
  | wake (r : Thread) (k : ℕ) (hcaller : s.callers r = .wake k) :
      Trans s (.wake r) { s with
        counter := eventfdWrite s.counter
        callers := Function.update s.callers r .out }
  | user (a : Epoll.Call) (huser : userCode s = true) :
      Trans s (.user a) { s with
        poller := s.poller.call a
        removed := removedAfter s.removed s.poller a }
  | accept (c : ChannelId) (events : UInt32) :
      Trans s (.accept c events) { s with
        poller := (s.poller.setEvents c events).epollAdd c
        removed := removedAfter s.removed (s.poller.setEvents c events) (.add c) }

theorem trans_of_loopStep {s t : State Φ} (h : loopStep s = some t) : Trans s .loop t := by
  unfold loopStep at h
  split at h
  case h_1 hpc =>
      cases h
      exact .enter hpc
  case h_2 => cases h
  case h_3 hpc =>
      cases h
      exact .dispatched hpc
  case h_4 c rest hpc =>
      cases h
      exact .dispatch c rest hpc
  case h_5 => cases h
  case h_6 c rest hpc =>
      cases h
      exact .testWrite c rest hpc
  case h_7 hpc =>
      cases h
      exact .setCalling hpc
  case h_8 hpc =>
      cases h
      exact .swap hpc
  case h_9 i hpc =>
      split at h
      case h_1 f hf =>
          cases h
          exact .call i f hpc hf
      case h_2 hend =>
          cases h
          exact .called i hpc hend
  case h_10 => cases h

theorem trans_of_step {s t : State Φ} {a : Action Φ} (h : step s a = some t) :
    Trans s a t := by
  cases a with
  | loop =>
      obtain ⟨-, hstep⟩ := Option.ite_none_right_eq_some.1 h
      exact trans_of_loopStep hstep
  | pollReturn events =>
      obtain ⟨⟨hpc, hreported, -⟩, ⟨⟩⟩ := Option.ite_none_right_eq_some.1 h
      exact .pollReturn events hpc hreported
  | ret =>
      obtain ⟨-, hstep⟩ := Option.ite_none_right_eq_some.1 h
      split at hstep
      case h_1 c g rest hpc =>
          cases hstep
          exact .handlerReturn c g rest hpc
      case h_2 i hpc =>
          cases hstep
          exact .functorReturn i hpc
      case h_3 => cases hstep
  | push r f =>
      obtain ⟨⟨hout, -⟩, ⟨⟩⟩ := Option.ite_none_right_eq_some.1 h
      exact .push r f hout
  | decide r =>
      simp only [step] at h
      split at h
      case h_1 k hcaller =>
          cases h
          exact .decide r k hcaller
      case h_2 => cases h
  | wake r =>
      simp only [step] at h
      split at h
      case h_1 k hcaller =>
          cases h
          exact .wake r k hcaller
      case h_2 => cases h
  | user a =>
      obtain ⟨⟨-, huser⟩, ⟨⟩⟩ := Option.ite_none_right_eq_some.1 h
      exact .user a huser
  | accept c events =>
      cases h
      exact .accept c events

end EventLoop

end Net

end SoL
