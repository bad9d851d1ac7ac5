import Mathlib.Tactic

/-!
# Channels

A channel is one descriptor with the events it asks for, the events last
reported for it, the events last handed to the kernel, and the handlers that
have been set. `firstHandler` and `handlesWrite` are the tests of
`handleEvents`: which handler it starts with, and whether it goes on to the
write handler.
-/

namespace SoL

namespace Net

/-- `Epoll::MAXFDS`, the size of the table of channels. -/
def MAXFDS : ℕ := 100000

instance : NeZero MAXFDS := ⟨by decide⟩

/-- A descriptor below `MAXFDS`. -/
abbrev Fd := Fin MAXFDS

/-- The identity of a `Channel` object, as a `shared_ptr` to it carries it. -/
abbrev ChannelId := ℕ

def EPOLLIN : UInt32 := 0x001
def EPOLLPRI : UInt32 := 0x002
def EPOLLOUT : UInt32 := 0x004
def EPOLLERR : UInt32 := 0x008
def EPOLLHUP : UInt32 := 0x010
def EPOLLRDHUP : UInt32 := 0x2000
def EPOLLET : UInt32 := 0x80000000

inductive Handler
  | read
  | write
  | error
  deriving DecidableEq

structure Channel where
  fd : Fd
  events : UInt32
  revents : UInt32
  lastEvents : UInt32
  readHandler : Bool
  writeHandler : Bool
  errorHandler : Bool
  deriving DecidableEq

namespace Channel

/-- `Channel::Channel`, with the handlers that are set right after it. -/
def new (fd : Fd) (readHandler writeHandler errorHandler : Bool) : Channel where
  fd := fd
  events := 0
  revents := 0
  lastEvents := 0
  readHandler := readHandler
  writeHandler := writeHandler
  errorHandler := errorHandler

def setEvents (c : Channel) (events : UInt32) : Channel := { c with events := events }

def setRevents (c : Channel) (revents : UInt32) : Channel := { c with revents := revents }

/-- `EqualAndUpdateLastEvents`: the test, and the channel after it. -/
def equalAndUpdateLastEvents (c : Channel) : Bool × Channel :=
  (c.lastEvents == c.events, { c with lastEvents := c.events })

/-- The channel reports one of the events of a mask. -/
def reports (c : Channel) (mask : UInt32) : Bool := c.revents &&& mask != 0

/-- The write handler that `handleEvents` ends with. -/
def handlesWrite (c : Channel) : Bool := c.reports EPOLLOUT && c.writeHandler

/-- The handler that `handleEvents` starts with, and none when it returns at
once or has only the test for the write handler left. -/
def firstHandler (c : Channel) : Option Handler :=
  if c.reports EPOLLHUP && !c.reports EPOLLIN then none
  else if c.reports EPOLLERR then
    if c.errorHandler then some .error else none
  else if c.reports (EPOLLIN ||| EPOLLPRI ||| EPOLLRDHUP) && c.readHandler then some .read
  else none

/-- `handleEvents` gets to its test for the write handler. -/
def reachesWrite (c : Channel) : Bool :=
  !(c.reports EPOLLHUP && !c.reports EPOLLIN) && !c.reports EPOLLERR

/-- `handleEvents` calls some handler. -/
def handles (c : Channel) : Bool :=
  c.firstHandler.isSome || c.reachesWrite && c.handlesWrite

end Channel

end Net

end SoL
