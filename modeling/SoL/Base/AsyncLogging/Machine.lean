import SoL.Base.FixedBuffer
import SoL.Transition.Machine

/-!
# The asynchronous logger as a machine

The state of an `AsyncLogging` object, of the callers of `append`, of the
thread that calls `start` and `stop`, and of the logging thread inside
`threadFunc`. A label names the party that moves; everything between two
points at which another thread can interfere is one step. The mutex is the
plain one that `pthread_mutex_init(.., NULL)` makes: it has at most one owner,
and a thread at a lock operation waits until it has none.

`Condition::waitForSeconds` is a parameter. `WaitForSeconds.source` is the code
as it stands, which locks the mutex once more before it waits;
`WaitForSeconds.released` is the contract its callers rely on, namely that the
mutex is released while waiting and held again on return. In both readings the
wait may end at any time, so `notify` has no state of its own here, and `sync_`,
which only adds a `notify`, is left out.

Two fields are history variables that no code reads: `appended` are the lines in
the order in which `append` stored them, and `returned` are the lines whose
`append` has returned.
-/

namespace SoL

namespace Base

namespace AsyncLogging

open Transition

/-- `AsyncLogging::Buffer`. -/
abbrev Buffer := FixedBuffer kLargeBuffer

/-- `AsyncLogging::BufferPtr`; `none` is the null pointer. -/
abbrev BufferPtr := Option Buffer

/-- What a reader of the buffer behind a pointer sees. -/
def content (p : BufferPtr) : List UInt8 := p.elim [] FixedBuffer.content

/-- The readings of `Condition::waitForSeconds`. -/
inductive WaitForSeconds
  | source
  | released
  deriving DecidableEq

inductive Thread
  | logger
  | caller (i : ℕ)
  deriving DecidableEq

/-- Where a caller is in `append`: outside, at the constructor of the guard,
inside the critical section, at the destructor of the guard. -/
inductive AppendPc
  | out
  | lock (line : List UInt8)
  | body (line : List UInt8)
  | unlock (line : List UInt8)
  deriving DecidableEq

/-- Where the thread that owns the object is in `start` and `stop`. -/
inductive MainPc
  | created
  | starting
  | started
  | stopping
  | stopped
  deriving DecidableEq

/-- Where the logging thread is in `threadFunc`. The points from `waitLock` to
`waitUnlock` are those of `waitForSeconds`: at its guard, before the wait, in
the wait, on the way out of the wait, and at the destructor of its guard. -/
inductive LoggerPc
  | notStarted
  | entry
  | head
  | lock
  | testEmpty
  | waitLock
  | waitEnter
  | waiting
  | reacquire
  | waitUnlock
  | swap
  | unlock
  | drop
  | write (i : ℕ)
  | recycle
  | finish
  | exited
  deriving DecidableEq

/-- The checks of `append` and `threadFunc` that can fail: a dereference of a
null pointer and the assertions. -/
inductive Fault
  | nullBuffer
  | assertRunning
  | assertHead
  | assertBatch
  | assertTakeBack
  deriving DecidableEq

/-- One call of `output.append`. -/
inductive Record
  | notice (now : String) (dropped : ℕ)
  | buffer (data : List UInt8)
  deriving DecidableEq

/-- The bytes handed over by one call of `output.append`. The notice is printed
into an array of 256 bytes. -/
def Record.bytes : Record → List UInt8
  | .notice now dropped =>
      ("Dropped log messages at " ++ now ++ ", " ++ toString dropped ++
        " larger buffers\n").toUTF8.data.toList.take 255
  | .buffer data => data

structure State where
  running : Bool
  latch : ℕ
  main : MainPc
  owner : Option Thread
  callers : ℕ → AppendPc
  pc : LoggerPc
  currentBuffer : BufferPtr
  nextBuffer : BufferPtr
  buffers : List BufferPtr
  newBuffer1 : BufferPtr
  newBuffer2 : BufferPtr
  buffersToWrite : List BufferPtr
  output : List Record
  fault : Option Fault
  appended : List (List UInt8)
  returned : List (List UInt8)

/-- The labels. `logger` is the next step of the logging thread; the text is
the clock reading that a notice would print. -/
inductive Action
  | start
  | startReturn
  | stop
  | stopReturn
  | callAppend (i : ℕ) (line : List UInt8)
  | acquire (i : ℕ)
  | appendBody (i : ℕ)
  | appendReturn (i : ℕ)
  | logger (now : String)

/-- The constructor `AsyncLogging::AsyncLogging`. -/
def create : State where
  running := false
  latch := 1
  main := .created
  owner := none
  callers := fun _ => .out
  pc := .notStarted
  currentBuffer := some (.new kLargeBuffer)
  nextBuffer := some (.new kLargeBuffer)
  buffers := []
  newBuffer1 := none
  newBuffer2 := none
  buffersToWrite := []
  output := []
  fault := none
  appended := []
  returned := []

/-- The critical section of `append`, run by caller `i`. -/
def append (s : State) (i : ℕ) (line : List UInt8) : State :=
  match s.currentBuffer with
  | none => { s with fault := some .nullBuffer }
  | some b =>
      if line.length < b.avail then
        { s with
          currentBuffer := some (b.append line)
          callers := Function.update s.callers i (.unlock line)
          appended := s.appended ++ [line] }
      else
        { s with
          buffers := s.buffers ++ [some b]
          currentBuffer := some ((s.nextBuffer.getD (.new kLargeBuffer)).append line)
          nextBuffer := none
          callers := Function.update s.callers i (.unlock line)
          appended := s.appended ++ [line] }

/-- The assertion on a spare buffer at the head of the loop. -/
def spareReady (p : BufferPtr) : Bool := p.elim false fun b => b.length == 0

/-- The critical section of `threadFunc`: the current buffer joins the full
ones, they change hands, and the spares take their places. -/
def swapBuffers (s : State) : State where
  __ := s
  buffersToWrite := s.buffers ++ [s.currentBuffer]
  buffers := s.buffersToWrite
  currentBuffer := s.newBuffer1
  newBuffer1 := none
  nextBuffer := if s.nextBuffer.isSome then s.nextBuffer else s.newBuffer2
  newBuffer2 := if s.nextBuffer.isSome then s.newBuffer2 else none
  pc := .unlock

/-- `if (!newBuffer) { newBuffer = move(back); pop_back; reset; }`. -/
def takeBack (spare : BufferPtr) (v : List BufferPtr) :
    Except Fault (BufferPtr × List BufferPtr) :=
  match spare, v.getLast? with
  | some b, _ => .ok (some b, v)
  | none, none => .error .assertTakeBack
  | none, some none => .error .nullBuffer
  | none, some (some b) => .ok (some b.reset, v.dropLast)

/-- From the writes to the end of the loop body: `resize(2)`, the spares are
taken back, the vector is cleared. -/
def recycle (s : State) : State :=
  let kept := if 2 < s.buffersToWrite.length then s.buffersToWrite.take 2
    else s.buffersToWrite
  match takeBack s.newBuffer1 kept with
  | .error f => { s with fault := some f }
  | .ok (spare1, left) =>
      match takeBack s.newBuffer2 left with
      | .error f => { s with fault := some f }
      | .ok (spare2, _) =>
          { s with
            newBuffer1 := spare1
            newBuffer2 := spare2
            buffersToWrite := []
            pc := .head }

/-- The next step of the logging thread. -/
def loggerStep (w : WaitForSeconds) (now : String) (s : State) : Option State :=
  match s.pc with
  | .notStarted => none
  | .entry =>
      if s.running then
        some { s with
          latch := s.latch - 1
          newBuffer1 := some (.new kLargeBuffer)
          newBuffer2 := some (.new kLargeBuffer)
          buffersToWrite := []
          pc := .head }
      else some { s with fault := some .assertRunning }
  | .head =>
      if s.running then
        if spareReady s.newBuffer1 && spareReady s.newBuffer2 && s.buffersToWrite.isEmpty then
          some { s with pc := .lock }
        else some { s with fault := some .assertHead }
      else some { s with pc := .finish }
  | .lock =>
      if s.owner = none then some { s with owner := some .logger, pc := .testEmpty } else none
  | .testEmpty =>
      if s.buffers = [] then
        match w with
        | .source => some { s with pc := .waitLock }
        | .released => some { s with owner := none, pc := .waiting }
      else some { s with pc := .swap }
  | .waitLock =>
      if s.owner = none then some { s with owner := some .logger, pc := .waitEnter } else none
  | .waitEnter => some { s with owner := none, pc := .waiting }
  | .waiting => some { s with pc := .reacquire }
  | .reacquire =>
      if s.owner = none then
        match w with
        | .source => some { s with owner := some .logger, pc := .waitUnlock }
        | .released => some { s with owner := some .logger, pc := .swap }
      else none
  | .waitUnlock => some { s with owner := none, pc := .swap }
  | .swap => some (swapBuffers s)
  | .unlock => some { s with owner := none, pc := .drop }
  | .drop =>
      if s.buffersToWrite = [] then some { s with fault := some .assertBatch }
      else if 25 < s.buffersToWrite.length then
        some { s with
          output := s.output ++ [.notice now (s.buffersToWrite.length - 2)]
          buffersToWrite := s.buffersToWrite.take 2
          pc := .write 0 }
      else some { s with pc := .write 0 }
  | .write i =>
      match s.buffersToWrite[i]? with
      | none => some { s with pc := .recycle }
      | some none => some { s with fault := some .nullBuffer }
      | some (some b) =>
          some { s with output := s.output ++ [.buffer b.content], pc := .write (i + 1) }
  | .recycle => some (recycle s)
  | .finish => some { s with pc := .exited }
  | .exited => none

/-- The step function. Nothing moves after a fault. -/
def step (w : WaitForSeconds) (s : State) (a : Action) : Option State :=
  if s.fault.isSome then none
  else
    match a with
    | .start =>
        if s.main = .created ∧ s.pc = .notStarted then
          some { s with running := true, main := .starting, pc := .entry }
        else none
    | .startReturn =>
        if s.main = .starting ∧ s.latch = 0 then some { s with main := .started } else none
    | .stop =>
        if s.main = .started then some { s with running := false, main := .stopping } else none
    | .stopReturn =>
        if s.main = .stopping ∧ s.pc = .exited then some { s with main := .stopped } else none
    | .callAppend i line =>
        match s.callers i with
        | .out => some { s with callers := Function.update s.callers i (.lock line) }
        | _ => none
    | .acquire i =>
        match s.callers i, s.owner with
        | .lock line, none =>
            some { s with
              owner := some (.caller i)
              callers := Function.update s.callers i (.body line) }
        | _, _ => none
    | .appendBody i =>
        match s.callers i with
        | .body line => some (append s i line)
        | _ => none
    | .appendReturn i =>
        match s.callers i with
        | .unlock line =>
            some { s with
              owner := none
              callers := Function.update s.callers i .out
              returned := s.returned ++ [line] }
        | _ => none
    | .logger now => loggerStep w now s

/-- The logger machine, for a reading of `waitForSeconds`. -/
def machine (w : WaitForSeconds) : Machine State Action where
  initial := fun s => s = create
  step := step w

end AsyncLogging

end Base

end SoL
