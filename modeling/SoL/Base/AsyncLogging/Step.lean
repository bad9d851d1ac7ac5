import SoL.Base.AsyncLogging.Machine

/-!
# What one step of the logger can do

`FaultAt s a f` lists the ways in which a step ends in a fault and
`Trans w s a t` lists every step with its guard and its result. The step
function is inverted once, in `trans_of_step`; the invariants of the following
files are proved by cases on `Trans` and never unfold the step function again.
-/

namespace SoL

namespace Base

namespace AsyncLogging

/-- The step `a` runs into the fault `f`. -/
inductive FaultAt (s : State) : Action → Fault → Prop
  | append (i : ℕ) (line : List UInt8) (hcaller : s.callers i = .body line)
      (hnull : s.currentBuffer = none) : FaultAt s (.appendBody i) .nullBuffer
  | entry (now : String) (hpc : s.pc = .entry) (hrun : s.running = false) :
      FaultAt s (.logger now) .assertRunning
  | head (now : String) (hpc : s.pc = .head)
      (hready : (spareReady s.newBuffer1 && spareReady s.newBuffer2 &&
        s.buffersToWrite.isEmpty) = false) : FaultAt s (.logger now) .assertHead
  | drop (now : String) (hpc : s.pc = .drop) (hempty : s.buffersToWrite = []) :
      FaultAt s (.logger now) .assertBatch
  | write (now : String) (i : ℕ) (hpc : s.pc = .write i)
      (hnull : s.buffersToWrite[i]? = some none) : FaultAt s (.logger now) .nullBuffer
  | recycle (now : String) (f : Fault) (hpc : s.pc = .recycle)
      (hf : (recycle s).fault = some f) : FaultAt s (.logger now) f

/-- The step `a` leads from `s` to `t`, in the reading `w` of
`waitForSeconds`. -/
inductive Trans (w : WaitForSeconds) (s : State) : Action → State → Prop
  | fault (a : Action) (f : Fault) (hf : FaultAt s a f) :
      Trans w s a { s with fault := some f }
  | start (hmain : s.main = .created) (hpc : s.pc = .notStarted) :
      Trans w s .start { s with running := true, main := .starting, pc := .entry }
  | startReturn (hmain : s.main = .starting) (hlatch : s.latch = 0) :
      Trans w s .startReturn { s with main := .started }
  | stop (hmain : s.main = .started) :
      Trans w s .stop { s with running := false, main := .stopping }
  | stopReturn (hmain : s.main = .stopping) (hpc : s.pc = .exited) :
      Trans w s .stopReturn { s with main := .stopped }
  | callAppend (i : ℕ) (line : List UInt8) (hcaller : s.callers i = .out) :
      Trans w s (.callAppend i line)
        { s with callers := Function.update s.callers i (.lock line) }
  | acquire (i : ℕ) (line : List UInt8) (hcaller : s.callers i = .lock line)
      (howner : s.owner = none) :
      Trans w s (.acquire i) { s with
        owner := some (.caller i)
        callers := Function.update s.callers i (.body line) }
  | appendFits (i : ℕ) (line : List UInt8) (b : Buffer)
      (hcaller : s.callers i = .body line) (hcur : s.currentBuffer = some b)
      (hfit : line.length < b.avail) :
      Trans w s (.appendBody i) { s with
        currentBuffer := some (b.append line)
        callers := Function.update s.callers i (.unlock line)
        appended := s.appended ++ [line] }
  | appendFull (i : ℕ) (line : List UInt8) (b : Buffer)
      (hcaller : s.callers i = .body line) (hcur : s.currentBuffer = some b)
      (hfit : ¬ line.length < b.avail) :
      Trans w s (.appendBody i) { s with
        buffers := s.buffers ++ [some b]
        currentBuffer := some ((s.nextBuffer.getD (.new kLargeBuffer)).append line)
        nextBuffer := none
        callers := Function.update s.callers i (.unlock line)
        appended := s.appended ++ [line] }
  | appendReturn (i : ℕ) (line : List UInt8) (hcaller : s.callers i = .unlock line) :
      Trans w s (.appendReturn i) { s with
        owner := none
        callers := Function.update s.callers i .out
        returned := s.returned ++ [line] }
  | entry (now : String) (hpc : s.pc = .entry) (hrun : s.running = true) :
      Trans w s (.logger now) { s with
        latch := s.latch - 1
        newBuffer1 := some (.new kLargeBuffer)
        newBuffer2 := some (.new kLargeBuffer)
        buffersToWrite := []
        pc := .head }
  | again (now : String) (hpc : s.pc = .head) (hrun : s.running = true) :
      Trans w s (.logger now) { s with pc := .lock }
  | leave (now : String) (hpc : s.pc = .head) (hrun : s.running = false) :
      Trans w s (.logger now) { s with pc := .finish }
  | lock (now : String) (hpc : s.pc = .lock) (howner : s.owner = none) :
      Trans w s (.logger now) { s with owner := some .logger, pc := .testEmpty }
  | waitSource (now : String) (hpc : s.pc = .testEmpty) (hempty : s.buffers = [])
      (hw : w = .source) : Trans w s (.logger now) { s with pc := .waitLock }
  | waitReleased (now : String) (hpc : s.pc = .testEmpty) (hempty : s.buffers = [])
      (hw : w = .released) :
      Trans w s (.logger now) { s with owner := none, pc := .waiting }
  | noWait (now : String) (hpc : s.pc = .testEmpty) (hempty : s.buffers ≠ []) :
      Trans w s (.logger now) { s with pc := .swap }
  | waitLock (now : String) (hpc : s.pc = .waitLock) (howner : s.owner = none) :
      Trans w s (.logger now) { s with owner := some .logger, pc := .waitEnter }
  | waitEnter (now : String) (hpc : s.pc = .waitEnter) :
      Trans w s (.logger now) { s with owner := none, pc := .waiting }
  | wake (now : String) (hpc : s.pc = .waiting) :
      Trans w s (.logger now) { s with pc := .reacquire }
  | reacquireSource (now : String) (hpc : s.pc = .reacquire) (howner : s.owner = none)
      (hw : w = .source) :
      Trans w s (.logger now) { s with owner := some .logger, pc := .waitUnlock }
  | reacquireReleased (now : String) (hpc : s.pc = .reacquire) (howner : s.owner = none)
      (hw : w = .released) :
      Trans w s (.logger now) { s with owner := some .logger, pc := .swap }
  | waitUnlock (now : String) (hpc : s.pc = .waitUnlock) :
      Trans w s (.logger now) { s with owner := none, pc := .swap }
  | swap (now : String) (hpc : s.pc = .swap) : Trans w s (.logger now) (swapBuffers s)
  | unlock (now : String) (hpc : s.pc = .unlock) :
      Trans w s (.logger now) { s with owner := none, pc := .drop }
  | drop (now : String) (hpc : s.pc = .drop) (hlong : 25 < s.buffersToWrite.length) :
      Trans w s (.logger now) { s with
        output := s.output ++ [.notice now (s.buffersToWrite.length - 2)]
        buffersToWrite := s.buffersToWrite.take 2
        pc := .write 0 }
  | keep (now : String) (hpc : s.pc = .drop) (hempty : s.buffersToWrite ≠ [])
      (hshort : s.buffersToWrite.length ≤ 25) :
      Trans w s (.logger now) { s with pc := .write 0 }
  | write (now : String) (i : ℕ) (b : Buffer) (hpc : s.pc = .write i)
      (hbuf : s.buffersToWrite[i]? = some (some b)) :
      Trans w s (.logger now)
        { s with output := s.output ++ [.buffer b.content], pc := .write (i + 1) }
  | written (now : String) (i : ℕ) (hpc : s.pc = .write i)
      (hend : s.buffersToWrite[i]? = none) :
      Trans w s (.logger now) { s with pc := .recycle }
  | recycle (now : String) (hpc : s.pc = .recycle) (hf : (recycle s).fault = none) :
      Trans w s (.logger now) (recycle s)
  | finish (now : String) (hpc : s.pc = .finish) :
      Trans w s (.logger now) { s with pc := .exited }

/-- A `recycle` that fails changes nothing but the fault. -/
theorem recycle_eq_of_fault {s : State} {f : Fault} (hs : s.fault = none)
    (hf : (recycle s).fault = some f) : recycle s = { s with fault := some f } := by
  revert hf
  simp only [recycle]
  cases takeBack s.newBuffer1
      (if 2 < s.buffersToWrite.length then s.buffersToWrite.take 2
        else s.buffersToWrite) with
  | error g => simp +contextual
  | ok p =>
      obtain ⟨spare1, left⟩ := p
      cases h2 : takeBack s.newBuffer2 left with
      | error g => simp +contextual [h2]
      | ok q => simp [h2, hs]

theorem trans_of_loggerStep {w : WaitForSeconds} {now : String} {s t : State}
    (hs : s.fault = none) (h : loggerStep w now s = some t) :
    Trans w s (.logger now) t := by
  unfold loggerStep at h
  split at h
  case h_1 => cases h
  case h_2 hpc =>
      split at h
      case isTrue hrun =>
          cases h
          exact .entry now hpc hrun
      case isFalse hrun =>
          cases h
          exact .fault _ _ (.entry now hpc (by simpa using hrun))
  case h_3 hpc =>
      split at h
      case isTrue hrun =>
          split at h
          case isTrue _ =>
              cases h
              exact .again now hpc hrun
          case isFalse hready =>
              cases h
              exact .fault _ _ (.head now hpc (Bool.not_eq_true _ ▸ hready))
      case isFalse hrun =>
          cases h
          exact .leave now hpc (by simpa using hrun)
  case h_4 hpc =>
      split at h
      case isTrue howner =>
          cases h
          exact .lock now hpc howner
      case isFalse _ => cases h
  case h_5 hpc =>
      split at h
      case isTrue hempty =>
          cases w with
          | source =>
              cases h
              exact .waitSource now hpc hempty rfl
          | released =>
              cases h
              exact .waitReleased now hpc hempty rfl
      case isFalse hempty =>
          cases h
          exact .noWait now hpc hempty
  case h_6 hpc =>
      split at h
      case isTrue howner =>
          cases h
          exact .waitLock now hpc howner
      case isFalse _ => cases h
  case h_7 hpc =>
      cases h
      exact .waitEnter now hpc
  case h_8 hpc =>
      cases h
      exact .wake now hpc
  case h_9 hpc =>
      split at h
      case isTrue howner =>
          cases w with
          | source =>
              cases h
              exact .reacquireSource now hpc howner rfl
          | released =>
              cases h
              exact .reacquireReleased now hpc howner rfl
      case isFalse _ => cases h
  case h_10 hpc =>
      cases h
      exact .waitUnlock now hpc
  case h_11 hpc =>
      cases h
      exact .swap now hpc
  case h_12 hpc =>
      cases h
      exact .unlock now hpc
  case h_13 hpc =>
      split at h
      case isTrue hempty =>
          cases h
          exact .fault _ _ (.drop now hpc hempty)
      case isFalse hempty =>
          split at h
          case isTrue hlong =>
              cases h
              exact .drop now hpc hlong
          case isFalse hlong =>
              cases h
              exact .keep now hpc hempty (not_lt.1 hlong)
  case h_14 i hpc =>
      split at h
      case h_1 hend =>
          cases h
          exact .written now i hpc hend
      case h_2 hnull =>
          cases h
          exact .fault _ _ (.write now i hpc hnull)
      case h_3 b hbuf =>
          cases h
          exact .write now i b hpc hbuf
  case h_15 hpc =>
      cases h
      cases hf : (recycle s).fault with
      | none => exact .recycle now hpc hf
      | some f =>
          rw [recycle_eq_of_fault hs hf]
          exact .fault _ _ (.recycle now f hpc hf)
  case h_16 hpc =>
      cases h
      exact .finish now hpc
  case h_17 => cases h

theorem trans_of_append {w : WaitForSeconds} {s : State} {i : ℕ} {line : List UInt8}
    (hcaller : s.callers i = .body line) : Trans w s (.appendBody i) (append s i line) := by
  unfold append
  split
  case h_1 hnull => exact .fault _ _ (.append i line hcaller hnull)
  case h_2 b hcur =>
      split
      case isTrue hfit => exact .appendFits i line b hcaller hcur hfit
      case isFalse hfit => exact .appendFull i line b hcaller hcur hfit

/-- Every step of the machine is one of the listed transitions, and is taken
before any fault. -/
theorem trans_of_step {w : WaitForSeconds} {s t : State} {a : Action}
    (h : step w s a = some t) : s.fault = none ∧ Trans w s a t := by
  unfold step at h
  split at h
  case isTrue => cases h
  case isFalse hfault =>
      have hs : s.fault = none := by simpa using hfault
      refine ⟨hs, ?_⟩
      cases a with
      | start =>
          obtain ⟨hmain, ⟨⟩⟩ := Option.ite_none_right_eq_some.1 h
          exact .start hmain.1 hmain.2
      | startReturn =>
          obtain ⟨hmain, ⟨⟩⟩ := Option.ite_none_right_eq_some.1 h
          exact .startReturn hmain.1 hmain.2
      | stop =>
          obtain ⟨hmain, ⟨⟩⟩ := Option.ite_none_right_eq_some.1 h
          exact .stop hmain
      | stopReturn =>
          obtain ⟨hmain, ⟨⟩⟩ := Option.ite_none_right_eq_some.1 h
          exact .stopReturn hmain.1 hmain.2
      | callAppend i line =>
          dsimp only at h
          split at h
          case h_1 hcaller =>
              cases h
              exact .callAppend i line hcaller
          case h_2 => cases h
      | acquire i =>
          dsimp only at h
          split at h
          case h_1 line hcaller howner =>
              cases h
              exact .acquire i line hcaller howner
          case h_2 => cases h
      | appendBody i =>
          dsimp only at h
          split at h
          case h_1 line hcaller =>
              cases h
              exact trans_of_append hcaller
          case h_2 => cases h
      | appendReturn i =>
          dsimp only at h
          split at h
          case h_1 line hcaller =>
              cases h
              exact .appendReturn i line hcaller
          case h_2 => cases h
      | logger now => exact trans_of_loggerStep hs h

end AsyncLogging

end Base

end SoL
