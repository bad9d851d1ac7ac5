import SoL.Base.AsyncLogging.Buffers
import SoL.Base.AsyncLogging.Lock

/-!
# Does `stop` return?

Once `running_` is cleared the logging thread takes at most one more batch, of at most 25
buffers, so its steps are bounded, whatever the callers do. When nothing but new calls of
`append` could go on, all calls of `append` and `stop` have returned, or, with the code as it
stands, the logging thread waits for its own mutex (`stop_returns`).
-/

namespace SoL

namespace Base

namespace AsyncLogging

open Transition

def Action.isLogger : Action → Bool
  | .logger _ => true
  | _ => false

def Action.isCall : Action → Bool
  | .callAppend _ _ => true
  | _ => false

/-- What `stop` relies on in every reachable state. -/
structure Stoppable (w : WaitForSeconds) (s : State) : Prop where
  shape : Shape s
  lock : LockInv w s
  born : unborn s.pc = true → s.main = .created ∨ s.main = .starting
  cleared : s.main = .stopping ∨ s.main = .stopped → s.running = false
  joined : s.main = .stopped → s.pc = .exited
  short : ∀ i, s.pc = .write i → s.buffersToWrite.length ≤ 25

/-- How many steps the logging thread has to its end, at most, when `running_` is cleared. -/
def LoggerPc.weight : LoggerPc → ℕ
  | .notStarted | .entry | .exited => 0
  | .finish => 1
  | .head => 2
  | .recycle => 3
  | .write i => 4 + (25 - i)
  | .drop => 30
  | .unlock => 31
  | .swap => 32
  | .waitUnlock => 33
  | .reacquire => 34
  | .waiting => 35
  | .waitEnter => 36
  | .waitLock => 37
  | .testEmpty => 38
  | .lock => 39

section

variable {w : WaitForSeconds} {s t : State} {a : Action}

theorem stoppable_create : Stoppable w create where
  shape := shape_create
  lock := lockInv_create w
  born := fun _ => .inl rfl
  cleared := by simp [create]
  joined := by simp [create]
  short := by simp [create]

/-- A step of the logging thread. -/
theorem Stoppable.proceed (h : Stoppable w s) (hshape : Shape t) (hlock : LockInv w t)
    (hmain : t.main = s.main ∧ t.running = s.running) (hpc : s.pc ≠ .exited)
    (hborn : unborn t.pc = false)
    (hshort : ∀ i, t.pc = .write i → t.buffersToWrite.length ≤ 25) : Stoppable w t where
  shape := hshape
  lock := hlock
  born := fun hunborn => by simp [hborn] at hunborn
  cleared := by
    rw [hmain.1, hmain.2]
    exact h.cleared
  joined := fun hstopped => absurd (h.joined (hmain.1 ▸ hstopped)) hpc
  short := hshort

theorem stoppable_step (h : Stoppable w s) (hstep : step w s a = some t) : Stoppable w t := by
  have hshape := shape_step h.shape hstep
  have hlock := lockInv_step h.lock hstep
  obtain ⟨-, htrans⟩ := trans_of_step hstep
  have hborn := h.born
  have hcleared := h.cleared
  have hjoined := h.joined
  have hshort := h.short
  cases htrans with
  | fault _ f hf => exact absurd hf (not_faultAt h.shape a f)
  | start hmain => exact ⟨hshape, hlock, fun _ => .inr rfl, by simp, by simp, by simp⟩
  | startReturn hmain hlatch =>
      refine ⟨hshape, hlock, fun hpc => ?_, by simp, by simp, hshort⟩
      simp [h.shape.latch hpc] at hlatch
  | stop hmain =>
      refine ⟨hshape, hlock, fun hpc => ?_, fun _ => rfl, by simp, hshort⟩
      simp [hmain] at hborn
      simp [hborn] at hpc
  | stopReturn hmain hpc =>
      exact ⟨hshape, hlock, by simp [hpc, unborn], fun _ => hcleared (.inl hmain), fun _ => hpc,
        hshort⟩
  | callAppend | acquire | appendFits | appendFull | appendReturn =>
      exact ⟨hshape, hlock, hborn, hcleared, hjoined, hshort⟩
  | drop now hpc hlong =>
      refine h.proceed hshape hlock ⟨rfl, rfl⟩ (by simp [hpc]) rfl fun i _ => ?_
      exact (List.length_take_le 2 s.buffersToWrite).trans (by omega)
  | keep now hpc hempty hlen =>
      exact h.proceed hshape hlock ⟨rfl, rfl⟩ (by simp [hpc]) rfl fun _ _ => hlen
  | write now i b hpc hbuf =>
      exact h.proceed hshape hlock ⟨rfl, rfl⟩ (by simp [hpc]) rfl fun _ _ => hshort i hpc
  | recycle now hpc hf =>
      obtain ⟨b1, b2, -, -, heq⟩ := recycle_eq h.shape hpc
      refine h.proceed hshape hlock ?_ (by simp [hpc]) ?_ ?_
      all_goals simp [heq, unborn]
  | swap now hpc =>
      exact h.proceed hshape hlock ⟨rfl, rfl⟩ (by simp [hpc]) rfl (by simp [swapBuffers])
  | entry now hpc | again now hpc | leave now hpc | lock now hpc | waitSource now hpc
  | waitReleased now hpc | noWait now hpc | waitLock now hpc | waitEnter now hpc | wake now hpc
  | reacquireSource now hpc | reacquireReleased now hpc | waitUnlock now hpc | unlock now hpc
  | written now i hpc | finish now hpc =>
      exact h.proceed hshape hlock ⟨rfl, rfl⟩ (by simp [hpc]) rfl (by simp)

theorem stoppable_of_exec {as : List Action} (h : (machine w).exec create as = some s) :
    Stoppable w s :=
  (machine w).exec_invariant_of_step (fun _ _ _ hs hstep => stoppable_step hs hstep)
    stoppable_create h

/-- `stop` has been called, and may have returned. -/
structure Stopping (w : WaitForSeconds) (s : State) : Prop where
  stoppable : Stoppable w s
  main : s.main = .stopping ∨ s.main = .stopped

theorem Stopping.running (h : Stopping w s) : s.running = false := h.stoppable.cleared h.main

theorem Stopping.born (h : Stopping w s) : unborn s.pc = false := by
  by_contra hpc
  have hborn := h.stoppable.born (by simpa using hpc)
  have hmain := h.main
  obtain hcreated | hstarting := hborn
  · simp [hcreated] at hmain
  · simp [hstarting] at hmain

/-- After `stop` every step of the logging thread brings it nearer to its end. -/
theorem Stopping.step (h : Stopping w s) (hstep : step w s a = some t) :
    Stopping w t ∧ t.pc.weight + (if a.isLogger then 1 else 0) ≤ s.pc.weight := by
  have hstoppable := stoppable_step h.stoppable hstep
  have hmain := h.main
  have hrunning := h.running
  have hborn := h.born
  obtain ⟨-, htrans⟩ := trans_of_step hstep
  cases htrans with
  | fault _ f hf => exact absurd hf (not_faultAt h.stoppable.shape a f)
  | start hcreated => simp [hcreated] at hmain
  | startReturn hstarting => simp [hstarting] at hmain
  | stop hstarted => simp [hstarted] at hmain
  | stopReturn => exact ⟨⟨hstoppable, .inr rfl⟩, le_rfl⟩
  | callAppend | acquire | appendFits | appendFull | appendReturn =>
      exact ⟨⟨hstoppable, hmain⟩, le_rfl⟩
  | entry now hpc => simp [hpc, unborn] at hborn
  | again now hpc hrun => simp [hrun] at hrunning
  | write now i b hpc hbuf =>
      have hi := (List.getElem?_eq_some_iff.1 hbuf).1
      have hlen := h.stoppable.short i hpc
      refine ⟨⟨hstoppable, hmain⟩, ?_⟩
      rw [hpc]
      simp only [LoggerPc.weight, Action.isLogger, if_true]
      omega
  | written now i hpc =>
      refine ⟨⟨hstoppable, hmain⟩, ?_⟩
      rw [hpc]
      exact Nat.le_add_right 4 _
  | recycle now hpc hf =>
      obtain ⟨b1, b2, -, -, heq⟩ := recycle_eq h.stoppable.shape hpc
      refine ⟨⟨hstoppable, ?_⟩, ?_⟩
      · rw [heq]
        exact hmain
      · rw [heq, hpc]
        exact le_rfl
  | swap now hpc | leave now hpc | lock now hpc | waitSource now hpc | waitReleased now hpc
  | noWait now hpc | waitLock now hpc | waitEnter now hpc | wake now hpc | reacquireSource now hpc
  | reacquireReleased now hpc | waitUnlock now hpc | unlock now hpc | drop now hpc | keep now hpc
  | finish now hpc =>
      refine ⟨⟨hstoppable, hmain⟩, ?_⟩
      rw [hpc]
      first | exact le_rfl | exact Nat.le_of_ble_eq_true rfl

theorem LoggerPc.weight_le (pc : LoggerPc) : pc.weight ≤ 39 := by
  cases pc <;> simp only [LoggerPc.weight] <;> omega

/-- Nothing can go on but new calls of `append`. -/
def AtRest (w : WaitForSeconds) (s : State) : Prop := ∀ a, a.isCall = false → step w s a = none

/-- The logging thread can go on to its end, unless it waits for a mutex that is not free. -/
theorem Stopping.exists_step (h : Stopping w s) (hpc : s.pc ≠ .exited) (hself : s.pc ≠ .waitLock)
    (howner : s.owner = none ∨ s.owner = some .logger) :
    ∃ t, AsyncLogging.step w s (.logger "") = some t := by
  have hrunning := h.running
  have hborn := h.born
  have hfree : holds s.pc = false → s.owner = none := by
    intro hholds
    obtain hnone | hlogger := howner
    · exact hnone
    · simp [h.stoppable.lock.logger.1 hlogger] at hholds
  have hstep : AsyncLogging.step w s (.logger "") = loggerStep w "" s :=
    if_neg (by simp [h.stoppable.shape.fault])
  rw [hstep]
  unfold loggerStep
  cases hat : s.pc with
  | notStarted | entry => simp [hat, unborn] at hborn
  | exited => exact absurd hat hpc
  | waitLock => exact absurd hat hself
  | head => exact ⟨_, if_neg (by simp [hrunning])⟩
  | lock => exact ⟨_, if_pos (hfree (by rw [hat]; rfl))⟩
  | testEmpty =>
      by_cases hempty : s.buffers = []
      · cases w <;> exact ⟨_, if_pos hempty⟩
      · exact ⟨_, if_neg hempty⟩
  | reacquire =>
      cases w <;> exact ⟨_, if_pos (hfree (by rw [hat]; rfl))⟩
  | drop =>
      by_cases hempty : s.buffersToWrite = []
      · exact ⟨_, if_pos hempty⟩
      · by_cases hlong : 25 < s.buffersToWrite.length
        · exact ⟨_, (if_neg hempty).trans (if_pos hlong)⟩
        · exact ⟨_, (if_neg hempty).trans (if_neg hlong)⟩
  | write i =>
      dsimp only
      split <;> exact ⟨_, rfl⟩
  | waitEnter | waiting | waitUnlock | swap | unlock | recycle | finish => exact ⟨_, rfl⟩

/-- The caller inside the mutex can go on. -/
theorem AtRest.owner_ne_caller (hrest : AtRest w s) (h : Stopping w s) (i : ℕ) :
    s.owner ≠ some (.caller i) := by
  intro howner
  have hinside := (h.stoppable.lock.caller i).1 howner
  have hfault := h.stoppable.shape.fault
  cases hcaller : s.callers i with
  | out | lock line => simp [hcaller, inside] at hinside
  | body line =>
      have hstep := hrest (.appendBody i) rfl
      simp [AsyncLogging.step, hfault, hcaller] at hstep
  | unlock line =>
      have hstep := hrest (.appendReturn i) rfl
      simp [AsyncLogging.step, hfault, hcaller] at hstep

theorem AtRest.stopped (hrest : AtRest w s) (h : Stopping w s) :
    (s.main = .stopped ∧ ∀ i, s.callers i = .out) ∨ w = .source ∧ s.pc = .waitLock := by
  by_cases hself : s.pc = .waitLock
  · refine .inr ⟨?_, hself⟩
    have hreaches := h.stoppable.lock.reaches
    rw [hself] at hreaches
    exact eq_of_beq hreaches
  left
  have hfault := h.stoppable.shape.fault
  have howner : s.owner = none ∨ s.owner = some .logger := by
    cases howner : s.owner with
    | none => exact .inl rfl
    | some r =>
        cases r with
        | logger => exact .inr rfl
        | caller i => exact absurd howner (hrest.owner_ne_caller h i)
  have hexited : s.pc = .exited := by
    by_contra hpc
    obtain ⟨t, ht⟩ := h.exists_step hpc hself howner
    simp [hrest (.logger "") rfl] at ht
  have hfree : s.owner = none := by
    obtain hnone | hlogger := howner
    · exact hnone
    · have hholds := h.stoppable.lock.logger.1 hlogger
      simp [hexited, holds] at hholds
  constructor
  · obtain hstopping | hstopped := h.main
    · have hstep := hrest .stopReturn rfl
      simp [AsyncLogging.step, hfault, hstopping, hexited] at hstep
    · exact hstopped
  · intro i
    have hout := h.stoppable.lock.not_inside (fun j => by simp [hfree]) i
    cases hcaller : s.callers i with
    | out => rfl
    | lock line =>
        have hstep := hrest (.acquire i) rfl
        simp [AsyncLogging.step, hfault, hcaller, hfree] at hstep
    | body line | unlock line => simp [hcaller, inside] at hout

/-- After `stop` has been called the logging thread takes at most 39 steps, in every
interleaving with any calls of `append`. In a state where nothing but new calls can go on,
`stop` and every `append` have returned, or the thread waits for its own mutex: this happens
with the code as it stands only. -/
theorem stop_returns {as bs : List Action} (hexec : (machine w).exec create as = some s)
    (hstop : s.main = .stopping) (hrun : (machine w).exec s bs = some t) :
    bs.countP Action.isLogger ≤ 39 ∧
      (AtRest w t → (t.main = .stopped ∧ ∀ i, t.callers i = .out) ∨
        w = .source ∧ t.pc = .waitLock) := by
  obtain ⟨hstopping, -, hcount⟩ := (machine w).countP_le_of_variant (G := fun _ => False)
    (P := fun _ => True) (p := Action.isLogger) (f := fun u => u.pc.weight)
    (fun u a v (hu : Stopping w u) _ hv => ⟨(hu.step hv).1, id, fun _ => (hu.step hv).2⟩)
    ⟨stoppable_of_exec hexec, .inl hstop⟩ (fun _ _ => trivial) hrun
  have hle := hcount not_false
  have hweight := LoggerPc.weight_le s.pc
  exact ⟨by omega, fun hrest => hrest.stopped hstopping⟩

/-- A line, and `stop` before the logging thread has come to the mutex. -/
def oneLineStopped : List Action :=
  [.start, .logger "", .startReturn, .callAppend 0 [65, 10], .acquire 0, .appendBody 0,
    .appendReturn 0, .logger "", .stop]

/-- With the code as it stands `stop` does not return: the line is in the current buffer, and
`buffers_` is empty. -/
theorem stop_returns_oneLineStopped :
    ∃ s t, (machine .source).exec create oneLineStopped = some s ∧
      (machine .source).exec s [.logger "", .logger ""] = some t ∧ AtRest .source t ∧
      t.main = .stopping ∧ t.pc = .waitLock := by
  have hruns : ∃ s t, (machine .source).exec create oneLineStopped = some s ∧
      (machine .source).exec s [.logger "", .logger ""] = some t ∧ s.main = .stopping ∧
      t.main = .stopping ∧ t.pc = .waitLock ∧ t.owner = some .logger ∧ t.fault = none ∧
      ∀ i, t.callers i = .out :=
    ⟨_, _, rfl, rfl, rfl, rfl, rfl, rfl, rfl, fun i => by cases i <;> rfl⟩
  obtain ⟨s, t, hexec, hrun, hstop, hmain, hpc, howner, hfault, hout⟩ := hruns
  have hrest : AtRest .source t := by
    intro a ha
    cases a with
    | callAppend i line => cases ha
    | logger now => simp [AsyncLogging.step, loggerStep, hfault, hpc, howner]
    | start | startReturn | stop | stopReturn | acquire | appendBody | appendReturn =>
        simp [AsyncLogging.step, hfault, hmain, hpc, hout]
  refine ⟨s, t, hexec, hrun, hrest, hmain, ?_⟩
  obtain ⟨hstopped, -⟩ | hself := (stop_returns hexec hstop hrun).2 hrest
  · simp [hmain] at hstopped
  · exact hself.2

end

end AsyncLogging

end Base

end SoL
