import SoL.Base.AsyncLogging.Step

/-!
# The lock discipline of the logger

The mutex has the owner that the program points say it has (`LockInv`), in both
readings of `waitForSeconds`. With the code as it stands the one place where a
thread locks a mutex that it owns is the guard inside `waitForSeconds`, and it
is reached exactly when the logging thread finds `buffers_` empty. From there
nothing moves any more: the logging thread keeps the mutex and no `append` gets
past its guard (`frozen_of_waitLock`).
-/

namespace SoL

namespace Base

namespace AsyncLogging

open Transition

/-- The points at which the logging thread owns the mutex. -/
def holds : LoggerPc → Bool
  | .testEmpty | .waitLock | .swap | .unlock => true
  | _ => false

def inside : AppendPc → Bool
  | .body _ | .unlock _ => true
  | _ => false

/-- The points of `threadFunc` that a reading of `waitForSeconds` can reach. -/
def reaches (w : WaitForSeconds) : LoggerPc → Bool
  | .waitLock => w == .source
  | .waiting | .reacquire => w == .released
  | .waitEnter | .waitUnlock => false
  | _ => true

/-- The owner of the mutex is the thread that stands inside its critical
section. -/
structure LockInv (w : WaitForSeconds) (s : State) : Prop where
  caller : ∀ i, s.owner = some (.caller i) ↔ inside (s.callers i) = true
  logger : s.owner = some .logger ↔ holds s.pc = true
  reaches : reaches w s.pc = true

theorem lockInv_create (w : WaitForSeconds) : LockInv w create where
  caller := fun i => by simp [create, inside]
  logger := by simp [create, holds]
  reaches := by simp [create, AsyncLogging.reaches]

/-- A caller that moves outside the critical section, or inside it, keeps the
owner. -/
theorem LockInv.update {w : WaitForSeconds} {s : State} (h : LockInv w s) {i : ℕ}
    {p : AppendPc} (hp : inside p = inside (s.callers i)) :
    ∀ j, s.owner = some (.caller j) ↔
      inside (Function.update s.callers i p j) = true := by
  intro j
  by_cases hj : j = i
  · subst j
    rw [Function.update_self, hp]
    exact h.caller i
  · rw [Function.update_of_ne hj]
    exact h.caller j

/-- While the logging thread or nobody owns the mutex, no caller is inside. -/
theorem LockInv.not_inside {w : WaitForSeconds} {s : State} (h : LockInv w s)
    (howner : ∀ i, s.owner ≠ some (.caller i)) (i : ℕ) :
    inside (s.callers i) = false := by
  by_contra hi
  exact howner i ((h.caller i).2 (by simpa using hi))

theorem LockInv.owner_of_inside {w : WaitForSeconds} {s : State} (h : LockInv w s)
    {i : ℕ} (hi : inside (s.callers i) = true) : s.owner = some (.caller i) :=
  (h.caller i).2 hi

theorem LockInv.not_holds {w : WaitForSeconds} {s : State} (h : LockInv w s)
    (howner : s.owner ≠ some .logger) : holds s.pc = false := by
  by_contra hpc
  exact howner (h.logger.2 (by simpa using hpc))

/-- A step of the logging thread that leaves the owner alone moves between two
points of the same ownership. -/
theorem LockInv.move {w : WaitForSeconds} {s t : State} (h : LockInv w s)
    (howner : t.owner = s.owner) (hcallers : t.callers = s.callers)
    (hholds : holds t.pc = holds s.pc) (hreach : AsyncLogging.reaches w t.pc = true) :
    LockInv w t where
  caller := by
    rw [howner, hcallers]
    exact h.caller
  logger := by
    rw [howner, hholds]
    exact h.logger
  reaches := hreach

/-- The logging thread takes the free mutex. -/
theorem LockInv.take {w : WaitForSeconds} {s t : State} (h : LockInv w s)
    (hfree : s.owner = none) (howner : t.owner = some .logger)
    (hcallers : t.callers = s.callers) (hholds : holds t.pc = true)
    (hreach : AsyncLogging.reaches w t.pc = true) :
    LockInv w t where
  caller := fun i => by
    have hi := h.not_inside (fun j => by simp [hfree]) i
    simp [howner, hcallers, hi]
  logger := by simp [howner, hholds]
  reaches := hreach

/-- The logging thread gives the mutex back. -/
theorem LockInv.give {w : WaitForSeconds} {s t : State} (h : LockInv w s)
    (hown : holds s.pc = true) (howner : t.owner = none)
    (hcallers : t.callers = s.callers) (hholds : holds t.pc = false)
    (hreach : AsyncLogging.reaches w t.pc = true) :
    LockInv w t where
  caller := fun i => by
    have hlogger := h.logger.2 hown
    have hi := h.not_inside (fun j => by simp [hlogger]) i
    simp [howner, hcallers, hi]
  logger := by simp [howner, hholds]
  reaches := hreach

theorem recycle_frame {s : State} (hf : (recycle s).fault = none) :
    (recycle s).owner = s.owner ∧ (recycle s).callers = s.callers ∧
      (recycle s).pc = .head := by
  revert hf
  simp only [recycle]
  cases takeBack s.newBuffer1
      (if 2 < s.buffersToWrite.length then s.buffersToWrite.take 2
        else s.buffersToWrite) with
  | error f => simp
  | ok p =>
      obtain ⟨spare1, left⟩ := p
      cases h2 : takeBack s.newBuffer2 left with
      | error f => simp [h2]
      | ok q => simp [h2]

theorem lockInv_step {w : WaitForSeconds} {s t : State} {a : Action}
    (h : LockInv w s) (hstep : step w s a = some t) : LockInv w t := by
  obtain ⟨-, htrans⟩ := trans_of_step hstep
  have hreach := h.reaches
  cases htrans with
  | fault _ f hf => exact h.move rfl rfl rfl hreach
  | start hmain hpc => exact h.move rfl rfl (by simp [hpc, holds]) rfl
  | startReturn hmain hlatch => exact h.move rfl rfl rfl hreach
  | stop hmain => exact h.move rfl rfl rfl hreach
  | stopReturn hmain hpc => exact h.move rfl rfl rfl hreach
  | callAppend i line hcaller =>
      exact ⟨h.update (by simp [hcaller, inside]), h.logger, hreach⟩
  | acquire i line hcaller howner =>
      refine ⟨fun j => ?_, ?_, hreach⟩
      · by_cases hj : j = i
        · subst j
          simp [inside]
        · have hji := h.not_inside (fun k => by simp [howner]) j
          simp [Function.update_of_ne hj, hji, Ne.symm hj]
      · have hpc := h.not_holds (by simp [howner])
        simp [hpc]
  | appendFits i line b hcaller hcur hfit =>
      exact ⟨h.update (by simp [hcaller, inside]), h.logger, hreach⟩
  | appendFull i line b hcaller hcur hfit =>
      exact ⟨h.update (by simp [hcaller, inside]), h.logger, hreach⟩
  | appendReturn i line hcaller =>
      have howner := h.owner_of_inside (i := i) (by simp [hcaller, inside])
      refine ⟨fun j => ?_, ?_, hreach⟩
      · by_cases hj : j = i
        · subst j
          simp [inside]
        · have hji : inside (s.callers j) = false := by
            by_contra hin
            have := h.owner_of_inside (i := j) (by simpa using hin)
            rw [howner] at this
            simp [Ne.symm hj] at this
          simp [Function.update_of_ne hj, hji]
      · have hpc := h.not_holds (by simp [howner])
        simp [hpc]
  | entry now hpc hrun => exact h.move rfl rfl (by simp [hpc, holds]) rfl
  | again now hpc hrun => exact h.move rfl rfl (by simp [hpc, holds]) rfl
  | leave now hpc hrun => exact h.move rfl rfl (by simp [hpc, holds]) rfl
  | lock now hpc howner => exact h.take howner rfl rfl rfl rfl
  | waitSource now hpc hempty hw =>
      subst hw
      exact h.move rfl rfl (by simp [hpc, holds]) rfl
  | waitReleased now hpc hempty hw =>
      subst hw
      exact h.give (by simp [hpc, holds]) rfl rfl rfl rfl
  | noWait now hpc hempty => exact h.move rfl rfl (by simp [hpc, holds]) rfl
  | waitLock now hpc howner =>
      have hlogger := h.logger.2 (by simp [hpc, holds])
      simp [howner] at hlogger
  | waitEnter now hpc => simp [hpc, AsyncLogging.reaches] at hreach
  | wake now hpc =>
      exact h.move rfl rfl (by simp [hpc, holds])
        (by simpa [hpc, AsyncLogging.reaches] using hreach)
  | reacquireSource now hpc howner hw =>
      subst hw
      simp [hpc, AsyncLogging.reaches] at hreach
  | reacquireReleased now hpc howner hw => exact h.take howner rfl rfl rfl rfl
  | waitUnlock now hpc => simp [hpc, AsyncLogging.reaches] at hreach
  | swap now hpc => exact h.move rfl rfl (by simp [hpc, holds, swapBuffers]) rfl
  | unlock now hpc => exact h.give (by simp [hpc, holds]) rfl rfl rfl rfl
  | drop now hpc hlong => exact h.move rfl rfl (by simp [hpc, holds]) rfl
  | keep now hpc hempty hshort => exact h.move rfl rfl (by simp [hpc, holds]) rfl
  | write now i b hpc hbuf => exact h.move rfl rfl (by simp [hpc, holds]) rfl
  | written now i hpc hend => exact h.move rfl rfl (by simp [hpc, holds]) rfl
  | recycle now hpc hf =>
      obtain ⟨howner, hcallers, hhead⟩ := recycle_frame hf
      exact h.move howner hcallers (by simp [hpc, hhead, holds])
        (by simp [hhead, AsyncLogging.reaches])
  | finish now hpc => exact h.move rfl rfl (by simp [hpc, holds]) rfl

/-- In every run the mutex has one owner at a time, the thread inside. -/
theorem lockInv_of_exec {w : WaitForSeconds} {as : List Action} {s : State}
    (h : (machine w).exec create as = some s) : LockInv w s :=
  (machine w).exec_invariant_of_step (fun _ _ _ hs hstep => lockInv_step hs hstep)
    (lockInv_create w) h

/-- The thread is at a call of `MutexLock::lock`. -/
def locking (s : State) : Thread → Prop
  | .logger => s.pc = .lock ∨ s.pc = .waitLock
  | .caller i => ∃ line, s.callers i = .lock line

/-- No thread is at a lock operation on a mutex that it owns. -/
def noSelfLock (s : State) : Prop :=
  ∀ r, locking s r → s.owner ≠ some r

/-- The step is the test `buffers_.empty()` of `threadFunc`, and the vector is
empty. -/
def findsEmpty (s : State) (a : Action) : Prop :=
  (∃ now, a = .logger now) ∧ s.pc = .testEmpty ∧ s.buffers = []

/-- The only lock operation on an owned mutex is the one of `waitForSeconds`. -/
theorem noSelfLock_iff_ne_waitLock {w : WaitForSeconds} {s : State} (h : LockInv w s) :
    noSelfLock s ↔ s.pc ≠ .waitLock := by
  constructor
  · intro hself hpc
    exact hself .logger (Or.inr hpc) (h.logger.2 (by simp [hpc, holds]))
  · intro hpc r hr howner
    cases r with
    | logger =>
        rcases hr with hlock | hwait
        · have := h.logger.1 howner
          simp [hlock, holds] at this
        · exact hpc hwait
    | caller i =>
        obtain ⟨line, hline⟩ := hr
        have := (h.caller i).1 howner
        simp [hline, inside] at this

/-- One step of the code as it stands reaches the guard of `waitForSeconds`
exactly when it finds `buffers_` empty. -/
theorem ne_waitLock_iff_not_findsEmpty {s t : State} {a : Action}
    (hpc : s.pc ≠ .waitLock)
    (hstep : step .source s a = some t) :
    t.pc ≠ .waitLock ↔ ¬ findsEmpty s a := by
  obtain ⟨-, htrans⟩ := trans_of_step hstep
  cases htrans with
  | waitSource now htest hempty hw =>
      have hfinds : findsEmpty s (.logger now) := ⟨⟨now, rfl⟩, htest, hempty⟩
      simp [hfinds]
  | noWait now htest hempty => simp [findsEmpty, hempty]
  | fault a f hf =>
      have hnot : ¬ findsEmpty s a := by
        rintro ⟨⟨now, rfl⟩, htest, -⟩
        cases hf <;> simp_all
      simp [hnot, hpc]
  | recycle now hrec hf =>
      obtain ⟨-, -, hhead⟩ := recycle_frame hf
      simp [findsEmpty, hhead, hrec]
  | waitLock now hwait howner => exact absurd hwait hpc
  | waitReleased now htest hempty hw => cases hw
  | swap now hswap => simp [findsEmpty, hswap, swapBuffers]
  | start | startReturn | stop | stopReturn | callAppend | acquire | appendFits
  | appendFull | appendReturn => simp [findsEmpty, hpc]
  | _ => simp_all [findsEmpty]

/-- In every run of the code as it stands, no thread ever locks a mutex that it
owns exactly when the logging thread never finds `buffers_` empty. -/
theorem always_noSelfLock_iff (as : List Action) :
    (machine .source).always noSelfLock create as ↔
      (machine .source).along (fun s a => ¬ findsEmpty s a) create as := by
  refine (machine .source).always_iff_along
    (fun _ _ _ hs hstep => lockInv_step hs hstep) ?_ as (lockInv_create .source) ?_
  · intro s a t hs hself hstep
    rw [noSelfLock_iff_ne_waitLock (lockInv_step hs hstep)]
    exact ne_waitLock_iff_not_findsEmpty
      ((noSelfLock_iff_ne_waitLock hs).1 hself) hstep
  · rw [noSelfLock_iff_ne_waitLock (lockInv_create .source)]
    simp [create]

/-- A logging thread that nobody has written to locks the mutex twice in its
first iteration. -/
theorem selfLock_reachable :
    ¬ ∀ as s, (machine .source).exec create as = some s → noSelfLock s := by
  intro h
  have hrun : ∃ s, (machine .source).exec create
      [.start, .logger "", .logger "", .logger "", .logger ""] = some s ∧
        s.pc = .waitLock ∧ s.owner = some .logger := ⟨_, rfl, rfl, rfl⟩
  obtain ⟨s, hexec, hpc, howner⟩ := hrun
  exact h _ s hexec .logger (Or.inr hpc) howner

/-- Once the logging thread waits for its own mutex it waits for ever, and no
line is stored any more. -/
theorem frozen_of_waitLock {s t : State} {bs : List Action} (h : LockInv .source s)
    (hpc : s.pc = .waitLock) (hexec : (machine .source).exec s bs = some t) :
    t.pc = .waitLock ∧ t.owner = some .logger ∧ t.appended = s.appended := by
  have hframe : LockInv .source t ∧ t.pc = .waitLock ∧ t.appended = s.appended := by
    refine (machine .source).exec_invariant_of_step
      (I := fun r => LockInv .source r ∧ r.pc = .waitLock ∧ r.appended = s.appended)
      ?_ ⟨h, hpc, rfl⟩ hexec
    rintro r a u ⟨hr, hrpc, happ⟩ hstep
    refine ⟨lockInv_step hr hstep, ?_⟩
    have howner := hr.logger.2 (by simp [hrpc, holds])
    have hout : ∀ i, inside (r.callers i) = false :=
      hr.not_inside fun j => by simp [howner]
    obtain ⟨-, htrans⟩ := trans_of_step hstep
    cases htrans with
    | fault a f hf => exact ⟨hrpc, happ⟩
    | startReturn | stop | callAppend | acquire => exact ⟨hrpc, happ⟩
    | appendFits i line b hcaller hcur hfit =>
        have := hout i
        simp [hcaller, inside] at this
    | appendFull i line b hcaller hcur hfit =>
        have := hout i
        simp [hcaller, inside] at this
    | appendReturn i line hcaller => exact ⟨hrpc, happ⟩
    | _ => simp_all
  exact ⟨hframe.2.1, hframe.1.logger.2 (by simp [hframe.2.1, holds]), hframe.2.2⟩

end AsyncLogging

end Base

end SoL
