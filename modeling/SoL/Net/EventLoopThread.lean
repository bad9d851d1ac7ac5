import SoL.Transition.Machine
import Mathlib.Tactic

/-!
# The start of a worker loop

`startLoop` starts a thread and waits on a condition variable until `threadFunc`
has published the address of its loop. The two threads share `loop_` under a
mutex, except for the last read of it, which is made without the mutex. A wait
releases the mutex and blocks in one step; it ends by a `notify` or for no reason
at all, and then the mutex has to be locked again. `EventLoop::loop` does not
return.

`Thread::start` only logs that `pthread_create` has failed. If it succeeds, no
`notify` is missed, and the address returned is the one that was published; if it
fails, `startLoop` waits for a thread that does not exist (`handshake_iff`).
-/

namespace SoL

namespace Net

open Transition

namespace EventLoopThread

/-- The address of a loop; `loop_` is `NULL` for none. -/
abbrev Address := ℕ

def NULL : Address := 0

/-- `startLoop`, with `Thread::start` in it. -/
inductive CallerPc
  | entry
  | starting
  | creating
  | locking
  | testing
  | waiting
  | reacquiring
  | unlocking
  | reading
  | returned (loop : Address)
  | aborted
  deriving DecidableEq

/-- `threadFunc`. -/
inductive WorkerPc
  | absent
  | constructing
  | locking (loop : Address)
  | publishing (loop : Address)
  | notifying (loop : Address)
  | unlocking (loop : Address)
  | looping (loop : Address)
  deriving DecidableEq

inductive Party
  | caller
  | worker
  deriving DecidableEq

structure State where
  started : Bool
  loop : Address
  mutex : Option Party
  caller : CallerPc
  worker : WorkerPc
  deriving DecidableEq

/-- The object before the call of `startLoop`. -/
def create : State where
  started := false
  loop := NULL
  mutex := none
  caller := .entry
  worker := .absent

/-- The steps: of `startLoop`, with the result of `pthread_create` apart, a wait
that ends without a reason, and of `threadFunc`, with the address of its loop. -/
inductive Action
  | startLoop
  | pthreadCreate (ok : Bool)
  | spurious
  | threadFunc (address : Address)
  deriving DecidableEq

def callerStep (s : State) : Option State :=
  match s.caller with
  | .entry => some { s with caller := if s.started then .aborted else .starting }
  | .starting =>
      if s.started then some { s with caller := .aborted }
      else some { s with started := true, caller := .creating }
  | .locking | .reacquiring =>
      if s.mutex.isNone then some { s with mutex := some .caller, caller := .testing } else none
  | .testing =>
      if s.loop = NULL then some { s with mutex := none, caller := .waiting }
      else some { s with caller := .unlocking }
  | .unlocking => some { s with mutex := none, caller := .reading }
  | .reading => some { s with caller := .returned s.loop }
  | .creating | .waiting | .returned _ | .aborted => none

/-- A failure of `pthread_create` takes back `started_`, and the call goes on. -/
def createStep (s : State) (ok : Bool) : Option State :=
  match s.caller with
  | .creating =>
      if ok then some { s with worker := .constructing, caller := .locking }
      else some { s with started := false, caller := .locking }
  | _ => none

def workerStep (s : State) (address : Address) : Option State :=
  match s.worker with
  | .constructing =>
      if address = NULL then none else some { s with worker := .locking address }
  | .locking a =>
      if s.mutex.isNone then some { s with mutex := some .worker, worker := .publishing a }
      else none
  | .publishing a => some { s with loop := a, worker := .notifying a }
  | .notifying a =>
      some { s with
        caller := if s.caller = .waiting then .reacquiring else s.caller
        worker := .unlocking a }
  | .unlocking a => some { s with mutex := none, worker := .looping a }
  | .absent | .looping _ => none

def step (s : State) : Action → Option State
  | .startLoop => callerStep s
  | .pthreadCreate ok => createStep s ok
  | .spurious => if s.caller = .waiting then some { s with caller := .reacquiring } else none
  | .threadFunc address => workerStep s address

def machine : Machine State Action where
  initial := fun s => s = create
  step := step

/-- What a step can do. -/
inductive Trans (s : State) : Action → State → Prop
  | enter (hpc : s.caller = .entry) :
      Trans s .startLoop { s with caller := if s.started then .aborted else .starting }
  | abort (hpc : s.caller = .starting) (hstarted : s.started = true) :
      Trans s .startLoop { s with caller := .aborted }
  | start (hpc : s.caller = .starting) (hstarted : s.started = false) :
      Trans s .startLoop { s with started := true, caller := .creating }
  | lock (hpc : s.caller = .locking ∨ s.caller = .reacquiring) (hfree : s.mutex = none) :
      Trans s .startLoop { s with mutex := some .caller, caller := .testing }
  | wait (hpc : s.caller = .testing) (hnull : s.loop = NULL) :
      Trans s .startLoop { s with mutex := none, caller := .waiting }
  | pass (hpc : s.caller = .testing) (hloop : s.loop ≠ NULL) :
      Trans s .startLoop { s with caller := .unlocking }
  | unlock (hpc : s.caller = .unlocking) :
      Trans s .startLoop { s with mutex := none, caller := .reading }
  | read (hpc : s.caller = .reading) : Trans s .startLoop { s with caller := .returned s.loop }
  | created (hpc : s.caller = .creating) :
      Trans s (.pthreadCreate true) { s with worker := .constructing, caller := .locking }
  | failed (hpc : s.caller = .creating) :
      Trans s (.pthreadCreate false) { s with started := false, caller := .locking }
  | spurious (hpc : s.caller = .waiting) : Trans s .spurious { s with caller := .reacquiring }
  | construct (a : Address) (hpc : s.worker = .constructing) (hnull : a ≠ NULL) :
      Trans s (.threadFunc a) { s with worker := .locking a }
  | workerLock (b a : Address) (hpc : s.worker = .locking a) (hfree : s.mutex = none) :
      Trans s (.threadFunc b) { s with mutex := some .worker, worker := .publishing a }
  | publish (b a : Address) (hpc : s.worker = .publishing a) :
      Trans s (.threadFunc b) { s with loop := a, worker := .notifying a }
  | notify (b a : Address) (hpc : s.worker = .notifying a) :
      Trans s (.threadFunc b) { s with
        caller := if s.caller = .waiting then .reacquiring else s.caller
        worker := .unlocking a }
  | workerUnlock (b a : Address) (hpc : s.worker = .unlocking a) :
      Trans s (.threadFunc b) { s with mutex := none, worker := .looping a }

theorem trans_of_callerStep {s t : State} (h : callerStep s = some t) :
    Trans s .startLoop t := by
  unfold callerStep at h
  split at h
  case h_1 hpc =>
      cases h
      exact .enter hpc
  case h_2 hpc =>
      split at h
      · next hstarted =>
          cases h
          exact .abort hpc hstarted
      · next hstarted =>
          cases h
          exact .start hpc (Bool.not_eq_true _ ▸ hstarted)
  case h_3 hpc =>
      obtain ⟨hfree, ⟨⟩⟩ := Option.ite_none_right_eq_some.1 h
      exact .lock (.inl hpc) (Option.isNone_iff_eq_none.1 hfree)
  case h_4 hpc =>
      obtain ⟨hfree, ⟨⟩⟩ := Option.ite_none_right_eq_some.1 h
      exact .lock (.inr hpc) (Option.isNone_iff_eq_none.1 hfree)
  case h_5 hpc =>
      split at h
      · next hnull =>
          cases h
          exact .wait hpc hnull
      · next hloop =>
          cases h
          exact .pass hpc hloop
  case h_6 hpc =>
      cases h
      exact .unlock hpc
  case h_7 hpc =>
      cases h
      exact .read hpc
  all_goals cases h

theorem trans_of_workerStep {s t : State} {address : Address}
    (h : workerStep s address = some t) : Trans s (.threadFunc address) t := by
  unfold workerStep at h
  split at h
  case h_1 hpc =>
      obtain ⟨hnull, ⟨⟩⟩ := Option.ite_none_left_eq_some.1 h
      exact .construct address hpc hnull
  case h_2 a hpc =>
      obtain ⟨hfree, ⟨⟩⟩ := Option.ite_none_right_eq_some.1 h
      exact .workerLock address a hpc (Option.isNone_iff_eq_none.1 hfree)
  case h_3 a hpc =>
      cases h
      exact .publish address a hpc
  case h_4 a hpc =>
      cases h
      exact .notify address a hpc
  case h_5 a hpc =>
      cases h
      exact .workerUnlock address a hpc
  all_goals cases h

theorem trans_of_step {s t : State} {a : Action} (h : machine.step s a = some t) :
    Trans s a t := by
  cases a with
  | startLoop => exact trans_of_callerStep h
  | threadFunc address => exact trans_of_workerStep h
  | spurious =>
      obtain ⟨hpc, ⟨⟩⟩ := Option.ite_none_right_eq_some.1 h
      exact .spurious hpc
  | pthreadCreate ok =>
      simp only [machine, step, createStep] at h
      split at h
      case h_1 hpc =>
          cases ok with
          | true =>
              cases h
              exact .created hpc
          | false =>
              cases h
              exact .failed hpc
      case h_2 => cases h

/-- The worker exists and has not executed its `notify`. -/
@[simp] def WorkerPc.pending : WorkerPc → Bool
  | .constructing | .locking _ | .publishing _ | .notifying _ => true
  | .absent | .unlocking _ | .looping _ => false

/-- What the worker has stored in `loop_`. -/
@[simp] def WorkerPc.published : WorkerPc → Address
  | .notifying a | .unlocking a | .looping a => a
  | .absent | .constructing | .locking _ | .publishing _ => NULL

/-- The address of the worker's loop. -/
@[simp] def WorkerPc.address : WorkerPc → Option Address
  | .locking a | .publishing a | .notifying a | .unlocking a | .looping a => some a
  | .absent | .constructing => none

@[simp] def WorkerPc.holds : WorkerPc → Bool
  | .publishing _ | .notifying _ | .unlocking _ => true
  | .absent | .constructing | .locking _ | .looping _ => false

@[simp] def CallerPc.holds : CallerPc → Bool
  | .testing | .unlocking => true
  | _ => false

/-- The thread has not been created yet. -/
@[simp] def CallerPc.early : CallerPc → Bool
  | .entry | .starting | .creating => true
  | _ => false

/-- The test of the loop has found an address. -/
@[simp] def CallerPc.passed : CallerPc → Bool
  | .unlocking | .reading | .returned _ => true
  | _ => false

structure Handshake (s : State) : Prop where
  callerHolds : s.mutex = some .caller ↔ s.caller.holds = true
  workerHolds : s.mutex = some .worker ↔ s.worker.holds = true
  started : s.caller = .entry ∨ s.caller = .starting → s.started = false
  aborted : s.caller ≠ .aborted
  early : s.caller.early = true → s.worker = .absent
  loop : s.loop = s.worker.published
  address : ∀ a, s.worker.address = some a → a ≠ NULL
  waiting : s.caller = .waiting → s.worker = .absent ∨ s.worker.pending = true
  passed : s.caller.passed = true → s.loop ≠ NULL
  returned : ∀ a, s.caller = .returned a → a = s.loop

theorem handshake_create : Handshake create := by
  constructor <;> simp [create]

variable {s t : State}

/-- `startLoop` moves on once the thread has been created or not. -/
theorem Handshake.caller (h : Handshake s) {m : Option Party} {pc : CallerPc}
    (hcaller : m = some .caller ↔ pc.holds = true)
    (hworker : m = some .worker ↔ s.mutex = some .worker) (hearly : pc.early = false)
    (haborted : pc ≠ .aborted)
    (hwaiting : pc = .waiting → s.worker = .absent ∨ s.worker.pending = true)
    (hpassed : pc.passed = true → s.loop ≠ NULL)
    (hreturned : ∀ a, pc = .returned a → a = s.loop) :
    Handshake { s with mutex := m, caller := pc } where
  callerHolds := hcaller
  workerHolds := hworker.trans h.workerHolds
  started := by
    rintro (rfl | rfl)
    · simp at hearly
    · simp at hearly
  aborted := haborted
  early := fun he => absurd (hearly.symm.trans he) (by simp)
  loop := h.loop
  address := h.address
  waiting := hwaiting
  passed := hpassed
  returned := hreturned

/-- A worker whose address is not there yet has not executed its `notify`. -/
theorem Handshake.pending_of_null (h : Handshake s) (hnull : s.loop = NULL) :
    s.worker = .absent ∨ s.worker.pending = true := by
  have hloop := h.loop
  have haddress := h.address
  cases hw : s.worker with
  | unlocking a | looping a =>
      rw [hw] at hloop haddress
      exact absurd (hloop.symm.trans hnull) (haddress a rfl)
  | absent => exact .inl rfl
  | _ => exact .inr rfl

/-- Before the thread is created `startLoop` has neither locked nor waited. -/
theorem CallerPc.of_early {pc : CallerPc} (h : pc.early = true) :
    ¬ pc.holds = true ∧ ¬ pc.passed = true ∧ pc ≠ .waiting ∧ pc ≠ .aborted := by
  cases pc with
  | entry | starting | creating => simp
  | _ => simp at h

theorem Handshake.early_caller (h : Handshake s) {b : Bool} {pc : CallerPc}
    (hbefore : s.caller.early = true) (hafter : pc.early = true)
    (hstarted : pc = .entry ∨ pc = .starting → b = false) :
    Handshake { s with started := b, caller := pc } := by
  obtain ⟨hfree, -, -, -⟩ := CallerPc.of_early hbefore
  obtain ⟨hholds, hpassed, hwaiting, haborted⟩ := CallerPc.of_early hafter
  have hnot : s.mutex ≠ some .caller := fun hm => hfree (h.callerHolds.1 hm)
  exact { h with
    callerHolds := iff_of_false hnot hholds
    started := hstarted
    aborted := haborted
    early := fun _ => h.early hbefore
    waiting := fun hw => absurd hw hwaiting
    passed := fun hp => absurd hp hpassed
    returned := fun a ha => by simp [show pc = _ from ha] at hafter }

/-- `startLoop` has called `pthread_create`. -/
theorem Handshake.created (h : Handshake s) (hpc : s.caller = .creating) (b : Bool) :
    Handshake { s with started := b, caller := .locking } := by
  have hnot : s.mutex ≠ some .caller := by simp [h.callerHolds, hpc]
  exact { h with
    callerHolds := by simp [hnot]
    started := by simp
    aborted := by simp
    early := by simp
    waiting := by simp
    passed := by simp
    returned := by simp }

/-- The worker moves on. -/
theorem Handshake.worker (h : Handshake s) {l : Address} {m : Option Party} {w : WorkerPc}
    (hborn : s.worker ≠ .absent) (hcaller : m = some .caller ↔ s.mutex = some .caller)
    (hworker : m = some .worker ↔ w.holds = true) (hloop : l = w.published)
    (haddress : ∀ a, w.address = some a → a ≠ NULL) (hkeep : s.loop ≠ NULL → l = s.loop)
    (hwaiting : s.caller = .waiting → w.pending = true) :
    Handshake { s with loop := l, mutex := m, worker := w } where
  callerHolds := hcaller.trans h.callerHolds
  workerHolds := hworker
  started := h.started
  aborted := h.aborted
  early := fun he => absurd (h.early he) hborn
  loop := hloop
  address := haddress
  waiting := fun hw => .inr (hwaiting hw)
  passed := fun hp => by
    have hnull := h.passed hp
    rwa [hkeep hnull]
  returned := by
    intro a ha
    have hnull := h.passed (by simp [show s.caller = _ from ha])
    exact (h.returned a ha).trans (hkeep hnull).symm

theorem handshake_step {a : Action} (h : Handshake s) (hstep : machine.step s a = some t) :
    Handshake t := by
  have hmine := h.workerHolds
  have hloop := h.loop
  have haddress := h.address
  cases trans_of_step hstep with
  | enter hpc =>
      have hstarted := h.started (.inl hpc)
      rw [hstarted]
      exact h.early_caller (by simp [hpc]) rfl fun _ => rfl
  | abort hpc hstarted => simp [h.started (.inr hpc)] at hstarted
  | start hpc => exact h.early_caller (by simp [hpc]) rfl (by simp)
  | lock hpc hfree =>
      exact h.caller (by simp) (by simp [hfree]) rfl (by simp) (by simp) (by simp) (by simp)
  | wait hpc hnull =>
      have howner : s.mutex = some .caller := h.callerHolds.2 (by simp [hpc])
      exact h.caller (by simp) (by simp [howner]) rfl (by simp)
        (fun _ => h.pending_of_null hnull) (by simp) (by simp)
  | pass hpc hfound =>
      have howner : s.mutex = some .caller := h.callerHolds.2 (by simp [hpc])
      exact h.caller (m := s.mutex) (by simp [howner]) Iff.rfl rfl (by simp) (by simp)
        (fun _ => hfound) (by simp)
  | unlock hpc =>
      have howner : s.mutex = some .caller := h.callerHolds.2 (by simp [hpc])
      have hfound := h.passed (by simp [hpc])
      exact h.caller (by simp) (by simp [howner]) rfl (by simp) (by simp) (fun _ => hfound)
        (by simp)
  | read hpc =>
      have hnot : s.mutex ≠ some .caller := by simp [h.callerHolds, hpc]
      have hfound := h.passed (by simp [hpc])
      exact h.caller (m := s.mutex) (by simp [hnot]) Iff.rfl rfl (by simp) (by simp)
        (fun _ => hfound) (by simp)
  | created hpc =>
      rw [h.early (by simp [hpc])] at hloop hmine
      exact { h.created hpc s.started with
        workerHolds := by simpa using hmine
        early := by simp
        loop := hloop
        address := by simp
        waiting := by simp }
  | failed hpc => exact h.created hpc false
  | spurious hpc =>
      have hnot : s.mutex ≠ some .caller := by simp [h.callerHolds, hpc]
      exact h.caller (m := s.mutex) (by simp [hnot]) Iff.rfl rfl (by simp) (by simp) (by simp)
        (by simp)
  | construct a hpc hnull =>
      simp only [hpc] at hmine hloop
      exact h.worker (m := s.mutex) (by simp [hpc]) Iff.rfl hmine hloop (by simpa using hnull)
        (fun _ => rfl) (by simp)
  | workerLock b a hpc hfree =>
      simp only [hpc] at hloop haddress
      exact h.worker (by simp [hpc]) (by simp [hfree]) (by simp) hloop haddress (fun _ => rfl)
        (by simp)
  | publish b a hpc =>
      simp only [hpc] at hmine hloop haddress
      exact h.worker (m := s.mutex) (by simp [hpc]) Iff.rfl hmine rfl haddress
        (fun hnull => absurd hloop hnull) (by simp)
  | notify b a hpc =>
      simp only [hpc] at hmine hloop haddress
      by_cases hwaiting : s.caller = .waiting
      · -- the wait ends before the worker moves on
        have hnot : s.mutex ≠ some .caller := by simp [h.callerHolds, hwaiting]
        have hwoken : Handshake { s with caller := .reacquiring } :=
          h.caller (m := s.mutex) (by simp [hnot]) Iff.rfl rfl (by simp) (by simp) (by simp)
            (by simp)
        rw [if_pos hwaiting]
        exact hwoken.worker (m := s.mutex) (by simp [hpc]) Iff.rfl hmine hloop haddress
          (fun _ => rfl) (by simp)
      · rw [if_neg hwaiting]
        exact h.worker (m := s.mutex) (by simp [hpc]) Iff.rfl hmine hloop haddress (fun _ => rfl)
          (fun hw => absurd hw hwaiting)
  | workerUnlock b a hpc =>
      simp only [hpc] at hloop haddress
      have howner : s.mutex = some .worker := h.workerHolds.2 (by simp [hpc])
      refine h.worker (by simp [hpc]) (by simp [howner]) (by simp) hloop haddress (fun _ => rfl)
        fun hwaiting => ?_
      simpa [hpc] using h.waiting hwaiting

theorem handshake_of_exec {as : List Action} (h : machine.exec create as = some s) :
    Handshake s :=
  machine.exec_invariant_of_step (fun _ _ _ hs hstep => handshake_step hs hstep)
    handshake_create h

/-- `startLoop` has gone on without a thread. -/
def lost (s : State) : Prop := s.caller.early = false ∧ s.worker = .absent

/-- The thread is lost by a failure of `pthread_create` and by nothing else. -/
theorem lost_step {a : Action} (h : Handshake s) (hstep : machine.step s a = some t) :
    lost t ↔ lost s ∨ a = .pthreadCreate false := by
  cases trans_of_step hstep with
  | enter hpc => simp [lost, hpc, h.started (.inl hpc)]
  | abort hpc hstarted => simp [h.started (.inr hpc)] at hstarted
  | lock hpc hfree => rcases hpc with hpc | hpc <;> simp [lost, hpc]
  | failed hpc => simp [lost, h.early (by simp [hpc])]
  | start hpc | wait hpc | pass hpc => simp [lost, hpc]
  | unlock hpc | read hpc | created hpc | spurious hpc => simp [lost, hpc]
  | construct a hpc | workerLock b a hpc | publish b a hpc => simp [lost, hpc]
  | notify b a hpc | workerUnlock b a hpc => simp [lost, hpc]

theorem lost_iff_mem {as : List Action} (h : Handshake s) (hexec : machine.exec s as = some t) :
    lost t ↔ lost s ∨ .pthreadCreate false ∈ as := by
  induction as generalizing s with
  | nil =>
      obtain rfl : s = t := by simpa using hexec
      simp
  | cons a as ih =>
      obtain ⟨r, hstep, hrest⟩ := (machine.exec_cons_eq_some_iff s a as t).1 hexec
      rw [ih (handshake_step h hstep) hrest, lost_step h hstep, List.mem_cons, or_assoc,
        eq_comm (a := a)]

/-- Without a thread there is no address, and the test never succeeds. -/
theorem Handshake.not_passed_of_absent (h : Handshake s) (hw : s.worker = .absent) :
    s.caller.passed = false := by
  have hloop := h.loop
  rw [hw] at hloop
  cases hp : s.caller.passed with
  | true => exact absurd hloop (h.passed hp)
  | false => rfl

/-- From there `startLoop` can go on to its wait. -/
theorem waits_of_lost (h : Handshake s) (hlost : lost s) :
    ∃ bs t, machine.exec s bs = some t ∧ t.caller = .waiting ∧ t.loop = NULL ∧
      t.worker = .absent := by
  obtain ⟨hearly, hw⟩ := hlost
  have hpassed := h.not_passed_of_absent hw
  have hloop := h.loop
  rw [hw] at hloop
  have hfree : s.caller.holds = false → s.mutex = none := by
    intro hnot
    cases hm : s.mutex with
    | none => rfl
    | some p =>
        cases p with
        | caller => exact absurd (hnot.symm.trans (h.callerHolds.1 hm)) (by simp)
        | worker => simpa [hw] using h.workerHolds.1 hm
  have hlocks : s.caller = .locking ∨ s.caller = .reacquiring →
      machine.exec s [.startLoop, .startLoop] =
        some { s with mutex := none, caller := .waiting } := by
    rintro (hpc | hpc)
    · have hnone := hfree (by simp [hpc])
      simp [Machine.exec, machine, step, callerStep, hpc, hnone, hloop]
    · have hnone := hfree (by simp [hpc])
      simp [Machine.exec, machine, step, callerStep, hpc, hnone, hloop]
  cases hpc : s.caller with
  | entry | starting | creating => simp [hpc] at hearly
  | unlocking | reading | returned a => simp [hpc] at hpassed
  | aborted => exact absurd hpc h.aborted
  | locking => exact ⟨_, _, hlocks (.inl hpc), rfl, hloop, hw⟩
  | reacquiring => exact ⟨_, _, hlocks (.inr hpc), rfl, hloop, hw⟩
  | waiting => exact ⟨[], s, rfl, hpc, hloop, hw⟩
  | testing =>
      refine ⟨[.startLoop], { s with mutex := none, caller := .waiting }, ?_, rfl, hloop, hw⟩
      simp [Machine.exec, machine, step, callerStep, hpc, hloop]

/-- In every run in which `pthread_create` has not failed, a `startLoop` that is
blocked in its wait has a worker that has not executed its `notify`, and the
address that it returns is the one the worker has published. In every run in
which it has failed, there is no worker, `startLoop` does not return, and it can
block in its wait for good. -/
theorem handshake_iff {as : List Action} (h : machine.exec create as = some s) :
    (.pthreadCreate false ∉ as →
      (s.caller = .waiting → s.worker.pending = true) ∧
      ∀ a, s.caller = .returned a → a ≠ NULL ∧ s.worker.published = a) ∧
    (.pthreadCreate false ∈ as →
      s.worker = .absent ∧ (∀ a, s.caller ≠ .returned a) ∧
      ∃ bs t, machine.exec s bs = some t ∧ t.caller = .waiting ∧ t.loop = NULL ∧
        t.worker = .absent) := by
  have hs := handshake_of_exec h
  have hlost : lost s ↔ .pthreadCreate false ∈ as := by
    simpa [lost, create] using lost_iff_mem handshake_create h
  refine ⟨fun hok => ⟨fun hwaiting => ?_, fun a ha => ?_⟩, fun hfailed => ?_⟩
  · refine (hs.waiting hwaiting).resolve_left fun hw => ?_
    exact hok (hlost.1 ⟨by simp [hwaiting], hw⟩)
  · have haddress := hs.returned a ha
    have hnull := hs.passed (by simp [ha])
    rw [← haddress] at hnull
    exact ⟨hnull, hs.loop.symm.trans haddress.symm⟩
  · have hgone := hlost.2 hfailed
    refine ⟨hgone.2, fun a ha => ?_, waits_of_lost hs hgone⟩
    have hpassed := hs.not_passed_of_absent hgone.2
    simp [ha] at hpassed

/-- The wait begins before the worker runs. -/
theorem handshake_started :
    ∃ s, machine.exec create [.startLoop, .startLoop, .pthreadCreate true, .startLoop,
        .startLoop, .threadFunc 9] = some s ∧ s.caller = .waiting ∧ s.worker.pending = true := by
  have hexec : machine.exec create [.startLoop, .startLoop, .pthreadCreate true, .startLoop,
      .startLoop, .threadFunc 9] = some _ := rfl
  exact ⟨_, hexec, rfl, ((handshake_iff hexec).1 (by decide)).1 rfl⟩

theorem not_handshake_failed :
    ¬ ∀ as s, machine.exec create as = some s → s.caller = .waiting → s.loop = NULL →
      s.worker.pending = true := by
  intro h
  have hexec : machine.exec create [.startLoop, .startLoop, .pthreadCreate false, .startLoop,
      .startLoop] = some _ := rfl
  have hpending := h _ _ hexec rfl rfl
  cases hpending

end EventLoopThread

end Net

end SoL
