import SoL.Transition.Machine
import Mathlib.Tactic

/-!
# The count-down latch

Any number of threads call `wait`, `countDown` and `getCount` of one latch. Every
access to `count_` is under the mutex. A wait on the condition releases the mutex
and blocks in one step; it ends by `notifyAll` or for no reason at all, and then
the mutex has to be locked again. `--count_` of the smallest `int` is taken to
wrap around.

`notifyAll` is called at the value `0` only. A thread tests `count_` and blocks
without giving up the mutex in between, and `countDown` keeps it from its
decrement to its `notifyAll`, so a thread that blocks finds a count that has still
to pass `0` (`Guarded.waiters`).
-/

namespace SoL

namespace Base

open Transition

namespace CountDownLatch

/-- Where a thread is in `wait`, `countDown` or `getCount`. -/
inductive Pc
  | idle
  | waitLocking
  | testing
  | waiting
  | reacquiring
  | waitUnlocking
  | countLocking
  | decrementing
  | checking
  | notifying
  | countUnlocking
  | getLocking
  | reading
  deriving DecidableEq

inductive Call
  | wait
  | countDown
  | getCount
  deriving DecidableEq

/-- The latch, its threads, and how many calls of `countDown` have returned. -/
structure State (τ : Type*) where
  count : ℤ
  mutex : Option τ
  pc : τ → Pc
  finished : ℕ

/-- A thread calls a function or goes on in it, or a wait ends without a reason. -/
inductive Action (τ : Type*)
  | call (t : τ) (c : Call)
  | run (t : τ)
  | spurious (t : τ)

/-- The constructor. -/
def create {τ : Type*} (n : ℕ) : State τ where
  count := n
  mutex := none
  pc := fun _ => .idle
  finished := 0

/-- `--count_`. -/
def decrement (count : ℤ) : ℤ := (count - 1).bmod (2 ^ 32)

def Call.entry : Call → Pc
  | .wait => .waitLocking
  | .countDown => .countLocking
  | .getCount => .getLocking

variable {τ : Type*}

section

variable [DecidableEq τ]

namespace State

def move (s : State τ) (t : τ) (pc : Pc) : State τ := { s with pc := Function.update s.pc t pc }

def lock (s : State τ) (t : τ) (pc : Pc) : Option (State τ) :=
  if s.mutex.isNone then some { s.move t pc with mutex := some t } else none

def unlock (s : State τ) (t : τ) (pc : Pc) : State τ := { s.move t pc with mutex := none }

@[simp]
theorem move_self (s : State τ) (t : τ) (pc : Pc) : (s.move t pc).pc t = pc := by
  simp [move]

theorem move_of_ne (s : State τ) {t u : τ} (h : u ≠ t) (pc : Pc) : (s.move t pc).pc u = s.pc u := by
  simp [move, h]

/-- `notifyAll`. -/
def wake (s : State τ) : State τ :=
  { s with pc := fun u => if s.pc u = .waiting then .reacquiring else s.pc u }

end State

def runStep (s : State τ) (t : τ) : Option (State τ) :=
  match s.pc t with
  | .idle | .waiting => none
  | .waitLocking | .reacquiring => s.lock t .testing
  | .testing =>
      if 0 < s.count then some (s.unlock t .waiting) else some (s.move t .waitUnlocking)
  | .waitUnlocking => some (s.unlock t .idle)
  | .countLocking => s.lock t .decrementing
  | .decrementing => some { s.move t .checking with count := decrement s.count }
  | .checking => some (s.move t (if s.count = 0 then .notifying else .countUnlocking))
  | .notifying => some (s.wake.move t .countUnlocking)
  | .countUnlocking => some { s.unlock t .idle with finished := s.finished + 1 }
  | .getLocking => s.lock t .reading
  | .reading => some (s.unlock t .idle)

def step (s : State τ) : Action τ → Option (State τ)
  | .call t c => if s.pc t = .idle then some (s.move t c.entry) else none
  | .run t => runStep s t
  | .spurious t => if s.pc t = .waiting then some (s.move t .reacquiring) else none

def machine (τ : Type*) [DecidableEq τ] (n : ℕ) : Machine (State τ) (Action τ) where
  initial := fun s => s = create n
  step := step

end

/-- The thread has the mutex. -/
def Pc.holds : Pc → Bool
  | .testing | .waitUnlocking | .decrementing | .checking | .notifying | .countUnlocking
  | .reading => true
  | .idle | .waitLocking | .waiting | .reacquiring | .countLocking | .getLocking => false

/-- The thread is in a call of `countDown`. -/
def Pc.counting : Pc → Bool
  | .countLocking | .decrementing | .checking | .notifying | .countUnlocking => true
  | _ => false

/-- The thread has decremented `count_`, and its call has not returned. -/
def Pc.decremented : Pc → Bool
  | .checking | .notifying | .countUnlocking => true
  | _ => false

/-- The thread has decremented `count_` and may still call `notifyAll`. -/
def Pc.pending : Pc → Bool
  | .checking | .notifying => true
  | _ => false

/-- What a step of a thread can do. -/
inductive Trans [DecidableEq τ] (s : State τ) (t : τ) : State τ → Prop
  | enter (pc : Pc) (hpc : s.pc t = .idle) (hentry : pc = .waitLocking ∨ pc = .countLocking ∨
      pc = .getLocking) : Trans s t (s.move t pc)
  | wakeUp (hpc : s.pc t = .waiting) : Trans s t (s.move t .reacquiring)
  | lock (pc : Pc) (hpc : (s.pc t).holds = false) (hnew : pc = .testing ∨ pc = .decrementing ∨
      pc = .reading) (hfree : s.mutex = none) : Trans s t { s.move t pc with mutex := some t }
  | wait (hpc : s.pc t = .testing) (hcount : 0 < s.count) : Trans s t (s.unlock t .waiting)
  | pass (hpc : s.pc t = .testing) (hcount : s.count ≤ 0) : Trans s t (s.move t .waitUnlocking)
  | leave (hpc : s.pc t = .waitUnlocking ∨ s.pc t = .reading) : Trans s t (s.unlock t .idle)
  | decrement (hpc : s.pc t = .decrementing) :
      Trans s t { s.move t .checking with count := decrement s.count }
  | check (pc : Pc) (hpc : s.pc t = .checking)
      (hnew : pc = if s.count = 0 then .notifying else .countUnlocking) : Trans s t (s.move t pc)
  | notify (hpc : s.pc t = .notifying) : Trans s t (s.wake.move t .countUnlocking)
  | finish (hpc : s.pc t = .countUnlocking) :
      Trans s t { s.unlock t .idle with finished := s.finished + 1 }

variable {s s' : State τ} {t u : τ} {n : ℕ} {pc : Pc}

section

variable [DecidableEq τ]

theorem trans_of_lock (hpc : (s.pc t).holds = false)
    (hnew : pc = .testing ∨ pc = .decrementing ∨ pc = .reading) (h : s.lock t pc = some s') :
    Trans s t s' := by
  obtain ⟨hfree, ⟨⟩⟩ := Option.ite_none_right_eq_some.1 h
  exact .lock pc hpc hnew (Option.isNone_iff_eq_none.1 hfree)

theorem trans_of_runStep (h : runStep s t = some s') : Trans s t s' := by
  unfold runStep at h
  cases hpc : s.pc t with
  | idle => simp [hpc] at h
  | waiting => simp [hpc] at h
  | waitLocking | reacquiring =>
      simp only [hpc] at h
      exact trans_of_lock (by rw [hpc]; rfl) (.inl rfl) h
  | testing =>
      simp only [hpc] at h
      split at h
      · rename_i hcount
        cases h
        exact .wait hpc hcount
      · rename_i hcount
        cases h
        exact .pass hpc (not_lt.1 hcount)
  | waitUnlocking =>
      simp only [hpc] at h
      cases h
      exact .leave (.inl hpc)
  | countLocking =>
      simp only [hpc] at h
      exact trans_of_lock (by rw [hpc]; rfl) (.inr (.inl rfl)) h
  | decrementing =>
      simp only [hpc] at h
      cases h
      exact .decrement hpc
  | checking =>
      simp only [hpc] at h
      cases h
      exact .check _ hpc rfl
  | notifying =>
      simp only [hpc] at h
      cases h
      exact .notify hpc
  | countUnlocking =>
      simp only [hpc] at h
      cases h
      exact .finish hpc
  | getLocking =>
      simp only [hpc] at h
      exact trans_of_lock (by rw [hpc]; rfl) (.inr (.inr rfl)) h
  | reading =>
      simp only [hpc] at h
      cases h
      exact .leave (.inr hpc)

theorem exists_trans {a : Action τ} (h : (machine τ n).step s a = some s') :
    ∃ t, Trans s t s' := by
  cases a with
  | run t => exact ⟨t, trans_of_runStep h⟩
  | call t c =>
      obtain ⟨hpc, ⟨⟩⟩ := Option.ite_none_right_eq_some.1 h
      exact ⟨t, .enter _ hpc (by cases c <;> simp [Call.entry])⟩
  | spurious t =>
      obtain ⟨hpc, ⟨⟩⟩ := Option.ite_none_right_eq_some.1 h
      exact ⟨t, .wakeUp hpc⟩

end

/-- The invariant of the latch. -/
structure Guarded (n : ℕ) (s : State τ) : Prop where
  holds : ∀ t, (s.pc t).holds = true ↔ s.mutex = some t
  counted : (∀ t, (s.pc t).decremented = false) → s.count = ((n : ℤ) - s.finished).bmod (2 ^ 32)
  decremented : ∀ t, (s.pc t).decremented = true →
    s.count = ((n : ℤ) - (s.finished + 1)).bmod (2 ^ 32)
  passed : ∀ t, s.pc t = .waitUnlocking → s.count ≤ 0
  waiters : ∀ t, s.pc t = .waiting → 0 < s.count ∨ s.count = 0 ∧ ∃ u, (s.pc u).pending = true

theorem Pc.holds_of_decremented (h : pc.decremented = true) : pc.holds = true := by
  cases pc <;> first | rfl | cases h

theorem Pc.decremented_of_pending (h : pc.pending = true) : pc.decremented = true := by
  cases pc <;> first | rfl | cases h

namespace Guarded

/-- The holder of the mutex is the only thread that can have decremented. -/
theorem eq_of_holds (h : Guarded n s) (ht : (s.pc t).holds = true) (hu : (s.pc u).holds = true) :
    u = t := Option.some.inj (((h.holds u).1 hu).symm.trans ((h.holds t).1 ht))

theorem decremented_eq_false (h : Guarded n s) (ht : (s.pc t).holds = true)
    (hdec : (s.pc t).decremented = false) (u : τ) : (s.pc u).decremented = false := by
  by_contra hu
  rw [Bool.not_eq_false] at hu
  obtain rfl := h.eq_of_holds ht (Pc.holds_of_decremented hu)
  simp [hdec] at hu

/-- While a thread has the mutex and has not decremented, a blocked thread sees a
positive count. -/
theorem count_pos (h : Guarded n s) (ht : (s.pc t).holds = true)
    (hdec : (s.pc t).decremented = false) (hu : s.pc u = .waiting) : 0 < s.count := by
  obtain hpos | ⟨-, w, hw⟩ := h.waiters u hu
  · exact hpos
  · have hfalse := h.decremented_eq_false ht hdec w
    simp [Pc.decremented_of_pending hw] at hfalse

theorem create (n : ℕ) (hn : n < 2 ^ 31) : Guarded n (create n : State τ) where
  holds := by simp [CountDownLatch.create, Pc.holds]
  counted := by
    intro _
    have hmod : ((n : ℤ) - (0 : ℕ)).bmod (2 ^ 32) = n := by
      rw [Nat.cast_zero, sub_zero]
      exact Int.bmod_eq_of_le (by norm_num) (by norm_num; omega)
    exact hmod.symm
  decremented := by simp [CountDownLatch.create, Pc.decremented]
  passed := by simp [CountDownLatch.create]
  waiters := by simp [CountDownLatch.create]

theorem count_lt (h : Guarded n s) : s.count < 2 ^ 31 := by
  by_cases hall : ∀ t, (s.pc t).decremented = false
  · have hlt := Int.bmod_lt (x := (n : ℤ) - s.finished) (m := 2 ^ 32) (by norm_num)
    rw [h.counted hall]
    norm_num at hlt ⊢
    omega
  · obtain ⟨t, ht⟩ := not_forall.1 hall
    have hlt := Int.bmod_lt (x := (n : ℤ) - (s.finished + 1)) (m := 2 ^ 32) (by norm_num)
    rw [h.decremented t (by simpa using ht)]
    norm_num at hlt ⊢
    omega

/-- A thread that returns from `wait` has found the latch open. -/
theorem finished_ge (h : Guarded n s) (hn : n < 2 ^ 31) (hpc : s.pc t = .waitUnlocking) :
    n ≤ s.finished := by
  have hnone := h.decremented_eq_false (t := t) (by rw [hpc]; rfl) (by rw [hpc]; rfl)
  have hcount := h.passed t hpc
  by_contra hlt
  have hexact : ((n : ℤ) - s.finished).bmod (2 ^ 32) = n - s.finished :=
    Int.bmod_eq_of_le (by norm_num; omega) (by norm_num; omega)
  rw [h.counted hnone, hexact] at hcount
  omega

/-- `notifyAll` leaves no thread blocked. -/
theorem wake (h : Guarded n s) : Guarded n s.wake ∧ ∀ u, s.wake.pc u ≠ .waiting := by
  have hpc : ∀ u, s.wake.pc u = if s.pc u = .waiting then .reacquiring else s.pc u := fun _ => rfl
  have hnobody : ∀ u, s.wake.pc u ≠ .waiting := by
    intro u hu
    rw [hpc] at hu
    split at hu
    · cases hu
    · contradiction
  have hholds : ∀ u, (s.wake.pc u).holds = (s.pc u).holds := by
    intro u
    rw [hpc]
    split
    · rename_i hu
      rw [hu]
      rfl
    · rfl
  have hdec : ∀ u, (s.wake.pc u).decremented = (s.pc u).decremented := by
    intro u
    rw [hpc]
    split
    · rename_i hu
      rw [hu]
      rfl
    · rfl
  refine ⟨⟨fun u => ?_, fun hnone => ?_, fun u hu => ?_, fun u hu => ?_, fun u hu =>
    absurd hu (hnobody u)⟩, hnobody⟩
  · rw [hholds]
    exact h.holds u
  · exact h.counted fun u => (hdec u).symm.trans (hnone u)
  · exact h.decremented u ((hdec u).symm.trans hu)
  · rw [hpc] at hu
    split at hu
    · cases hu
    · exact h.passed u hu

variable [DecidableEq τ] {m : Option τ}

/-- A thread moves on without `count_` changing. -/
theorem move (h : Guarded n s) (hholds : ∀ u, ((s.move t pc).pc u).holds = true ↔ m = some u)
    (hdec : pc.decremented = (s.pc t).decremented) (hpass : pc = .waitUnlocking → s.count ≤ 0)
    (hwaiting : pc = .waiting → 0 < s.count)
    (hpending : (s.pc t).pending = true →
      pc.pending = true ∨ s.count ≠ 0 ∨ ∀ u, s.pc u ≠ .waiting) :
    Guarded n { s.move t pc with mutex := m } := by
  have hpcDec : ∀ u, ((s.move t pc).pc u).decremented = (s.pc u).decremented := by
    intro u
    by_cases hu : u = t
    · subst hu
      simp [hdec]
    · simp [s.move_of_ne hu]
  refine ⟨hholds, fun hnone => ?_, fun u hu => ?_, fun u hu => ?_, fun u hu => ?_⟩
  · exact h.counted fun u => (hpcDec u).symm.trans (hnone u)
  · exact h.decremented u ((hpcDec u).symm.trans hu)
  · by_cases hut : u = t
    · subst hut
      exact hpass (by simpa using hu)
    · exact h.passed u (by simpa [s.move_of_ne hut] using hu)
  · by_cases hut : u = t
    · subst hut
      exact .inl (hwaiting (by simpa using hu))
    · have hblocked : s.pc u = .waiting := by
        simpa [s.move_of_ne hut] using hu
      obtain hpos | ⟨hzero, w, hw⟩ := h.waiters u hblocked
      · exact .inl hpos
      · refine .inr ⟨hzero, w, ?_⟩
        by_cases hwt : w = t
        · subst hwt
          obtain hstill | hnonzero | hnobody := hpending hw
          · simpa using hstill
          · exact absurd hzero hnonzero
          · exact absurd hblocked (hnobody u)
        · simpa [s.move_of_ne hwt] using hw

/-- Which thread has the mutex when one of them moves and keeps it or stays without
it. -/
theorem holds_move (h : Guarded n s) (hpc : pc.holds = (s.pc t).holds) (u : τ) :
    ((s.move t pc).pc u).holds = true ↔ s.mutex = some u := by
  by_cases hut : u = t
  · subst hut
    simpa [hpc] using h.holds u
  · simpa [s.move_of_ne hut] using h.holds u

theorem holds_lock (h : Guarded n s) (hpc : pc.holds = true) (hfree : s.mutex = none) (u : τ) :
    ((s.move t pc).pc u).holds = true ↔ some t = some u := by
  by_cases hut : u = t
  · subst hut
    simp [hpc]
  · have hnot : (s.pc u).holds ≠ true := fun hu => by simp [(h.holds u).1 hu] at hfree
    simp [s.move_of_ne hut, hnot, Ne.symm hut]

theorem holds_unlock (h : Guarded n s) (hpc : pc.holds = false) (ht : (s.pc t).holds = true)
    (u : τ) : ((s.move t pc).pc u).holds = true ↔ none = some u := by
  by_cases hut : u = t
  · subst hut
    simp [hpc]
  · have hnot : (s.pc u).holds ≠ true := fun hu => hut (h.eq_of_holds ht hu)
    simp [s.move_of_ne hut, hnot]

/-- The decrement: the thread has the mutex, and a count that threads wait for is
positive. -/
theorem decrement (h : Guarded n s) (hpc : s.pc t = .decrementing) (hrange : s.count < 2 ^ 31) :
    Guarded n { s.move t .checking with count := CountDownLatch.decrement s.count } := by
  have hholds : (s.pc t).holds = true := by rw [hpc]; rfl
  have hdec : (s.pc t).decremented = false := by rw [hpc]; rfl
  have hnone := h.decremented_eq_false hholds hdec
  have hcount : CountDownLatch.decrement s.count =
      ((n : ℤ) - (s.finished + 1)).bmod (2 ^ 32) := by
    rw [CountDownLatch.decrement, h.counted hnone, Int.bmod_sub_bmod]
    congr 1
    ring
  refine ⟨h.holds_move (by rw [hpc]; rfl), fun hall => ?_, fun u _ => hcount, fun u hu => ?_,
    fun u hu => ?_⟩
  · have hself := hall t
    simp [Pc.decremented] at hself
  · by_cases hut : u = t
    · subst hut
      simp at hu
    · have hu : s.pc u = .waitUnlocking := by
        simpa [s.move_of_ne hut] using hu
      exact absurd (h.eq_of_holds hholds (by rw [hu]; rfl)) hut
  · by_cases hut : u = t
    · subst hut
      simp at hu
    · have hpos := h.count_pos hholds hdec (u := u) (by
        simpa [s.move_of_ne hut] using hu)
      have hexact : CountDownLatch.decrement s.count = s.count - 1 :=
        Int.bmod_eq_of_le (by norm_num; omega) (by norm_num; omega)
      change 0 < CountDownLatch.decrement s.count ∨ CountDownLatch.decrement s.count = 0 ∧ _
      rw [hexact]
      rcases (show 0 ≤ s.count - 1 by omega).lt_or_eq with hlt | heq
      · exact .inl hlt
      · exact .inr ⟨heq.symm, t, by simp [Pc.pending]⟩

/-- `countDown` returns. -/
theorem finish (h : Guarded n s) (hpc : s.pc t = .countUnlocking) :
    Guarded n { s.unlock t .idle with finished := s.finished + 1 } := by
  have hholds : (s.pc t).holds = true := by rw [hpc]; rfl
  have hcount := h.decremented t (by rw [hpc]; rfl)
  have hother : ∀ u, u ≠ t → (s.pc u).holds = false := fun u hut =>
    Bool.eq_false_iff.2 fun hu => hut (h.eq_of_holds hholds hu)
  refine ⟨h.holds_unlock rfl hholds, fun _ => ?_, fun u hu => ?_, fun u hu => ?_, fun u hu => ?_⟩
  · simpa [State.unlock, State.move] using hcount
  · by_cases hut : u = t
    · subst hut
      simp [State.unlock, Pc.decremented] at hu
    · have hu : (s.pc u).decremented = true := by
        simpa [State.unlock, s.move_of_ne hut] using hu
      exact absurd (Pc.holds_of_decremented hu) (Bool.eq_false_iff.1 (hother u hut))
  · by_cases hut : u = t
    · subst hut
      simp [State.unlock] at hu
    · exact h.passed u (by simpa [State.unlock, s.move_of_ne hut] using hu)
  · by_cases hut : u = t
    · subst hut
      simp [State.unlock] at hu
    · obtain hpos | ⟨-, w, hw⟩ := h.waiters u (by
        simpa [State.unlock, s.move_of_ne hut] using hu)
      · exact .inl hpos
      · -- the thread that may still notify would be `t`
        have hw' := Pc.holds_of_decremented (Pc.decremented_of_pending hw)
        obtain rfl := h.eq_of_holds hholds hw'
        simp [hpc, Pc.pending] at hw

theorem trans (h : Guarded n s) (ht : Trans s t s') : Guarded n s' := by
  cases ht with
  | enter pc hpc hentry =>
      refine h.move (h.holds_move ?_) ?_ ?_ ?_ ?_
      all_goals
        obtain rfl | rfl | rfl := hentry <;> simp [hpc, Pc.holds, Pc.decremented, Pc.pending]
  | wakeUp hpc =>
      refine h.move (h.holds_move ?_) ?_ ?_ ?_ ?_
      all_goals simp [hpc, Pc.holds, Pc.decremented, Pc.pending]
  | lock pc hpc hnew hfree =>
      have hdec : (s.pc t).decremented = false := Bool.eq_false_iff.2 fun hdec => by
        simp [Pc.holds_of_decremented hdec] at hpc
      have hpending : (s.pc t).pending ≠ true := fun hpending => by
        simp [Pc.decremented_of_pending hpending] at hdec
      refine h.move (h.holds_lock ?_ hfree) (hdec.symm ▸ ?_) ?_ ?_ fun hyes => absurd hyes hpending
      all_goals obtain rfl | rfl | rfl := hnew <;> simp [Pc.holds, Pc.decremented]
  | wait hpc hcount =>
      refine h.move (h.holds_unlock rfl (by rw [hpc]; rfl)) ?_ ?_ (fun _ => hcount) ?_
      all_goals simp [hpc, Pc.decremented, Pc.pending]
  | pass hpc hcount =>
      refine h.move (h.holds_move ?_) ?_ (fun _ => hcount) ?_ ?_
      all_goals simp [hpc, Pc.holds, Pc.decremented, Pc.pending]
  | leave hpc =>
      have hholds : (s.pc t).holds = true := by obtain hpc | hpc := hpc <;> rw [hpc] <;> rfl
      refine h.move (h.holds_unlock rfl hholds) ?_ ?_ ?_ ?_
      all_goals obtain hpc | hpc := hpc <;> simp [hpc, Pc.decremented, Pc.pending]
  | decrement hpc => exact h.decrement hpc h.count_lt
  | check pc hpc hnew =>
      refine h.move (h.holds_move ?_) ?_ ?_ ?_ ?_
      all_goals
        split at hnew <;> subst hnew <;> simp_all [Pc.holds, Pc.decremented, Pc.pending]
  | notify hpc =>
      obtain ⟨hwake, hnobody⟩ := h.wake
      have hself : s.wake.pc t = .notifying := by simp [State.wake, hpc]
      refine hwake.move (hwake.holds_move ?_) ?_ ?_ ?_ fun _ => .inr (.inr hnobody)
      all_goals simp [hself, Pc.holds, Pc.decremented]
  | finish hpc => exact h.finish hpc

end Guarded

/-- If the step is a return from `wait`, at least `n` calls of `countDown` have
returned. -/
def ReturnsAfter (n : ℕ) (s : State τ) (a : Action τ) : Prop :=
  ∀ t, a = .run t → s.pc t = .waitUnlocking → n ≤ s.finished

/-- With the latch open and no call of `countDown` in progress, every thread that was
blocked has been notified. -/
def NoneLost (s : State τ) : Prop :=
  s.count ≤ 0 → (∀ t, (s.pc t).counting = false) → ∀ t, s.pc t ≠ .waiting

theorem Pc.counting_of_pending (h : pc.pending = true) : pc.counting = true := by
  cases pc <;> first | rfl | cases h

theorem Guarded.noneLost (h : Guarded n s) : NoneLost s := by
  intro hcount hidle t ht
  obtain hpos | ⟨-, u, hu⟩ := h.waiters t ht
  · omega
  · have hcounting := Pc.counting_of_pending hu
    simp [hidle u] at hcounting

/-- The latch neither opens early nor loses a waiter, in any interleaving of any number
of threads. -/
theorem returnsAfter_and_noneLost [DecidableEq τ] (n : ℕ) (hn : n < 2 ^ 31)
    (as : List (Action τ)) :
    (machine τ n).along (ReturnsAfter n) (create n) as ∧
      (machine τ n).always NoneLost (create n) as := by
  have hstep : ∀ (s : State τ) a s', Guarded n s → True → (machine τ n).step s a = some s' →
      Guarded n s' := by
    intro s a s' hs _ hs'
    obtain ⟨t, ht⟩ := exists_trans hs'
    exact hs.trans ht
  have hfree : (machine τ n).along (fun _ _ => True) (create n) as :=
    (machine τ n).along_of_forall_mem (fun _ _ => trivial) _
  constructor
  · refine (machine τ n).along_of_invariant hstep ?_ (Guarded.create n hn) hfree
    intro s a s' hs _ _ t _ hpc
    exact hs.finished_ge hn hpc
  · refine (machine τ n).always_mono (fun s (hs : Guarded n s) => hs.noneLost) ?_
    exact (machine τ n).always_of_invariant hstep (Guarded.create n hn) hfree

/-- One thread waits and another one counts down. -/
def oneWaiter : List (Action Bool) :=
  [.call true .wait, .run true, .run true, .call false .countDown, .run false, .run false,
    .run false, .run false, .run false, .run true, .run true, .run true]

/-- The waiting thread blocks, is notified and returns. -/
theorem returnsAfter_and_noneLost_oneWaiter :
    ((machine Bool 1).exec (create 1) oneWaiter).isSome = true ∧
      (machine Bool 1).along (ReturnsAfter 1) (create 1) oneWaiter ∧
      (machine Bool 1).always NoneLost (create 1) oneWaiter :=
  ⟨by decide, returnsAfter_and_noneLost 1 (by decide) oneWaiter⟩

end CountDownLatch

end Base

end SoL
