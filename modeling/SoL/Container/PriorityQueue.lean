import Mathlib.Data.List.MinMax

/-!
# Priority queues

A priority queue is the list of its elements together with a rule that chooses
one of the least ones under a key. Which of several least elements is on top is
left open: `Selector` is any such rule, and `Selector.argmin` is one.

`drain` is the loop that looks at the top element, pops it as long as a test
says so, and stops at the first element that the test keeps. The test may carry
a state from one element to the next. `drain_rule` is its invariant rule.
-/

namespace Container

/-- A rule that chooses a least element of a nonempty list. -/
structure Selector (α κ : Type*) [LinearOrder κ] where
  top : (α → κ) → List α → Option α
  top_eq_none : ∀ key l, top key l = none → l = []
  mem_of_top : ∀ key l a, top key l = some a → a ∈ l
  le_of_top : ∀ key l a, top key l = some a → ∀ b ∈ l, key a ≤ key b

namespace Selector

/-- The rule that takes the first of the least elements. -/
def argmin (α κ : Type*) [LinearOrder κ] : Selector α κ where
  top := List.argmin
  top_eq_none := fun _ _ h => List.argmin_eq_none.1 h
  mem_of_top := fun _ _ _ h => List.argmin_mem h
  le_of_top := fun _ _ _ h _ hb => List.le_of_mem_argmin hb h

variable {α κ σ : Type*} [LinearOrder κ] (S : Selector α κ)

theorem top_nil (key : α → κ) : S.top key [] = none := by
  cases h : S.top key [] with
  | none => rfl
  | some a => exact absurd (S.mem_of_top key [] a h) List.not_mem_nil

variable [DecidableEq α]

/-- Pop the top element as long as the test answers `true`. The number bounds
the rounds; the length of the list is enough. -/
def drain (key : α → κ) (test : σ → α → Bool × σ) : ℕ → σ → List α → σ × List α
  | 0, s, l => (s, l)
  | n + 1, s, l =>
      match S.top key l with
      | none => (s, l)
      | some a =>
          match test s a with
          | (true, t) => drain key test n t (l.erase a)
          | (false, t) => (t, l)

theorem drain_nil (key : α → κ) (test : σ → α → Bool × σ) (n : ℕ) (s : σ) :
    S.drain key test n s [] = (s, []) := by
  cases n with
  | zero => rfl
  | succ n => simp [drain, S.top_nil key]

/-- The length of the list bounds the rounds: more of them change nothing. -/
theorem drain_eq_of_length_le {key : α → κ} {test : σ → α → Bool × σ} {n k : ℕ} {l : List α}
    (hn : l.length ≤ n) (hk : l.length ≤ k) (s : σ) :
    S.drain key test n s l = S.drain key test k s l := by
  induction n generalizing k s l with
  | zero =>
      obtain rfl : l = [] := List.length_eq_zero_iff.1 (Nat.le_zero.1 hn)
      exact (S.drain_nil key test k s).symm
  | succ n ih =>
      cases k with
      | zero =>
          obtain rfl : l = [] := List.length_eq_zero_iff.1 (Nat.le_zero.1 hk)
          exact S.drain_nil key test (n + 1) s
      | succ k =>
          cases htop : S.top key l with
          | none => simp [drain, htop]
          | some a =>
              obtain ⟨b, t, htest⟩ : ∃ b t, test s a = (b, t) := ⟨_, _, rfl⟩
              cases b with
              | false => simp [drain, htop, htest]
              | true =>
                  have hlen := List.length_erase_of_mem (S.mem_of_top key l a htop)
                  simpa [drain, htop, htest] using ih (l := l.erase a) (by omega) (by omega) t

/-- What every pop keeps holds until the queue is empty or the test keeps the
top element. -/
theorem drain_rule {key : α → κ} {test : σ → α → Bool × σ} {I Q : σ → List α → Prop}
    (hpop : ∀ s l a t, I s l → S.top key l = some a → test s a = (true, t) → I t (l.erase a))
    (hkeep : ∀ s l a t, I s l → S.top key l = some a → test s a = (false, t) → Q t l)
    (hempty : ∀ s, I s [] → Q s []) {n : ℕ} {s : σ} {l : List α} (hn : l.length ≤ n)
    (hI : I s l) : Q (S.drain key test n s l).1 (S.drain key test n s l).2 := by
  induction n generalizing s l with
  | zero =>
      obtain rfl : l = [] := List.length_eq_zero_iff.1 (Nat.le_zero.1 hn)
      exact hempty s hI
  | succ n ih =>
      cases htop : S.top key l with
      | none =>
          obtain rfl := S.top_eq_none key l htop
          simpa [drain, htop] using hempty s hI
      | some a =>
          obtain ⟨b, t, htest⟩ : ∃ b t, test s a = (b, t) := ⟨_, _, rfl⟩
          cases b with
          | false => simpa [drain, htop, htest] using hkeep s l a t hI htop htest
          | true =>
              have hmem := S.mem_of_top key l a htop
              have hlen : (l.erase a).length ≤ n := by
                rw [List.length_erase_of_mem hmem]
                exact Nat.sub_le_of_le_add hn
              simpa [drain, htop, htest] using ih hlen (hpop s l a t hI htop htest)

end Selector

end Container
