import Mathlib.Tactic

/-!
# Binary search

`lowerBound` is the loop of `std::lower_bound`: it halves the range that is left
and moves behind the middle element when the test holds there. The first results
need no order on the list: the position found is in the range, and a search that
ends at the first element has tested it. In a list whose first elements are those
that pass the test, the search stops behind them (`lowerBound_append`).
-/

namespace Container

/-- The search among `len` positions from `first` on. -/
def lowerBoundLoop (test : ℕ → Bool) (first len : ℕ) : ℕ :=
  if len = 0 then first
  else if test (first + len / 2) then
    lowerBoundLoop test (first + len / 2 + 1) (len - len / 2 - 1)
  else lowerBoundLoop test first (len / 2)
termination_by len

/-- The position where `std::lower_bound` stops, for the test that an element is
below the value searched. -/
def lowerBound {α : Type*} (l : List α) (test : α → Bool) : ℕ :=
  lowerBoundLoop (fun i => l[i]?.any test) 0 l.length

theorem first_le_lowerBoundLoop (test : ℕ → Bool) (first len : ℕ) :
    first ≤ lowerBoundLoop test first len := by
  fun_induction lowerBoundLoop test first len with
  | case1 first => exact le_rfl
  | case2 first len hlen htest ih => omega
  | case3 first len hlen htest ih => exact ih

theorem lowerBoundLoop_le (test : ℕ → Bool) (first len : ℕ) :
    lowerBoundLoop test first len ≤ first + len := by
  fun_induction lowerBoundLoop test first len with
  | case1 first => exact le_rfl
  | case2 first len hlen htest ih => omega
  | case3 first len hlen htest ih => omega

/-- A search that does not move has tested its first position. -/
theorem test_eq_false_of_lowerBoundLoop {test : ℕ → Bool} {first len : ℕ} (hlen : len ≠ 0)
    (h : lowerBoundLoop test first len = first) : test first = false := by
  fun_induction lowerBoundLoop test first len with
  | case1 first => exact absurd rfl hlen
  | case2 first len hlen' htest ih =>
      have hmoved := first_le_lowerBoundLoop test (first + len / 2 + 1) (len - len / 2 - 1)
      omega
  | case3 first len hlen' htest ih =>
      by_cases hhalf : len / 2 = 0
      · simpa [hhalf] using htest
      · exact ih hhalf h

/-- The search finds the position at which the test changes. -/
theorem lowerBoundLoop_eq {test : ℕ → Bool} {first len m : ℕ} (hfirst : first ≤ m)
    (hlast : m ≤ first + len) (hpass : ∀ i, first ≤ i → i < m → test i = true)
    (hfail : ∀ i, m ≤ i → i < first + len → test i = false) :
    lowerBoundLoop test first len = m := by
  fun_induction lowerBoundLoop test first len with
  | case1 first => omega
  | case2 first len hlen htest ih =>
      have hmid : first + len / 2 < m := by
        by_contra hle
        rw [hfail _ (not_lt.1 hle) (by omega)] at htest
        cases htest
      refine ih (by omega) (by omega) (fun i hi => hpass i (by omega)) fun i hi hlt => ?_
      exact hfail i hi (by omega)
  | case3 first len hlen htest ih =>
      have hmid : m ≤ first + len / 2 := by
        by_contra hlt
        exact htest (hpass _ (by omega) (not_le.1 hlt))
      refine ih hfirst hmid hpass fun i hi hlt => ?_
      exact hfail i hi (by omega)

theorem lowerBound_append {α : Type*} {l₁ l₂ : List α} {test : α → Bool}
    (hpass : ∀ a ∈ l₁, test a = true) (hfail : ∀ a ∈ l₂, test a = false) :
    lowerBound (l₁ ++ l₂) test = l₁.length := by
  refine lowerBoundLoop_eq (Nat.zero_le _) (by simp) (fun i _ hi => ?_) fun i hi hlt => ?_
  · simpa [List.getElem?_append_left hi, hi] using hpass _ (List.getElem_mem hi)
  · rw [List.length_append] at hlt
    have hlt : i - l₁.length < l₂.length := by omega
    simpa [List.getElem?_append_right hi, hlt] using hfail _ (List.getElem_mem hlt)

theorem lowerBound_le {α : Type*} (l : List α) (test : α → Bool) :
    lowerBound l test ≤ l.length := by
  simpa [lowerBound] using lowerBoundLoop_le (fun i => l[i]?.any test) 0 l.length

theorem test_head_eq_false {α : Type*} {a : α} {l : List α} {test : α → Bool}
    (h : lowerBound (a :: l) test = 0) : test a = false := by
  simpa using test_eq_false_of_lowerBoundLoop (Nat.succ_ne_zero l.length) h

end Container
