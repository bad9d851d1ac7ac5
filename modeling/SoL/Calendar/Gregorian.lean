import Mathlib.Tactic

/-!
# The Gregorian calendar

Dates of the proleptic Gregorian calendar, with the day after and the day before a
date by the lengths of the months. `dayOffset` counts days from a date in both
directions. A function on dates that goes up by one from each day to the next
counts days (`Counts`): it is strictly monotone for the order of the calendar and
takes every value from that of a date on.
-/

namespace Calendar

def isLeap (year : ℤ) : Prop := year % 4 = 0 ∧ year % 100 ≠ 0 ∨ year % 400 = 0

instance (year : ℤ) : Decidable (isLeap year) :=
  inferInstanceAs (Decidable (year % 4 = 0 ∧ year % 100 ≠ 0 ∨ year % 400 = 0))

def monthLength (year month : ℤ) : ℤ :=
  if month = 2 then if isLeap year then 29 else 28
  else if month = 4 ∨ month = 6 ∨ month = 9 ∨ month = 11 then 30
  else 31

theorem monthLength_bounds (year month : ℤ) :
    28 ≤ monthLength year month ∧ monthLength year month ≤ 31 := by
  unfold monthLength
  split
  · split <;> omega
  · split <;> omega

theorem monthLength_of_ne (year : ℤ) {month : ℤ} (h : month ≠ 2) :
    monthLength year month =
      if month = 4 ∨ month = 6 ∨ month = 9 ∨ month = 11 then 30 else 31 := by
  rw [monthLength, if_neg h]

structure Date where
  year : ℤ
  month : ℤ
  day : ℤ
  deriving DecidableEq

namespace Date

/-- The date exists. -/
structure Valid (x : Date) : Prop where
  one_le_month : 1 ≤ x.month
  month_le : x.month ≤ 12
  one_le_day : 1 ≤ x.day
  day_le : x.day ≤ monthLength x.year x.month

instance (x : Date) : Decidable x.Valid :=
  decidable_of_iff (1 ≤ x.month ∧ x.month ≤ 12 ∧ 1 ≤ x.day ∧ x.day ≤ monthLength x.year x.month)
    ⟨fun h => ⟨h.1, h.2.1, h.2.2.1, h.2.2.2⟩, fun h => ⟨h.1, h.2, h.3, h.4⟩⟩

/-- The order of the calendar. -/
def before (x y : Date) : Prop :=
  x.year < y.year ∨ x.year = y.year ∧
    (x.month < y.month ∨ x.month = y.month ∧ x.day < y.day)

instance (x y : Date) : Decidable (x.before y) :=
  inferInstanceAs (Decidable (x.year < y.year ∨ x.year = y.year ∧
    (x.month < y.month ∨ x.month = y.month ∧ x.day < y.day)))

def next (x : Date) : Date :=
  if x.day < monthLength x.year x.month then ⟨x.year, x.month, x.day + 1⟩
  else if x.month < 12 then ⟨x.year, x.month + 1, 1⟩
  else ⟨x.year + 1, 1, 1⟩

def previous (x : Date) : Date :=
  if 1 < x.day then ⟨x.year, x.month, x.day - 1⟩
  else if 1 < x.month then ⟨x.year, x.month - 1, monthLength x.year (x.month - 1)⟩
  else ⟨x.year - 1, 12, 31⟩

/-- The date so many days later, or earlier. -/
def dayOffset (x : Date) : ℤ → Date
  | .ofNat n => next^[n] x
  | .negSucc n => previous^[n + 1] x

variable {x y : Date}

/-- What the day after a date is. -/
theorem next_cases (h : x.Valid) :
    (x.day < monthLength x.year x.month ∧ x.next = ⟨x.year, x.month, x.day + 1⟩) ∨
      (x.day = monthLength x.year x.month ∧ x.month < 12 ∧ x.next = ⟨x.year, x.month + 1, 1⟩) ∨
      (x.day = 31 ∧ x.month = 12 ∧ x.next = ⟨x.year + 1, 1, 1⟩) := by
  have hday := h.day_le
  have hmonth := h.month_le
  unfold next
  split
  · rename_i hlt
    exact .inl ⟨hlt, rfl⟩
  · rename_i hlast
    split
    · rename_i hlt
      exact .inr (.inl ⟨by omega, hlt, rfl⟩)
    · have hdecember : x.month = 12 := by omega
      have hlength : monthLength x.year 12 = 31 := by simp [monthLength]
      rw [hdecember, hlength] at hday hlast
      exact .inr (.inr ⟨by omega, hdecember, rfl⟩)

/-- The first of a month exists. -/
theorem valid_first (year : ℤ) {month : ℤ} (hmonth : 1 ≤ month) (hmonthLe : month ≤ 12) :
    Valid ⟨year, month, 1⟩ := by
  have hlength := monthLength_bounds year month
  exact ⟨hmonth, hmonthLe, le_rfl, by simp only; omega⟩

theorem Valid.next (h : x.Valid) : x.next.Valid := by
  have hday := h.one_le_day
  have hmonth := h.one_le_month
  obtain ⟨hlt, hnext⟩ | ⟨-, hlt, hnext⟩ | ⟨-, -, hnext⟩ := next_cases h
  · rw [hnext]
    exact ⟨hmonth, h.month_le, by simp only; omega, by simp only; omega⟩
  · rw [hnext]
    exact valid_first x.year (by omega) (by omega)
  · rw [hnext]
    exact valid_first (x.year + 1) le_rfl (by norm_num)

theorem Valid.previous (h : x.Valid) : x.previous.Valid ∧ x.previous.next = x := by
  obtain ⟨year, month, day⟩ := x
  obtain ⟨hmonth, hmonthLe, hday, hdayLe⟩ := h
  simp only at hmonth hmonthLe hday hdayLe
  unfold Date.previous
  split
  · rename_i hlt
    refine ⟨⟨hmonth, hmonthLe, by simp only at hlt ⊢; omega, by simp only; omega⟩, ?_⟩
    have hbefore : day - 1 < monthLength year month := by omega
    simp [Date.next, hbefore]
  · rename_i hfirst
    obtain rfl : day = 1 := by simp only at hfirst; omega
    split
    · rename_i hlt
      simp only at hlt
      have hlength := monthLength_bounds year (month - 1)
      have hnotLast : month - 1 < 12 := by omega
      refine ⟨⟨by simp only; omega, by simp only; omega, by simp only; omega, le_rfl⟩, ?_⟩
      simp [Date.next, hnotLast]
    · rename_i hjanuary
      obtain rfl : month = 1 := by simp only at hjanuary; omega
      have hlength : monthLength (year - 1) 12 = 31 := by simp [monthLength]
      refine ⟨⟨by simp, by simp, by simp, by simp [hlength]⟩, ?_⟩
      simp [Date.next, hlength]

theorem Valid.dayOffset (h : x.Valid) (n : ℤ) : (x.dayOffset n).Valid := by
  cases n with
  | ofNat n =>
      exact Function.Iterate.rec (fun y : Date => y.Valid) h (fun _ hy => Valid.next hy) n
  | negSucc n =>
      exact Function.Iterate.rec (fun y : Date => y.Valid) h
        (fun _ hy => (Valid.previous hy).1) (n + 1)

theorem before_trichotomy (x y : Date) : x.before y ∨ x = y ∨ y.before x := by
  have heq : x = y ↔ x.year = y.year ∧ x.month = y.month ∧ x.day = y.day := by
    cases x
    cases y
    simp
  rw [heq]
  unfold before
  omega

/-- Nothing is between a date and the day after it. -/
theorem next_eq_or_before (hx : x.Valid) (hy : y.Valid) (h : x.before y) :
    x.next = y ∨ x.next.before y := by
  have hor := before_trichotomy x.next y
  refine or_iff_not_imp_right.2 fun hnot => (hor.resolve_left hnot).resolve_right fun hafter => ?_
  have hday := hy.one_le_day
  have hdayLe := hy.day_le
  have hmonth := hy.one_le_month
  have hmonthLe := hy.month_le
  obtain ⟨-, hnext⟩ | ⟨hlast, -, hnext⟩ | ⟨hlast, hdecember, hnext⟩ := next_cases hx
  · simp only [hnext, before] at h hafter
    omega
  · simp only [hnext, before] at h hafter
    have hsame : y.year = x.year ∧ y.month = x.month := by omega
    rw [hsame.1, hsame.2] at hdayLe
    omega
  · simp only [hnext, before] at h hafter
    have hsame : y.year = x.year ∧ y.month = x.month := by omega
    have hlength := monthLength_bounds y.year y.month
    omega

/-- Days numbered as if every month had 31 of them; only the order counts. -/
def rank (x : Date) : ℤ := 372 * x.year + 31 * x.month + x.day

theorem rank_lt_rank (hx : x.Valid) (hy : y.Valid) (h : x.before y) : rank x < rank y := by
  have hxlength := monthLength_bounds x.year x.month
  have hylength := monthLength_bounds y.year y.month
  obtain ⟨_, _, _, _⟩ := hx
  obtain ⟨_, _, _, _⟩ := hy
  unfold before at h
  unfold rank
  omega

theorem before_next (h : x.Valid) : x.before x.next := by
  obtain ⟨-, hnext⟩ | ⟨-, -, hnext⟩ | ⟨-, -, hnext⟩ := next_cases h
  · rw [hnext]
    exact .inr ⟨rfl, .inr ⟨rfl, lt_add_one _⟩⟩
  · rw [hnext]
    exact .inr ⟨rfl, .inl (lt_add_one _)⟩
  · rw [hnext]
    exact .inl (lt_add_one _)

end Date

open Date

/-- The function goes up by one from each day to the next. -/
def Counts (f : Date → ℤ) : Prop := ∀ x : Date, x.Valid → f x.next = f x + 1

namespace Counts

variable {f : Date → ℤ} {x y : Date}

theorem lt_of_before (hf : Counts f) (hx : x.Valid) (hy : y.Valid) (h : x.before y) :
    f x < f y := by
  -- by induction on the distance of the ranks
  generalize hn : (rank y - rank x).toNat = n
  induction n using Nat.strong_induction_on generalizing x with
  | _ n ih =>
      have hstep := hf x hx
      obtain hnext | hbefore := next_eq_or_before hx hy h
      · rw [hnext] at hstep
        omega
      · have hlt := rank_lt_rank hx hx.next (before_next hx)
        have hlt' := rank_lt_rank hx.next hy hbefore
        have hrest := ih _ (by omega) hx.next hbefore rfl
        omega

theorem lt_iff_before (hf : Counts f) (hx : x.Valid) (hy : y.Valid) : f x < f y ↔ x.before y := by
  refine ⟨fun hlt => ?_, hf.lt_of_before hx hy⟩
  obtain h | rfl | h := before_trichotomy x y
  · exact h
  · omega
  · have := hf.lt_of_before hy hx h
    omega

theorem injective (hf : Counts f) (hx : x.Valid) (hy : y.Valid) (h : f x = f y) : x = y := by
  obtain hlt | heq | hlt := before_trichotomy x y
  · have := hf.lt_of_before hx hy hlt
    omega
  · exact heq
  · have := hf.lt_of_before hy hx hlt
    omega

theorem dayOffset (hf : Counts f) (hx : x.Valid) (n : ℤ) : f (x.dayOffset n) = f x + n := by
  cases n with
  | ofNat n =>
      induction n with
      | zero => simp [Date.dayOffset]
      | succ n ih =>
          have hvalid : (next^[n] x).Valid := hx.dayOffset (.ofNat n)
          have hstep := hf (next^[n] x) hvalid
          simp only [Date.dayOffset, Int.ofNat_eq_natCast, Function.iterate_succ_apply'] at ih ⊢
          rw [hstep, ih]
          push_cast
          ring
  | negSucc n =>
      induction n with
      | zero =>
          have hstep := hf x.previous hx.previous.1
          rw [hx.previous.2] at hstep
          simp only [Date.dayOffset, Function.iterate_one, Nat.zero_add]
          omega
      | succ n ih =>
          have hvalid : (previous^[n + 1] x).Valid := hx.dayOffset (.negSucc n)
          have hstep := hf _ hvalid.previous.1
          rw [hvalid.previous.2] at hstep
          simp only [Date.dayOffset] at ih ⊢
          rw [Function.iterate_succ_apply' _ (n + 1)]
          rw [ih] at hstep
          omega

end Counts

end Calendar
