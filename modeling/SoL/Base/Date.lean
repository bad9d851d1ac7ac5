import SoL.Arithmetic.CInt
import SoL.Calendar.Gregorian

/-!
# Dates as Julian day numbers

`getJulianDayNumber` and `getYearMonthDay` as the source computes them, in
expressions of type `int`. `julianDay` is what the first comes to with floor
division and without bounds, and it counts the days of the calendar
(`counts_julianDay`). The years of both functions begin in March: year `100 * b + d`
of the March years begins `146097 * b / 4 + 1461 * d / 4` days after year `0`.
-/

namespace SoL

namespace Base

open Arithmetic Calendar

abbrev YearMonthDay := Calendar.Date

def getJulianDayNumber (year month day : CInt) : CInt :=
  let a := (14 - month) / 12
  let y := year + 4800 - a
  let m := month + 12 * a - 3
  day + (153 * m + 2) / 5 + y * 365 + y / 4 - y / 100 + y / 400 - 32045

/-- An overflow in any of the expressions leaves no result. -/
def getYearMonthDay (julianDayNumber : CInt) : Option YearMonthDay :=
  let a := julianDayNumber + 32044
  let b := (4 * a + 3) / 146097
  let c := a - ((b * 146097) / 4)
  let d := (4 * c + 3) / 1461
  let e := c - ((1461 * d) / 4)
  let m := (5 * e + 2) / 153
  let day := e - ((153 * m + 2) / 5) + 1
  let month := m + 3 - 12 * (m / 10)
  let year := b * 100 + d - 4800 + (m / 10)
  match year, month, day with
  | .value year, .value month, .value day => some ⟨year, month, day⟩
  | _, _, _ => none

/-- A `Date` is its Julian day number. -/
structure Date where
  julianDayNumber : ℤ
  deriving DecidableEq

namespace Date

def kDaysPerWeek : CInt := 7

/-- The constructor from a Julian day number. -/
def ofCInt : CInt → Option Date
  | .value n => some ⟨n⟩
  | .overflow => none

/-- The constructor from year, month and day. -/
def ofYearMonthDay (year month day : CInt) : Option Date :=
  ofCInt (getJulianDayNumber year month day)

def kJulianDayOf1970_01_01 : CInt := getJulianDayNumber 1970 1 1

def yearMonthDay (date : Date) : Option YearMonthDay := getYearMonthDay date.julianDayNumber

def weekDay (date : Date) : CInt := (date.julianDayNumber + 1) % kDaysPerWeek

/-- `operator<`. -/
def lt (x y : Date) : Bool := x.julianDayNumber < y.julianDayNumber

end Date

/-- The month of a year that begins in March, from `0` on. -/
def marchMonth (month : ℤ) : ℤ := month + 12 * ((14 - month) / 12) - 3

/-- The year that begins in March, from year `-4800` on. -/
def marchYear (x : YearMonthDay) : ℤ := x.year + 4800 - (14 - x.month) / 12

def julianDay (x : YearMonthDay) : ℤ :=
  x.day + (153 * marchMonth x.month + 2) / 5 + marchYear x * 365 + marchYear x / 4 -
    marchYear x / 100 + marchYear x / 400 - 32045

section

variable {x y : YearMonthDay}

theorem getJulianDayNumber_eq (h : x.Valid) (hlow : -4799 ≤ x.year) (hhigh : x.year ≤ 1000001) :
    getJulianDayNumber x.year x.month x.day = .value (julianDay x) := by
  have hlength := monthLength_bounds x.year x.month
  obtain ⟨hmonth, hmonthLe, hday, hdayLe⟩ := h
  simp (disch := omega) only [getJulianDayNumber, CInt.ofNat_eq_value, CInt.value_add,
    CInt.value_sub, CInt.value_mul, CInt.value_div]
  rfl

theorem ofYearMonthDay_eq (h : x.Valid) (hlow : -4799 ≤ x.year) (hhigh : x.year ≤ 1000001) :
    Date.ofYearMonthDay x.year x.month x.day = some ⟨julianDay x⟩ :=
  congrArg Date.ofCInt (getJulianDayNumber_eq h hlow hhigh)

/-- Years that begin in March end with the leap day. -/
theorem julianDay_march (year : ℤ) :
    julianDay ⟨year, 3, 1⟩ = julianDay ⟨year, 2, monthLength year 2⟩ + 1 := by
  by_cases hleap : isLeap year
  · have hlength : monthLength year 2 = 29 := by simp [monthLength, hleap]
    unfold isLeap at hleap
    simp only [hlength, julianDay, marchYear, marchMonth]
    omega
  · have hlength : monthLength year 2 = 28 := by simp [monthLength, hleap]
    unfold isLeap at hleap
    simp only [hlength, julianDay, marchYear, marchMonth]
    omega

/-- The first of a month follows the last of the month before. -/
theorem julianDay_first (year : ℤ) {month : ℤ} (hmonth : 1 ≤ month) (hlt : month < 12) :
    julianDay ⟨year, month + 1, 1⟩ = julianDay ⟨year, month, monthLength year month⟩ + 1 := by
  by_cases hfebruary : month = 2
  · subst hfebruary
    exact julianDay_march year
  · have hlength := monthLength_of_ne year hfebruary
    have hyear : marchYear ⟨year, month + 1, 1⟩ =
        marchYear ⟨year, month, monthLength year month⟩ := by
      simp only [marchYear]
      omega
    have hdays : (153 * marchMonth (month + 1) + 2) / 5 =
        (153 * marchMonth month + 2) / 5 + monthLength year month := by
      rw [hlength]
      simp only [marchMonth]
      split
      · interval_cases month <;> omega
      · interval_cases month <;> omega
    simp only [julianDay, hyear, hdays]
    ring

/-- The Julian day number counts the days of the calendar. -/
theorem counts_julianDay : Counts julianDay := by
  intro x hx
  obtain ⟨-, hnext⟩ | ⟨hlast, hlt, hnext⟩ | ⟨hlast, hdecember, hnext⟩ :=
    Calendar.Date.next_cases hx
  · rw [hnext]
    simp only [julianDay, marchYear]
    ring
  · rw [hnext, julianDay_first x.year hx.one_le_month hlt, ← hlast]
  · rw [hnext]
    simp only [julianDay, marchYear, marchMonth, hlast, hdecember]
    omega

/-- The day of a year that begins in March, from `0` on. -/
def marchDay (x : YearMonthDay) : ℤ := x.day + (153 * marchMonth x.month + 2) / 5 - 1

/-- The day of a year decides its month, and only a leap year has a day `365`. -/
theorem marchDay_spec (h : x.Valid) :
    0 ≤ marchDay x ∧ marchDay x ≤ 365 ∧ (marchDay x = 365 → isLeap (marchYear x + 1)) ∧
      (5 * marchDay x + 2) / 153 = marchMonth x.month := by
  obtain ⟨year, month, day⟩ := x
  obtain ⟨hmonth, hmonthLe, hday, hdayLe⟩ := h
  simp only at hmonth hmonthLe hday hdayLe
  by_cases hfebruary : month = 2
  · subst hfebruary
    have hlength : monthLength year 2 = if isLeap year then 29 else 28 := rfl
    rw [hlength] at hdayLe
    simp only [marchDay, marchMonth, marchYear]
    refine ⟨by omega, by split at hdayLe <;> omega, fun hlast => ?_, by
      split at hdayLe <;> omega⟩
    split at hdayLe
    · rename_i hleap
      unfold isLeap at hleap ⊢
      omega
    · omega
  · have hlength := monthLength_of_ne year hfebruary
    rw [hlength] at hdayLe
    simp only [marchDay, marchMonth]
    split at hdayLe
    · interval_cases month <;> omega
    · interval_cases month <;> omega

theorem julianDay_eq (x : YearMonthDay) :
    julianDay x + 32044 = marchDay x + marchYear x * 365 + marchYear x / 4 - marchYear x / 100 +
      marchYear x / 400 := by
  unfold julianDay marchDay
  ring

/-- The divisions by the lengths of four hundred and of four years find the century,
the year and the day of a March year. -/
theorem march_divisions {year day : ℤ} (hday : 0 ≤ day) (hdayLe : day ≤ 365)
    (hleap : day = 365 → isLeap (year + 1)) :
    let a := day + year * 365 + year / 4 - year / 100 + year / 400
    let b := year / 100
    let d := year % 100
    (4 * a + 3) / 146097 = b ∧ (4 * (a - b * 146097 / 4) + 3) / 1461 = d ∧
      a - b * 146097 / 4 - 1461 * d / 4 = day := by
  intro a b d
  have hyear : year = 100 * b + d := (Int.mul_ediv_add_emod year 100).symm
  have hd : 0 ≤ d ∧ d < 100 := ⟨Int.emod_nonneg _ (by norm_num), Int.emod_lt_of_pos _ (by norm_num)⟩
  have hcenturies : b * 146097 / 4 = 36524 * b + b / 4 := by omega
  have hyears : 1461 * d / 4 = 365 * d + d / 4 := by omega
  have ha : a = 36524 * b + b / 4 + (365 * d + d / 4) + day := by
    simp only [a]
    omega
  have hleap : day = 365 → d % 4 = 3 ∧ (d = 99 → b % 4 = 3) := by
    intro hlast
    have hyearLeap := hleap hlast
    unfold isLeap at hyearLeap
    omega
  clear_value a b d
  refine ⟨by omega, by omega, by omega⟩

/-- The expressions of `getYearMonthDay` one after another. -/
theorem getYearMonthDay_eval {a b c d e m : ℤ} (ha : 0 ≤ a ∧ a < 500000000)
    (hb : (4 * a + 3) / 146097 = b) (hc : a - b * 146097 / 4 = c) (hd : (4 * c + 3) / 1461 = d)
    (he : c - 1461 * d / 4 = e) (hm : (5 * e + 2) / 153 = m) :
    getYearMonthDay (.value (a - 32044)) =
      some ⟨b * 100 + d - 4800 + m / 10, m + 3 - 12 * (m / 10), e - (153 * m + 2) / 5 + 1⟩ := by
  have hbBounds : 0 ≤ b ∧ b < 20000 := by omega
  have hcBounds : 0 ≤ c ∧ c < 40000 := by omega
  have hdBounds : 0 ≤ d ∧ d < 200 := by omega
  have heBounds : 0 ≤ e ∧ e < 400 := by omega
  have hmBounds : 0 ≤ m ∧ m < 20 := by omega
  have haValue : CInt.value (a - 32044) + 32044 = .value a := by
    simp (disch := omega) only [CInt.ofNat_eq_value, CInt.value_add, sub_add_cancel]
  have hbValue : (4 * CInt.value a + 3) / 146097 = .value b := by
    simp (disch := omega) only [CInt.ofNat_eq_value, CInt.value_add, CInt.value_mul,
      CInt.value_div, hb]
  have hcValue : CInt.value a - CInt.value b * 146097 / 4 = .value c := by
    simp (disch := omega) only [CInt.ofNat_eq_value, CInt.value_sub, CInt.value_mul,
      CInt.value_div, hc]
  have hdValue : (4 * CInt.value c + 3) / 1461 = .value d := by
    simp (disch := omega) only [CInt.ofNat_eq_value, CInt.value_add, CInt.value_mul,
      CInt.value_div, hd]
  have heValue : CInt.value c - 1461 * CInt.value d / 4 = .value e := by
    simp (disch := omega) only [CInt.ofNat_eq_value, CInt.value_sub, CInt.value_mul,
      CInt.value_div, he]
  have hmValue : (5 * CInt.value e + 2) / 153 = .value m := by
    simp (disch := omega) only [CInt.ofNat_eq_value, CInt.value_add, CInt.value_mul,
      CInt.value_div, hm]
  simp only [getYearMonthDay, haValue, hbValue, hcValue, hdValue, heValue, hmValue]
  simp (disch := omega) only [CInt.ofNat_eq_value, CInt.one_eq_value, CInt.value_add,
    CInt.value_sub, CInt.value_mul, CInt.value_div]

theorem julianDay_bounds (h : x.Valid) (hlow : -4799 ≤ x.year) (hhigh : x.year ≤ 1000001) :
    0 ≤ julianDay x + 32044 ∧ julianDay x + 32044 < 500000000 := by
  obtain ⟨hday, hdayLe, -, -⟩ := marchDay_spec h
  have hmonth := h.one_le_month
  have hmonthLe := h.month_le
  have hyear : 0 ≤ marchYear x ∧ marchYear x ≤ 1004801 := by
    unfold marchYear
    omega
  rw [julianDay_eq]
  omega

theorem getYearMonthDay_julianDay (h : x.Valid) (hlow : -4799 ≤ x.year)
    (hhigh : x.year ≤ 1000001) : getYearMonthDay (.value (julianDay x)) = some x := by
  obtain ⟨hday, hdayLe, hleap, hmonth⟩ := marchDay_spec h
  obtain ⟨hcentury, hyear, hdayOfYear⟩ := march_divisions hday hdayLe hleap
  rw [← julianDay_eq] at hcentury hyear hdayOfYear
  have heval := getYearMonthDay_eval (julianDay_bounds h hlow hhigh) hcentury rfl hyear
    hdayOfYear hmonth
  rw [add_sub_cancel_right] at heval
  rw [heval]
  have hone := h.one_le_month
  have htwelve := h.month_le
  have hcarry : marchMonth x.month / 10 = (14 - x.month) / 12 := by
    unfold marchMonth
    omega
  have hyearBack : marchYear x / 100 * 100 + marchYear x % 100 - 4800 + (14 - x.month) / 12 =
      x.year := by
    have hsplit := Int.ediv_mul_add_emod (marchYear x) 100
    unfold marchYear at hsplit ⊢
    omega
  have hmonthBack : marchMonth x.month + 3 - 12 * ((14 - x.month) / 12) = x.month := by
    unfold marchMonth
    ring
  have hdayBack : marchDay x - (153 * marchMonth x.month + 2) / 5 + 1 = x.day := by
    unfold marchDay
    ring
  rw [hcarry, hyearBack, hmonthBack, hdayBack]

/-- The day of a Julian day number that is not before that of `x`. -/
theorem exists_julianDay (hx : x.Valid) {j : ℤ} (hj : julianDay x ≤ j) :
    ∃ y : YearMonthDay, y.Valid ∧ julianDay y = j ∧ x.year ≤ y.year := by
  refine ⟨x.dayOffset (j - julianDay x), hx.dayOffset _, ?_, ?_⟩
  · rw [counts_julianDay.dayOffset hx]
    ring
  · by_contra hlt
    have hbefore : (x.dayOffset (j - julianDay x)).before x := .inl (not_le.1 hlt)
    have hless := counts_julianDay.lt_of_before (hx.dayOffset _) hx hbefore
    rw [counts_julianDay.dayOffset hx] at hless
    omega

theorem year_le_of_julianDay_le (hx : x.Valid) (hy : y.Valid) (h : julianDay y ≤ julianDay x) :
    y.year ≤ x.year := by
  by_contra hlt
  have hless := counts_julianDay.lt_of_before hx hy (.inl (not_le.1 hlt))
  omega

theorem year_next_le (h : x.Valid) : x.next.year ≤ x.year + 1 ∧ x.year ≤ x.next.year := by
  obtain ⟨-, hnext⟩ | ⟨-, -, hnext⟩ | ⟨-, -, hnext⟩ := Calendar.Date.next_cases h
  · rw [hnext]
    simp
  · rw [hnext]
    simp
  · rw [hnext]
    simp

end

/-- The two conversions are inverse to each other, and nothing overflows. -/
theorem getYearMonthDay_getJulianDayNumber :
    (∀ x : YearMonthDay, x.Valid → -4799 ≤ x.year → x.year ≤ 1000000 →
      ∃ j, getJulianDayNumber x.year x.month x.day = .value j ∧
        getYearMonthDay (.value j) = some x) ∧
    ∀ first last j : ℤ, getJulianDayNumber (-4799 : ℤ) 1 1 = .value first →
      getJulianDayNumber 1000000 12 31 = .value last → first ≤ j → j ≤ last →
      ∃ x : YearMonthDay, getYearMonthDay (.value j) = some x ∧ x.Valid ∧ -4799 ≤ x.year ∧
        x.year ≤ 1000000 ∧ getJulianDayNumber x.year x.month x.day = .value j := by
  constructor
  · intro x hx hlow hhigh
    exact ⟨julianDay x, getJulianDayNumber_eq hx hlow (by omega),
      getYearMonthDay_julianDay hx hlow (by omega)⟩
  · intro first last j hfirst hlast hfirstLe hleLast
    have hfirstValid : Calendar.Date.Valid ⟨-4799, 1, 1⟩ := by decide
    have hlastValid : Calendar.Date.Valid ⟨1000000, 12, 31⟩ := by decide
    obtain rfl : julianDay ⟨-4799, 1, 1⟩ = first := by
      have heval := getJulianDayNumber_eq hfirstValid le_rfl (by simp)
      exact CInt.value.inj (heval.symm.trans hfirst)
    obtain rfl : julianDay ⟨1000000, 12, 31⟩ = last := by
      have heval := getJulianDayNumber_eq hlastValid (by simp) (by simp)
      exact CInt.value.inj (heval.symm.trans hlast)
    obtain ⟨x, hx, rfl, hlow⟩ := exists_julianDay hfirstValid hfirstLe
    have hlow : -4799 ≤ x.year := hlow
    have hhigh : x.year ≤ 1000000 := year_le_of_julianDay_le hlastValid hx hleLast
    exact ⟨x, getYearMonthDay_julianDay hx hlow (by omega), hx, hlow, hhigh,
      getJulianDayNumber_eq hx hlow (by omega)⟩

/-- The leap day of 2000, and day `0` of the Julian period. -/
theorem getYearMonthDay_getJulianDayNumber_leapDay :
    (∃ j, getJulianDayNumber 2000 2 29 = .value j ∧
      getYearMonthDay (.value j) = some ⟨2000, 2, 29⟩) ∧
    ∃ x : YearMonthDay, getYearMonthDay (.value 0) = some x ∧ x.Valid ∧ -4799 ≤ x.year ∧
      x.year ≤ 1000000 ∧ getJulianDayNumber x.year x.month x.day = .value 0 :=
  ⟨getYearMonthDay_getJulianDayNumber.1 ⟨2000, 2, 29⟩ (by decide) (by decide) (by decide),
    getYearMonthDay_getJulianDayNumber.2 (-31738) 366963925 0 (by decide) (by decide) (by decide)
      (by decide)⟩

/-- The number of the next day is one more, and dates compare like their year, month and
day. -/
theorem getJulianDayNumber_next :
    (∀ x : YearMonthDay, x.Valid → -4799 ≤ x.year → x.year ≤ 1000000 →
      ∃ j, getJulianDayNumber x.year x.month x.day = .value j ∧
        getJulianDayNumber x.next.year x.next.month x.next.day = .value (j + 1)) ∧
    ∀ x y : YearMonthDay, x.Valid → -4799 ≤ x.year → x.year ≤ 1000000 →
      y.Valid → -4799 ≤ y.year → y.year ≤ 1000000 →
      ∃ a b, Date.ofYearMonthDay x.year x.month x.day = some a ∧
        Date.ofYearMonthDay y.year y.month y.day = some b ∧ (a.lt b = true ↔ x.before y) := by
  constructor
  · intro x hx hlow hhigh
    have hyear := year_next_le hx
    refine ⟨julianDay x, getJulianDayNumber_eq hx hlow (by omega), ?_⟩
    rw [getJulianDayNumber_eq hx.next (by omega) (by omega), counts_julianDay x hx]
  · intro x y hx hxlow hxhigh hy hylow hyhigh
    refine ⟨⟨julianDay x⟩, ⟨julianDay y⟩, ofYearMonthDay_eq hx hxlow (by omega),
      ofYearMonthDay_eq hy hylow (by omega), ?_⟩
    rw [Date.lt, decide_eq_true_iff]
    exact counts_julianDay.lt_iff_before hx hy

/-- The end of February in a century that is not a leap year. -/
theorem getJulianDayNumber_next_february :
    (∃ j, getJulianDayNumber 1900 2 28 = .value j ∧ getJulianDayNumber 1900 3 1 = .value (j + 1)) ∧
    ∃ a b, Date.ofYearMonthDay 1900 2 28 = some a ∧ Date.ofYearMonthDay 1900 3 1 = some b ∧
      (a.lt b = true ↔ Calendar.Date.before ⟨1900, 2, 28⟩ ⟨1900, 3, 1⟩) :=
  ⟨getJulianDayNumber_next.1 ⟨1900, 2, 28⟩ (by decide) (by decide) (by decide),
    getJulianDayNumber_next.2 ⟨1900, 2, 28⟩ ⟨1900, 3, 1⟩ (by decide) (by decide) (by decide)
      (by decide) (by decide) (by decide)⟩

end Base

end SoL
