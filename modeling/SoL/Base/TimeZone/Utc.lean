import SoL.Base.Date
import SoL.Base.TimeZone.Data

/-!
# UTC and broken-down time

`toUtcTime` and `fromUtcTime` as the source computes them: the expressions of
type `int` are checked, and an overflow leaves no result. `time_t` is unbounded.
The text `"GMT"` of `tm_zone` is left out.

The date of a time is the one so many days from 1970-01-01 on in the calendar
(`civilDate`), and both functions go by it (`toUtcTime_eq`).
-/

namespace SoL

namespace Base

namespace TimeZone

open Arithmetic Calendar

def kSecondsPerDay : ℤ := 24 * 60 * 60

/-- The value of an expression, if it has not overflowed. -/
def int : CInt → Option ℤ
  | .value n => some n
  | .overflow => none

/-- `struct tm` after `bzero`. -/
def Tm.zero : Tm where
  sec := 0
  min := 0
  hour := 0
  mday := 0
  mon := 0
  year := 0
  wday := 0
  yday := 0
  isdst := 0
  gmtoff := 0
  zone := none

/-- `seconds` is unsigned. -/
def fillHMS (seconds : ℕ) (utc : Tm) : Tm :=
  let minutes := seconds / 60
  { utc with
    sec := (seconds % 60 : ℕ)
    min := (minutes % 60 : ℕ)
    hour := (minutes / 60 : ℕ) }

/-- The seconds of the day and the days since the epoch, both rounded down. -/
def splitDays (secondsSinceEpoch : ℤ) : Option (ℤ × ℤ) := do
  let seconds ← int (CInt.cast (secondsSinceEpoch.tmod kSecondsPerDay))
  let days ← int (CInt.cast (secondsSinceEpoch.tdiv kSecondsPerDay))
  if seconds < 0 then
    return (← int (seconds + kSecondsPerDay), ← int (days - 1))
  else return (seconds, days)

def toUtcTime (secondsSinceEpoch : ℤ) (yday : Bool) : Option Tm := do
  let (seconds, days) ← splitDays secondsSinceEpoch
  let utc := fillHMS (seconds % 2 ^ 32).toNat Tm.zero
  let date ← Date.ofCInt (days + Date.kJulianDayOf1970_01_01)
  let ymd ← date.yearMonthDay
  let year ← int (ymd.year - 1900)
  let mon ← int (ymd.month - 1)
  let wday ← int date.weekDay
  let utc := { utc with year := year, mon := mon, mday := ymd.day, wday := wday }
  if yday then
    let startOfYear ← Date.ofYearMonthDay ymd.year 1 1
    return { utc with yday := ← int (date.julianDayNumber - startOfYear.julianDayNumber) }
  else return utc

/-- `fromUtcTime` of six integers. -/
def fromUtcInts (year month day hour minute seconds : CInt) : Option ℤ := do
  let date ← Date.ofYearMonthDay year month day
  let secondsInDay ← int (hour * 3600 + minute * 60 + seconds)
  let days ← int (date.julianDayNumber - Date.kJulianDayOf1970_01_01)
  return days * kSecondsPerDay + secondsInDay

def fromUtcTime (utc : Tm) : Option ℤ :=
  fromUtcInts (utc.year + 1900) (utc.mon + 1) utc.mday utc.hour utc.min utc.sec

/-- The date of a time in the calendar. -/
def civilDate (seconds : ℤ) : YearMonthDay := Calendar.Date.dayOffset ⟨1970, 1, 1⟩ (seconds / 86400)

/-- The date that a broken-down time names. -/
def Tm.date (tm : Tm) : YearMonthDay := ⟨tm.year + 1900, tm.mon + 1, tm.mday⟩

/-- A broken-down time that exists. -/
structure Tm.Valid (tm : Tm) : Prop where
  sec : 0 ≤ tm.sec ∧ tm.sec ≤ 59
  min : 0 ≤ tm.min ∧ tm.min ≤ 59
  hour : 0 ≤ tm.hour ∧ tm.hour ≤ 23
  date : tm.date.Valid

section

variable {time : ℤ} {x : YearMonthDay}

theorem valid_epoch : Calendar.Date.Valid ⟨1970, 1, 1⟩ := by decide

theorem julianDay_epoch : julianDay ⟨1970, 1, 1⟩ = 2440588 := by decide

theorem kJulianDayOf1970_01_01_eq : Date.kJulianDayOf1970_01_01 = .value 2440588 := by decide

theorem valid_civilDate (time : ℤ) : (civilDate time).Valid := valid_epoch.dayOffset _

theorem julianDay_civilDate (time : ℤ) : julianDay (civilDate time) = 2440588 + time / 86400 := by
  rw [civilDate, counts_julianDay.dayOffset valid_epoch, julianDay_epoch]

/-- The Julian day numbers of the years in which the day of the week is right. -/
theorem julianDay_range (h : x.Valid) (hlow : -4712 ≤ x.year) (hhigh : x.year ≤ 1000000) :
    38 ≤ julianDay x ∧ julianDay x ≤ 366963925 := by
  have hfirst : Calendar.Date.Valid ⟨-4712, 1, 1⟩ := by decide
  have hlast : Calendar.Date.Valid ⟨1000000, 12, 31⟩ := by decide
  have hfirstDay : julianDay ⟨-4712, 1, 1⟩ = 38 := by decide
  have hlastDay : julianDay ⟨1000000, 12, 31⟩ = 366963925 := by decide
  have hmonthLe := h.month_le
  have hmonth := h.one_le_month
  have hday := h.one_le_day
  have hdayLe := h.day_le
  have hlength := monthLength_bounds x.year x.month
  constructor
  · rw [← hfirstDay, ← not_lt, counts_julianDay.lt_iff_before h hfirst]
    simp only [Calendar.Date.before]
    omega
  · rw [← hlastDay, ← not_lt, counts_julianDay.lt_iff_before hlast h]
    simp only [Calendar.Date.before]
    omega

/-- The correction after the truncated division gives the floor. -/
theorem splitDays_eq (time : ℤ) (hlow : -2147483648 < time / 86400)
    (hhigh : time / 86400 < 2147483647) :
    splitDays time = some (time % 86400, time / 86400) := by
  have hmod := Int.tmod_eq_emod (a := time) (b := 86400)
  have hdiv := Int.tdiv_eq_ediv (a := time) (b := 86400)
  have hseconds : kSecondsPerDay = 86400 := rfl
  by_cases hexact : 0 ≤ time ∨ 86400 ∣ time
  · rw [if_pos hexact, Nat.cast_zero, sub_zero] at hmod
    rw [if_pos hexact, add_zero] at hdiv
    have hnonneg : ¬ time % 86400 < 0 := by omega
    simp (disch := omega) only [splitDays, hseconds, hmod, hdiv, CInt.cast_eq_value, int,
      Option.bind_eq_bind, Option.bind_some, hnonneg, if_false]
    rfl
  · rw [if_neg hexact] at hmod hdiv
    have hsign : Int.sign 86400 = 1 := rfl
    have habs : ((86400 : ℤ).natAbs : ℤ) = 86400 := rfl
    rw [hsign] at hdiv
    rw [habs] at hmod
    have hneg : time % 86400 - 86400 < 0 := by omega
    simp (disch := omega) only [splitDays, hseconds, hmod, hdiv, CInt.cast_eq_value, int,
      Option.bind_eq_bind, Option.bind_some, hneg, if_true, CInt.one_eq_value, CInt.value_add,
      CInt.value_sub, sub_add_cancel, add_sub_cancel_right]
    rfl

/-- The broken-down time of a date and the seconds of the day. -/
def tmOf (x : YearMonthDay) (seconds : ℤ) (yday : ℤ) : Tm where
  sec := seconds % 60
  min := seconds / 60 % 60
  hour := seconds / 60 / 60
  mday := x.day
  mon := x.month - 1
  year := x.year - 1900
  wday := (julianDay x + 1) % 7
  yday := yday
  isdst := 0
  gmtoff := 0
  zone := none

theorem toUtcTime_eq (hlow : -4712 ≤ (civilDate time).year)
    (hhigh : (civilDate time).year ≤ 1000000) (yday : Bool) :
    toUtcTime time yday = some (tmOf (civilDate time) (time % 86400)
      (if yday then julianDay (civilDate time) - julianDay ⟨(civilDate time).year, 1, 1⟩
        else 0)) := by
  have hvalid := valid_civilDate time
  have hday := julianDay_civilDate time
  have hmonth := hvalid.one_le_month
  have hmonthLe := hvalid.month_le
  generalize civilDate time = x at *
  obtain ⟨hdayLow, hdayHigh⟩ := julianDay_range hvalid hlow hhigh
  have hfirst := Calendar.Date.valid_first x.year le_rfl (by norm_num : (1 : ℤ) ≤ 12)
  obtain ⟨hfirstLow, hfirstHigh⟩ := julianDay_range hfirst hlow hhigh
  have hsplit := splitDays_eq time (by omega) (by omega)
  have hdate : Date.ofCInt (CInt.value (time / 86400) + Date.kJulianDayOf1970_01_01) =
      some ⟨julianDay x⟩ := by
    have hsum : time / 86400 + 2440588 = julianDay x := by omega
    rw [kJulianDayOf1970_01_01_eq, CInt.value_add (by omega) (by omega), hsum]
    rfl
  have hymd : (Date.mk (julianDay x)).yearMonthDay = some x :=
    getYearMonthDay_julianDay hvalid (by omega) (by omega)
  have hstart : Date.ofYearMonthDay x.year 1 1 = some ⟨julianDay ⟨x.year, 1, 1⟩⟩ := by
    have heval := ofYearMonthDay_eq hfirst (by simp only; omega) (by simp only; omega)
    exact heval
  have hyear : int (x.year - 1900) = some (x.year - 1900) := by
    rw [CInt.ofNat_eq_value, CInt.value_sub (by omega) (by omega), int]
  have hmon : int (x.month - 1) = some (x.month - 1) := by
    rw [CInt.one_eq_value, CInt.value_sub (by omega) (by omega), int]
  have hwday : int (Date.mk (julianDay x)).weekDay = some ((julianDay x + 1) % 7) := by
    simp (disch := omega) only [Date.weekDay, Date.kDaysPerWeek, CInt.ofNat_eq_value,
      CInt.one_eq_value, CInt.value_add, CInt.value_mod, int]
  have hyday : int (julianDay x - julianDay ⟨x.year, 1, 1⟩ : CInt) =
      some (julianDay x - julianDay ⟨x.year, 1, 1⟩) := by
    rw [CInt.value_sub (by omega) (by omega), int]
  have hseconds : fillHMS (time % 86400 % 2 ^ 32).toNat Tm.zero = { Tm.zero with
      sec := time % 86400 % 60
      min := time % 86400 / 60 % 60
      hour := time % 86400 / 60 / 60 } := by
    have hword : time % 86400 % 2 ^ 32 = time % 86400 := by omega
    obtain ⟨n, hn⟩ := Int.eq_ofNat_of_zero_le (Int.emod_nonneg time (by norm_num : (86400 : ℤ) ≠ 0))
    rw [hword, hn, Int.toNat_natCast]
    simp [fillHMS]
  unfold toUtcTime
  simp only [hsplit, hdate, hymd, hyear, hmon, hwday, hseconds, hstart, hyday,
    Option.bind_eq_bind, Option.bind_some]
  cases yday <;> rfl

theorem date_tmOf (x : YearMonthDay) (seconds yday : ℤ) : (tmOf x seconds yday).date = x := by
  simp [Tm.date, tmOf]

theorem valid_tmOf (hx : x.Valid) {seconds : ℤ} (hlow : 0 ≤ seconds) (hhigh : seconds < 86400)
    (yday : ℤ) : (tmOf x seconds yday).Valid := by
  refine ⟨?_, ?_, ?_, by rwa [date_tmOf]⟩
  · simp only [tmOf]
    omega
  · simp only [tmOf]
    omega
  · simp only [tmOf]
    omega

theorem fromUtcTime_eq {tm : Tm} (h : tm.Valid) (hlow : -4712 ≤ tm.date.year)
    (hhigh : tm.date.year ≤ 1000000) :
    fromUtcTime tm = some ((julianDay tm.date - 2440588) * 86400 +
      (tm.hour * 3600 + tm.min * 60 + tm.sec)) := by
  obtain ⟨hdayLow, hdayHigh⟩ := julianDay_range h.date hlow hhigh
  have hmonth : 1 ≤ tm.mon + 1 ∧ tm.mon + 1 ≤ 12 := ⟨h.date.one_le_month, h.date.month_le⟩
  have hyears : -4712 ≤ tm.year + 1900 ∧ tm.year + 1900 ≤ 1000000 := ⟨hlow, hhigh⟩
  obtain ⟨hsec, hmin, hhour, hdate⟩ := h
  have hyear : CInt.value tm.year + 1900 = .value tm.date.year := by
    rw [CInt.ofNat_eq_value, CInt.value_add (by omega) (by omega)]
    rfl
  have hmon : CInt.value tm.mon + 1 = .value tm.date.month := by
    rw [CInt.one_eq_value, CInt.value_add (by omega) (by omega)]
    rfl
  have hjulian : Date.ofYearMonthDay tm.date.year tm.date.month tm.mday =
      some ⟨julianDay tm.date⟩ := ofYearMonthDay_eq hdate (by omega) (by omega)
  have hseconds : int (tm.hour * 3600 + tm.min * 60 + tm.sec : CInt) =
      some (tm.hour * 3600 + tm.min * 60 + tm.sec) := by
    simp (disch := omega) only [CInt.ofNat_eq_value, CInt.value_mul, CInt.value_add, int]
  have hdays : int (julianDay tm.date - Date.kJulianDayOf1970_01_01) =
      some (julianDay tm.date - 2440588) := by
    rw [kJulianDayOf1970_01_01_eq, CInt.value_sub (by omega) (by omega), int]
  simp only [fromUtcTime, fromUtcInts, hyear, hmon, hjulian, hseconds, hdays,
    Option.bind_eq_bind, Option.bind_some]
  rfl

end

/-- The years for which the conversions are made. -/
def inYears (x : YearMonthDay) : Prop := -4712 ≤ x.year ∧ x.year ≤ 1000000

instance (x : YearMonthDay) : Decidable (inYears x) :=
  inferInstanceAs (Decidable (-4712 ≤ x.year ∧ x.year ≤ 1000000))

/-- A time is broken down into a time that exists, with the right day of the week and
of the year, and comes back; and a broken-down time comes back from the time that it
names. -/
theorem toUtcTime_fromUtcTime :
    (∀ time, inYears (civilDate time) →
      (∃ tm, toUtcTime time true = some tm ∧ tm.Valid ∧ tm.date = civilDate time ∧
        tm.wday = (4 + time / 86400) % 7 ∧
        Calendar.Date.dayOffset ⟨tm.year + 1900, 1, 1⟩ tm.yday = tm.date) ∧
      ∀ yday, ∃ tm, toUtcTime time yday = some tm ∧ fromUtcTime tm = some time) ∧
    ∀ tm : Tm, tm.Valid → inYears tm.date →
      ∃ time, fromUtcTime tm = some time ∧ ∀ yday, ∃ back, toUtcTime time yday = some back ∧
        back.date = tm.date ∧ back.hour = tm.hour ∧ back.min = tm.min ∧ back.sec = tm.sec := by
  constructor
  · rintro time ⟨hlow, hhigh⟩
    have hvalid := valid_civilDate time
    have hday := julianDay_civilDate time
    have htm : ∀ yday, (tmOf (civilDate time) (time % 86400) yday).Valid :=
      valid_tmOf hvalid (by omega) (by omega)
    refine ⟨⟨_, toUtcTime_eq hlow hhigh true, htm _, date_tmOf _ _ _, ?_, ?_⟩, fun yday =>
      ⟨_, toUtcTime_eq hlow hhigh yday, ?_⟩⟩
    · simp only [tmOf, hday]
      omega
    · have hfirst := Calendar.Date.valid_first (civilDate time).year le_rfl
        (by norm_num : (1 : ℤ) ≤ 12)
      rw [date_tmOf]
      simp only [tmOf, sub_add_cancel, if_true]
      refine counts_julianDay.injective (hfirst.dayOffset _) hvalid ?_
      rw [counts_julianDay.dayOffset hfirst]
      ring
    · rw [fromUtcTime_eq (htm _) (by rwa [date_tmOf]) (by rwa [date_tmOf]), date_tmOf, hday]
      simp only [tmOf, Option.some.injEq]
      omega
  · rintro tm hvalid ⟨hlow, hhigh⟩
    refine ⟨_, fromUtcTime_eq hvalid hlow hhigh, fun yday => ?_⟩
    obtain ⟨hsec, hmin, hhour, hdate⟩ := hvalid
    generalize htime : (julianDay tm.date - 2440588) * 86400 +
      (tm.hour * 3600 + tm.min * 60 + tm.sec) = time
    have hcivil : civilDate time = tm.date := by
      refine counts_julianDay.injective (valid_civilDate time) hdate ?_
      rw [julianDay_civilDate]
      omega
    refine ⟨_, toUtcTime_eq (hcivil ▸ hlow) (hcivil ▸ hhigh) yday, ?_, ?_, ?_, ?_⟩
    · rw [date_tmOf, hcivil]
    · simp only [tmOf]
      omega
    · simp only [tmOf]
      omega
    · simp only [tmOf]
      omega

/-- Noon of the leap day of 2000. -/
def leapNoon : Tm := { Tm.zero with hour := 12, mday := 29, mon := 1, year := 100 }

/-- The second before the epoch, and the noon of a leap day. -/
theorem toUtcTime_fromUtcTime_leapNoon :
    inYears (civilDate (-1)) ∧
      (∃ tm, toUtcTime (-1) true = some tm ∧ fromUtcTime tm = some (-1)) ∧
      ∃ time, fromUtcTime leapNoon = some time ∧ ∀ yday, ∃ back, toUtcTime time yday = some back ∧
        back.date = leapNoon.date ∧ back.hour = 12 ∧ back.min = 0 ∧ back.sec = 0 := by
  have hyears : inYears (civilDate (-1)) := by decide
  have hvalid : leapNoon.Valid := ⟨by decide, by decide, by decide, by decide⟩
  exact ⟨hyears, (toUtcTime_fromUtcTime.1 (-1) hyears).2 true,
    toUtcTime_fromUtcTime.2 leapNoon hvalid (by decide)⟩

end TimeZone

end Base

end SoL
