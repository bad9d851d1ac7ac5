import SoL.Base.Logging.Time
import SoL.Base.StringPiece
import SoL.Base.TimeZone.Utc
import SoL.Sequence.FixedWidth

/-!
# Times as texts

The texts of a `Timestamp` and of a `Date` are fields of one width, the larger unit first.
So their order, as strings, is the order of time (`toFormattedString_lt_iff`,
`toIsoString_lt_iff`). `gmtime_r` goes by the calendar, as `TimeZone::toUtcTime` does
(`toUtcTime_eq_gmtime`).
-/

namespace SoL

namespace Base

open Calendar LogStream Logger Sequence TimeZone

/-- `gmtime_r`. -/
def gmtime (t : ℤ) : Tm :=
  tmOf (civilDate t) (t % 86400)
    (julianDay (civilDate t) - julianDay ⟨(civilDate t).year, 1, 1⟩)

theorem toUtcTime_eq_gmtime {t : ℤ} (h : inYears (civilDate t)) :
    toUtcTime t true = some (gmtime t) :=
  toUtcTime_eq h.1 h.2 true

/-- A number in a field that is filled with zeros, behind the sign if there is one. -/
def zeroPadded (width : ℕ) (v : ℤ) : List UInt8 :=
  if v < 0 then chars "-" ++ padded (width - 1) 48 v.natAbs else padded width 48 v

structure Timestamp where
  microSecondsSinceEpoch : ℤ

namespace Timestamp

def kMicroSecondsPerSecond : ℤ := 1000 * 1000

def secondsSinceEpoch (x : Timestamp) : ℤ := x.microSecondsSinceEpoch.tdiv kMicroSecondsPerSecond

/-- `operator<`. -/
def lt (x y : Timestamp) : Bool := x.microSecondsSinceEpoch < y.microSecondsSinceEpoch

/-- The buffer has 32 characters. -/
def toFormattedString (x : Timestamp) (showMicroseconds : Bool) : List UInt8 :=
  let seconds := x.microSecondsSinceEpoch.tdiv kMicroSecondsPerSecond
  let text := timeText (gmtime seconds)
  if showMicroseconds then
    let microseconds := x.microSecondsSinceEpoch.tmod kMicroSecondsPerSecond
    (text ++ chars "." ++ zeroPadded 6 microseconds).take 31
  else text.take 31

end Timestamp

/-- `Date::toIsoString`. -/
def Date.toIsoString (date : Date) : Option (List UInt8) := do
  let ymd ← date.yearMonthDay
  return (padded 4 32 ymd.year ++ chars "-" ++ zeroPadded 2 ymd.month ++ chars "-" ++
    zeroPadded 2 ymd.day).take 31

section Fields

theorem decimalDigit_lt {c d : ℕ} (hcd : c < d) (hd : d < 10) :
    decimalDigit c < decimalDigit d := by
  interval_cases d <;> interval_cases c <;> decide

theorem fill_lt_decimalDigit {fill : UInt8} (hfill : fill ≤ 48) {d : ℕ} (hpos : 0 < d)
    (hd : d < 10) : fill < decimalDigit d := by
  have hzero : decimalDigit 0 = 48 := rfl
  exact UInt8.lt_of_le_of_lt (hzero ▸ hfill) (decimalDigit_lt hpos hd)

/-- A number in a field, digit by digit. -/
theorem padded_eq_padDigits (fill : UInt8) {width n : ℕ} (hn : n < 10 ^ (width + 1)) :
    padded (width + 1) fill n = padDigits 10 decimalDigit fill width n := by
  induction width generalizing n with
  | zero =>
      rw [zero_add, pow_one] at hn
      rw [padded, numeral_eq, if_pos (Nat.div_eq_of_lt hn)]
      rfl
  | succ width ih =>
      rw [padded, numeral_eq, padDigits]
      by_cases hlt : n < 10
      · rw [if_pos (Nat.div_eq_of_lt hlt), if_pos hlt]
        rfl
      · have hdiv : n / 10 ≠ 0 := by omega
        have hquot : n / 10 < 10 ^ (width + 1) := by
          rw [pow_succ] at hn
          omega
        rw [if_neg hdiv, if_neg hlt, ← ih hquot, padded, List.length_append, List.length_singleton,
          Nat.add_sub_add_right, List.append_assoc]

/-- A field may be filled with blanks. -/
theorem blank_le : (32 : UInt8) ≤ 48 := by decide

theorem fixedWidth_padded {fill : UInt8} (hfill : fill ≤ 48) (width : ℕ) :
    FixedWidth (Set.Ico (0 : ℤ) (10 ^ (width + 1))) (width + 1) (padded (width + 1) fill) := by
  have hdigits : FixedWidth (Set.Iio (10 ^ (width + 1))) (width + 1)
      (padDigits 10 decimalDigit fill width) :=
    fixedWidth_padDigits (fun _ _ => decimalDigit_lt) (fun _ => fill_lt_decimalDigit hfill) width
  have hlt : ∀ v ∈ Set.Ico (0 : ℤ) (10 ^ (width + 1)), v.toNat < 10 ^ (width + 1) := by
    rintro v ⟨hlow, hhigh⟩
    rw [Int.toNat_lt hlow]
    exact_mod_cast hhigh
  refine (hdigits.comp (f := Int.toNat) hlt fun v hv w hw hvw => ?_).congr fun v hv => ?_
  · have hlow := hv.1
    omega
  · have hcast : (v.toNat : ℤ) = v := Int.toNat_of_nonneg hv.1
    rw [Function.comp_apply, ← padded_eq_padDigits fill (hlt v hv), hcast]

end Fields

/-- A date in fields, the year first. -/
def dateText (fill : UInt8) (sep : List UInt8) (x : YearMonthDay) : List UInt8 :=
  padded 4 fill x.year ++ (sep ++ (padded 2 48 x.month ++ (sep ++ padded 2 48 x.day)))

/-- The time of the day in fields. -/
def clockText (sep : List UInt8) (seconds : ℤ) : List UInt8 :=
  padded 2 48 (seconds / 60 / 60) ++
    (sep ++ (padded 2 48 (seconds / 60 % 60) ++ (sep ++ padded 2 48 (seconds % 60))))

/-- The date of the day so many days after 1970-01-01. -/
def civilDay (day : ℤ) : YearMonthDay := Calendar.Date.dayOffset ⟨1970, 1, 1⟩ day

/-- Years of at most four digits. -/
def fourDigits (x : YearMonthDay) : Prop := 0 ≤ x.year ∧ x.year < 10000

instance (x : YearMonthDay) : Decidable (fourDigits x) :=
  inferInstanceAs (Decidable (0 ≤ x.year ∧ x.year < 10000))

section Order

theorem valid_civilDay (day : ℤ) : (civilDay day).Valid := valid_epoch.dayOffset day

theorem julianDay_civilDay (day : ℤ) : julianDay (civilDay day) = 2440588 + day := by
  rw [civilDay, counts_julianDay.dayOffset valid_epoch, julianDay_epoch]

theorem civilDay_before {a b : ℤ} (h : a < b) : (civilDay a).before (civilDay b) := by
  rw [← counts_julianDay.lt_iff_before (valid_civilDay a) (valid_civilDay b), julianDay_civilDay,
    julianDay_civilDay]
  omega

theorem fixedWidth_two : FixedWidth (Set.Ico (0 : ℤ) (10 ^ 2)) 2 (padded 2 48) :=
  fixedWidth_padded (UInt8.le_refl 48) 1

theorem fixedWidth_date {fill : UInt8} (hfill : fill ≤ 48) (sep : List UInt8) :
    FixedWidth {day : ℤ | fourDigits (civilDay day)} (4 + (sep.length + (2 + (sep.length + 2))))
      fun day => dateText fill sep (civilDay day) := by
  have hfields := (fixedWidth_padded hfill 3).append
    ((fixedWidth_two.append (fixedWidth_two.const_append sep)).const_append sep)
  refine hfields.comp
    (f := fun day => toLex ((civilDay day).year, toLex ((civilDay day).month, (civilDay day).day)))
    (fun day hday => ?_) (fun a _ b _ hab => ?_)
  · have hvalid := valid_civilDay day
    have hlength := monthLength_bounds (civilDay day).year (civilDay day).month
    obtain ⟨hmonth, hmonthLe, hone, hle⟩ := hvalid
    have hmonths : (civilDay day).month ∈ Set.Ico (0 : ℤ) (10 ^ 2) := ⟨by omega, by omega⟩
    have hdays : (civilDay day).day ∈ Set.Ico (0 : ℤ) (10 ^ 2) := ⟨by omega, by omega⟩
    exact ⟨hday, hmonths, hdays⟩
  · rw [Prod.Lex.toLex_lt_toLex, Prod.Lex.toLex_lt_toLex]
    exact civilDay_before hab

theorem fixedWidth_clock (sep : List UInt8) :
    FixedWidth (Set.Ico (0 : ℤ) 86400) (2 + (sep.length + (2 + (sep.length + 2))))
      (clockText sep) := by
  have hfields := fixedWidth_two.append
    ((fixedWidth_two.append (fixedWidth_two.const_append sep)).const_append sep)
  refine hfields.comp
    (f := fun s => toLex (s / 60 / 60, toLex (s / 60 % 60, s % 60)))
    (fun s hs => ?_) (fun a _ b _ hab => ?_)
  · obtain ⟨hlow, hhigh⟩ := hs
    have hhours : s / 60 / 60 ∈ Set.Ico (0 : ℤ) (10 ^ 2) := ⟨by omega, by omega⟩
    have hminutes : s / 60 % 60 ∈ Set.Ico (0 : ℤ) (10 ^ 2) := ⟨by omega, by omega⟩
    have hseconds : s % 60 ∈ Set.Ico (0 : ℤ) (10 ^ 2) := ⟨by omega, by omega⟩
    exact ⟨hhours, hminutes, hseconds⟩
  · rw [Prod.Lex.toLex_lt_toLex, Prod.Lex.toLex_lt_toLex]
    simp only
    omega

/-- A time in fields, the date first. -/
theorem fixedWidth_time {fill : UInt8} (hfill : fill ≤ 48) (dateSep mid clockSep : List UInt8) :
    FixedWidth {t : ℤ | fourDigits (civilDate t)}
      (4 + (dateSep.length + (2 + (dateSep.length + 2))) +
        (mid.length + (2 + (clockSep.length + (2 + (clockSep.length + 2))))))
      fun t => dateText fill dateSep (civilDate t) ++ (mid ++ clockText clockSep (t % 86400)) := by
  refine ((fixedWidth_date hfill dateSep).append
    ((fixedWidth_clock clockSep).const_append mid)).comp
    (f := fun t => toLex (t / 86400, t % 86400)) (fun t ht => ?_)
    (fun a _ b _ hab => divMod_lt (by norm_num) hab)
  have hclock : t % 86400 ∈ Set.Ico (0 : ℤ) 86400 := ⟨by omega, by omega⟩
  exact ⟨ht, hclock⟩

theorem timeText_gmtime (t : ℤ) :
    timeText (gmtime t) =
      dateText 32 [] (civilDate t) ++ (chars " " ++ clockText (chars ":") (t % 86400)) := by
  simp [timeText, gmtime, tmOf, dateText, clockText]

theorem fixedWidth_timeText :
    FixedWidth {t : ℤ | fourDigits (civilDate t)} 17 fun t => timeText (gmtime t) :=
  (fixedWidth_time blank_le [] (chars " ") (chars ":")).congr fun t _ => timeText_gmtime t

/-- The text of a time in microseconds. -/
theorem fixedWidth_microseconds :
    FixedWidth {t : ℤ | fourDigits (civilDate (t / 1000000))} 24
      fun t => timeText (gmtime (t / 1000000)) ++ (chars "." ++ padded 6 48 (t % 1000000)) := by
  refine (fixedWidth_timeText.append
    ((fixedWidth_padded (UInt8.le_refl 48) 5).const_append (chars "."))).comp
    (f := fun t => toLex (t / 1000000, t % 1000000)) (fun t ht => ?_)
    (fun a _ b _ hab => divMod_lt (by norm_num) hab)
  have hmicro : t % 1000000 ∈ Set.Ico (0 : ℤ) (10 ^ 6) := ⟨by omega, by omega⟩
  exact ⟨ht, hmicro⟩

end Order

namespace Timestamp

variable {x y : Timestamp}

/-- A time from 1970 on in a year of four digits. -/
structure Printable (x : Timestamp) : Prop where
  nonneg : 0 ≤ x.microSecondsSinceEpoch
  year : fourDigits (civilDate x.secondsSinceEpoch)

theorem Printable.seconds (h : x.Printable) :
    x.secondsSinceEpoch = x.microSecondsSinceEpoch / 1000000 :=
  Int.tdiv_eq_ediv_of_nonneg h.nonneg

theorem Printable.toFormattedString_true (h : x.Printable) :
    x.toFormattedString true = timeText (gmtime (x.microSecondsSinceEpoch / 1000000)) ++
      (chars "." ++ padded 6 48 (x.microSecondsSinceEpoch % 1000000)) := by
  have hyear := h.year
  rw [h.seconds] at hyear
  have hlength := fixedWidth_microseconds.length x.microSecondsSinceEpoch hyear
  have hdiv : x.microSecondsSinceEpoch.tdiv kMicroSecondsPerSecond =
      x.microSecondsSinceEpoch / 1000000 := h.seconds
  have hmod : x.microSecondsSinceEpoch.tmod kMicroSecondsPerSecond =
      x.microSecondsSinceEpoch % 1000000 := Int.tmod_eq_emod_of_nonneg h.nonneg
  have hnonneg : ¬ x.microSecondsSinceEpoch % 1000000 < 0 := by omega
  simp only [toFormattedString, if_true, hdiv, hmod, zeroPadded, if_neg hnonneg, List.append_assoc]
  rw [List.take_of_length_le (by rw [hlength]; decide)]

theorem Printable.toFormattedString_false (h : x.Printable) :
    x.toFormattedString false = timeText (gmtime x.secondsSinceEpoch) := by
  have hlength := fixedWidth_timeText.length x.secondsSinceEpoch h.year
  change (timeText (gmtime x.secondsSinceEpoch)).take 31 = _
  rw [List.take_of_length_le (by rw [hlength]; decide)]

/-- As strings, formatted times are in the order of time: to the microsecond if these are
shown, and otherwise to the second. -/
theorem toFormattedString_lt_iff (hx : x.Printable) (hy : y.Printable) :
    StringPiece.lt ⟨x.toFormattedString true⟩ ⟨y.toFormattedString true⟩ = x.lt y ∧
      StringPiece.lt ⟨x.toFormattedString false⟩ ⟨y.toFormattedString false⟩ =
        decide (x.secondsSinceEpoch < y.secondsSinceEpoch) := by
  constructor
  · rw [Bool.eq_iff_iff, StringPiece.lt_iff]
    have hxYear := hx.year
    have hyYear := hy.year
    rw [hx.seconds] at hxYear
    rw [hy.seconds] at hyYear
    rw [hx.toFormattedString_true, hy.toFormattedString_true, lt, decide_eq_true_eq]
    exact fixedWidth_microseconds.lt_iff hxYear hyYear
  · rw [Bool.eq_iff_iff, StringPiece.lt_iff, decide_eq_true_eq, hx.toFormattedString_false,
      hy.toFormattedString_false]
    exact fixedWidth_timeText.lt_iff hx.year hy.year

/-- The last microsecond of a day, and the next one. -/
theorem toFormattedString_lt_midnight :
    StringPiece.lt ⟨toFormattedString ⟨86399999999⟩ true⟩ ⟨toFormattedString ⟨86400000000⟩ true⟩ =
      true := by
  have hfirst : Printable ⟨86399999999⟩ := ⟨by decide, by decide⟩
  have hsecond : Printable ⟨86400000000⟩ := ⟨by decide, by decide⟩
  exact (toFormattedString_lt_iff hfirst hsecond).1.trans (by decide)

end Timestamp

section

variable {x y : YearMonthDay}

theorem civilDay_julianDay (hx : x.Valid) : civilDay (julianDay x - 2440588) = x := by
  refine counts_julianDay.injective (valid_civilDay _) hx ?_
  rw [julianDay_civilDay]
  omega

/-- The text of a date. -/
theorem toIsoString_eq (hx : x.Valid) (hyear : fourDigits x) :
    Date.toIsoString ⟨julianDay x⟩ = some (dateText 32 (chars "-") x) := by
  obtain ⟨hlow, hhigh⟩ := hyear
  have hymd : (Date.mk (julianDay x)).yearMonthDay = some x :=
    getYearMonthDay_julianDay hx (by omega) (by omega)
  have hday : fourDigits (civilDay (julianDay x - 2440588)) := by
    rw [civilDay_julianDay hx]
    exact ⟨hlow, hhigh⟩
  have hlength := (fixedWidth_date blank_le (chars "-")).length _ hday
  simp only [civilDay_julianDay hx] at hlength
  have hmonth : ¬ x.month < 0 := by
    have hone := hx.one_le_month
    omega
  have hdays : ¬ x.day < 0 := by
    have hone := hx.one_le_day
    omega
  have htake : (dateText 32 (chars "-") x).take 31 = dateText 32 (chars "-") x :=
    List.take_of_length_le (by rw [hlength]; decide)
  rw [Date.toIsoString, hymd, Option.bind_eq_bind, Option.bind_some, zeroPadded, zeroPadded,
    if_neg hmonth, if_neg hdays, ← htake]
  simp [dateText]

/-- As strings, ISO dates are in the order of the dates. -/
theorem toIsoString_lt_iff (hx : x.Valid) (hy : y.Valid) (hxYear : fourDigits x)
    (hyYear : fourDigits y) :
    ∃ d e s t, Date.ofYearMonthDay x.year x.month x.day = some d ∧
      Date.ofYearMonthDay y.year y.month y.day = some e ∧ d.toIsoString = some s ∧
      e.toIsoString = some t ∧ StringPiece.lt ⟨s⟩ ⟨t⟩ = d.lt e := by
  have hdate : ∀ {z : YearMonthDay}, z.Valid → fourDigits z →
      Date.ofYearMonthDay z.year z.month z.day = some ⟨julianDay z⟩ := by
    rintro z hz ⟨hlow, hhigh⟩
    exact ofYearMonthDay_eq hz (by omega) (by omega)
  refine ⟨_, _, _, _, hdate hx hxYear, hdate hy hyYear, toIsoString_eq hx hxYear,
    toIsoString_eq hy hyYear, ?_⟩
  have hxDay : fourDigits (civilDay (julianDay x - 2440588)) := by
    rwa [civilDay_julianDay hx]
  have hyDay : fourDigits (civilDay (julianDay y - 2440588)) := by
    rwa [civilDay_julianDay hy]
  have horder := (fixedWidth_date blank_le (chars "-")).lt_iff hxDay hyDay
  rw [civilDay_julianDay hx, civilDay_julianDay hy] at horder
  rw [Bool.eq_iff_iff, StringPiece.lt_iff, Date.lt, decide_eq_true_eq]
  exact horder.trans (sub_lt_sub_iff_right 2440588)

/-- The first year of four digits comes after the last one of three. -/
theorem toIsoString_lt_thousand :
    ∃ d e s t, Date.ofYearMonthDay 999 12 31 = some d ∧ Date.ofYearMonthDay 1000 1 1 = some e ∧
      d.toIsoString = some s ∧ e.toIsoString = some t ∧ StringPiece.lt ⟨s⟩ ⟨t⟩ = d.lt e := by
  have hlast : Calendar.Date.Valid ⟨999, 12, 31⟩ := by decide
  have hfirst : Calendar.Date.Valid ⟨1000, 1, 1⟩ := by decide
  exact toIsoString_lt_iff hlast hfirst (by decide) (by decide)

end

end Base

end SoL
