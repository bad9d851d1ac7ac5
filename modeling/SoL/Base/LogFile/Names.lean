import SoL.Base.LogFile.Rolling
import SoL.Base.Timestamp

/-!
# The names of log files

The name of a log file has the local time of its roll between two constant texts. The
logger sets the zone `GMT-8`, which is eight hours ahead of UTC all year, so a later second
has a larger name: in every run the files are sorted by their names, and reading them in
this order gives the lines in the order of their calls (`run_sorted`).
-/

namespace SoL

namespace Base

open Calendar Container LogStream Logger Sequence TimeZone

namespace LogFile

/-- `localtime_r` under `TZ=GMT-8`. -/
def localtime (t : ℤ) : Tm := { gmtime (t + 28800) with gmtoff := 28800 }

/-- `strftime` with `".%Y%m%d-%H%M%S."`. -/
def timebuf (now : ℤ) : List UInt8 :=
  let tm := localtime now
  chars "." ++ numeral (tm.year + 1900) ++ padded 2 48 (tm.mon + 1) ++ padded 2 48 tm.mday ++
    chars "-" ++ padded 2 48 tm.hour ++ padded 2 48 tm.min ++ padded 2 48 tm.sec ++ chars "."

/-- A second from 1970 on whose local time has a year of four digits. -/
structure Named (t : ℤ) : Prop where
  nonneg : 0 ≤ t
  year : fourDigits (civilDate (t + 28800))

theorem lt_length_numeral {k n : ℕ} (h : 10 ^ k ≤ n) : k < (numeral n).length := by
  induction k generalizing n with
  | zero =>
      rw [numeral_eq]
      simp
  | succ k ih =>
      have hquot : 10 ^ k ≤ n / 10 := by
        rw [pow_succ] at h
        omega
      have hpos : n / 10 ≠ 0 := (Nat.pos_of_ne_zero (by positivity)).trans_le hquot |>.ne'
      rw [numeral_eq, if_neg hpos, List.length_append, List.length_singleton]
      exact Nat.succ_lt_succ (ih hquot)

/-- A number of four digits fills its field. -/
theorem padded_eq_numeral {v : ℤ} (h : 1000 ≤ v) : padded 4 32 v = numeral v := by
  obtain ⟨n, rfl⟩ := Int.eq_ofNat_of_zero_le (by omega : 0 ≤ v)
  have hlength : 3 < (numeral n).length := lt_length_numeral (by norm_num; omega)
  rw [padded, Nat.sub_eq_zero_of_le hlength]
  rfl

theorem year_ge {t : ℤ} (h : 0 ≤ t) : 1970 ≤ (civilDate t).year := by
  refine year_le_of_julianDay_le (x := civilDate t) (y := ⟨1970, 1, 1⟩) (valid_civilDate t)
    valid_epoch ?_
  rw [julianDay_epoch, julianDay_civilDate]
  omega

theorem timebuf_eq {t : ℤ} (h : Named t) :
    timebuf t = chars "." ++ (dateText 32 [] (civilDate (t + 28800)) ++
      (chars "-" ++ clockText [] ((t + 28800) % 86400)) ++ chars ".") := by
  have hnonneg := h.nonneg
  have hyear := year_ge (t := t + 28800) (by omega)
  have hfour : padded 4 32 (civilDate (t + 28800)).year = numeral (civilDate (t + 28800)).year :=
    padded_eq_numeral (by omega)
  simp [timebuf, localtime, gmtime, tmOf, dateText, clockText, hfour]

theorem fixedWidth_timebuf : FixedWidth {t : ℤ | Named t} 17 timebuf := by
  have htime := fixedWidth_time blank_le [] (chars "-") []
  have hlocal := htime.comp (t := {t : ℤ | Named t}) (f := fun t => t + 28800)
    (fun t ht => ht.year) fun a _ b _ hab => add_lt_add_left hab 28800
  exact ((hlocal.append_const (chars ".")).const_append (chars ".")).congr fun t ht => timebuf_eq ht

theorem fixedWidth_name {cfg : LogFileConfig} (htimebuf : cfg.timebuf = timebuf) :
    ∃ width, FixedWidth {t : ℤ | Named t} width (getLogFileName cfg) := by
  have hname := ((((fixedWidth_timebuf.const_append cfg.basename).append_const cfg.hostname
    ).append_const (chars ".")).append_const (numeral cfg.pid)).append_const (chars ".log")
  refine ⟨_, hname.congr fun t _ => ?_⟩
  rw [getLogFileName, htimebuf]

variable {cfg : LogFileConfig} {env : Readings}

theorem injOn_timebuf (hnamed : ∀ n, Named (env.clock n)) :
    Set.InjOn timebuf (Set.range env.clock) := by
  refine fixedWidth_timebuf.injOn.mono ?_
  rintro _ ⟨n, rfl⟩
  exact hnamed n

/-- The names are in the order of the rolls. -/
theorem Rolled.sorted_names {s : LogFile} {earlier : List Roll} {current : Roll} {width : ℕ}
    (h : Rolled cfg env s earlier current)
    (hname : FixedWidth {t : ℤ | Named t} width (getLogFileName cfg))
    (hnamed : ∀ n, Named (env.clock n)) :
    (Directory.names s.directory).Pairwise (fun a b => StringPiece.lt ⟨a⟩ ⟨b⟩ = true) := by
  have hsecond : ∀ r ∈ earlier ++ [current], Named r.second := by
    intro r hr
    obtain ⟨n, hn⟩ := h.history.read r hr
    rw [← hn]
    exact hnamed n
  rw [Directory.names, h.directory, List.map_map, List.pairwise_map]
  refine h.history.seconds.imp_of_mem fun {r r'} hr hr' hlt => ?_
  rw [StringPiece.lt_iff]
  exact hname.lt _ (hsecond r hr) _ (hsecond r' hr') hlt

/-- In every run with a positive clock that does not go back, in years of four digits, the
files are sorted by their names, and in this order they hold the lines that were not
forbidden, each as a whole. With `dupStd_` a file ends with the notice of the next roll if
that one found too little space, and the files hold nothing else. -/
theorem run_sorted (htimebuf : cfg.timebuf = timebuf) (hclock : Monotone env.clock)
    (hpos : ∀ n, 0 < env.clock n) (hyear : ∀ n, fourDigits (civilDate (env.clock n + 28800)))
    (hcheck : 1 ≤ cfg.checkEveryN) (calls : List Call) :
    ∃ (s : LogFile) (rolls : List Roll), (create cfg env).run cfg env calls = some s ∧
      (Directory.names s.directory).Pairwise (fun a b => StringPiece.lt ⟨a⟩ ⟨b⟩ = true) ∧
      s.directory = rolls.map (Roll.entry cfg) ∧
      rolls.flatMap Roll.lines = accepted cfg env (create cfg env) calls ∧
      History cfg env rolls ∧ ∀ r, rolls.getLast? = some r → r.noticed = false := by
  have hnamed : ∀ n, Named (env.clock n) := fun n => ⟨(hpos n).le, hyear n⟩
  have hnames : Set.InjOn cfg.timebuf (Set.range env.clock) := by
    rw [htimebuf]
    exact injOn_timebuf hnamed
  obtain ⟨s, hrun, ⟨earlier, current, hrolled, hlines⟩, -⟩ :=
    Holds.run hclock hnames hcheck (holds_create hpos hcheck) (settled_create hpos) calls
  obtain ⟨width, hname⟩ := fixedWidth_name htimebuf
  refine ⟨s, _, hrun, ?_, hrolled.directory, hlines, hrolled.history, fun r hr => ?_⟩
  · exact hrolled.sorted_names hname hnamed
  · obtain rfl : current = r := by simpa using hr
    exact hrolled.noticed

/-- The log file of `redirected`, in the zone of the logger. -/
def zoned : LogFileConfig := { redirected with timebuf := timebuf }

theorem run_sorted_zoned :
    ∃ (s : LogFile) (rolls : List Roll),
      (create zoned filling).run zoned filling [.append (chars "ab\n")] = some s ∧
      (Directory.names s.directory).Pairwise (fun a b => StringPiece.lt ⟨a⟩ ⟨b⟩ = true) ∧
      s.directory = rolls.map (Roll.entry zoned) ∧
      rolls.flatMap Roll.lines =
        accepted zoned filling (create zoned filling) [.append (chars "ab\n")] ∧
      History zoned filling rolls ∧ ∀ r, rolls.getLast? = some r → r.noticed = false := by
  refine run_sorted rfl (fun m n hmn => ?_) (fun n => ?_) (fun n => ?_) (by decide) _
  · simp only [filling]
    split <;> split <;> omega
  · simp only [filling]
    split <;> decide
  · simp only [filling]
    split <;> decide

end LogFile

end Base

end SoL
