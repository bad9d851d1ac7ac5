import SoL.Base.LogFile.Model
import Mathlib.Data.List.Chain
import Mathlib.Order.Monotone.Defs

/-!
# The files of a rolling log

The files are the rolls in the order of their seconds, and each line that is not
forbidden is as a whole in the file that is open at its time (`run_rolls`). A file
holds nothing else but the notice of the next roll, if that one finds too little
free space while the standard error is redirected.

The local time of a second is in the file name, so two seconds have to have
different local times. This is so under the fixed offset that the logger sets.
-/

namespace SoL

namespace Base

open Container LogStream

namespace LogFile

/-- A file from its opening on: its second, whether less than 300M were free, its
lines, and whether the notice of the next roll follows them. -/
structure Roll where
  second : ℤ
  low : Bool
  lines : List (List UInt8)
  noticed : Bool

namespace Roll

def content (r : Roll) : List UInt8 := r.lines.flatten ++ if r.noticed then notice else []

def entry (cfg : LogFileConfig) (r : Roll) : List UInt8 × List UInt8 :=
  (getLogFileName cfg r.second, r.content)

/-- A file that has just been opened. -/
def start (now : ℤ) (low : Bool) : Roll := ⟨now, low, [], false⟩

/-- The file after the next roll. -/
def close (cfg : LogFileConfig) (r : Roll) (low : Bool) : Roll :=
  { r with noticed := cfg.dupStd && low }

theorem entry_start (cfg : LogFileConfig) (now : ℤ) (low : Bool) :
    (start now low).entry cfg = (getLogFileName cfg now, []) := rfl

theorem close_of_quiet {cfg : LogFileConfig} {r : Roll} {low : Bool} (hr : r.noticed = false)
    (h : (cfg.dupStd && low) = false) : r.close cfg low = r := by
  rw [close, h, ← hr]

theorem entry_close {cfg : LogFileConfig} {r : Roll} {low : Bool} (hr : r.noticed = false)
    (h : (cfg.dupStd && low) = true) :
    (r.close cfg low).entry cfg = (getLogFileName cfg r.second, r.content ++ notice) := by
  simp [entry, close, content, h, hr]

end Roll

/-- Each roll has a later second than the ones before, read from the clock, and one
result about the free space. A notice follows the lines of a file exactly if the
next roll finds too little while the standard error is redirected. -/
structure History (cfg : LogFileConfig) (env : Readings) (rolls : List Roll) : Prop where
  seconds : rolls.Pairwise fun r r' => r.second < r'.second
  notices : rolls.IsChain fun r r' => r.noticed = (cfg.dupStd && r'.low)
  read : ∀ r ∈ rolls, r.second ∈ Set.range env.clock
  space : rolls.map Roll.low = (List.range rolls.length).map env.low

/-- The invariant between two calls: the files are the rolls in order. -/
structure Rolled (cfg : LogFileConfig) (env : Readings) (s : LogFile) (earlier : List Roll)
    (current : Roll) : Prop where
  directory : s.directory = (earlier ++ [current]).map (Roll.entry cfg)
  history : History cfg env (earlier ++ [current])
  noticed : current.noticed = false
  probes : s.probes = (earlier ++ [current]).length
  file : ∃ n, s.file = some ⟨getLogFileName cfg current.second, n⟩
  stderr : s.stderr = if cfg.dupStd then some (getLogFileName cfg current.second) else none
  lastRoll : s.lastRoll = current.second
  forbitWrite : s.forbitWrite = current.low
  startOfPeriod : s.startOfPeriod = period s.lastRoll
  lastFlush : s.lastRoll ≤ s.lastFlush
  past : 0 < s.ticks ∧ s.lastFlush ≤ env.clock (s.ticks - 1)
  count : s.count < cfg.checkEveryN

/-- The file is longer than `rollSize_` only if the last reading of the clock is
the second of the last roll. -/
def Settled (cfg : LogFileConfig) (env : Readings) (s : LogFile) : Prop :=
  ∀ file, s.file = some file → cfg.rollSize < file.writtenBytes →
    env.clock (s.ticks - 1) = s.lastRoll

theorem timebuf_eq_of_name {cfg : LogFileConfig} {a b : ℤ}
    (h : getLogFileName cfg a = getLogFileName cfg b) : cfg.timebuf a = cfg.timebuf b := by
  simpa [getLogFileName] using h

section Invariant

variable {cfg : LogFileConfig} {env : Readings} {s : LogFile} {earlier : List Roll}
  {current : Roll}

/-- A later second has another file name. -/
theorem notMem_names (hnames : Set.InjOn cfg.timebuf (Set.range env.clock)) {rolls : List Roll}
    {now : ℤ} (hread : ∀ r ∈ rolls, r.second ∈ Set.range env.clock)
    (hnow : now ∈ Set.range env.clock) (hlt : ∀ r ∈ rolls, r.second < now) :
    getLogFileName cfg now ∉ Directory.names (rolls.map (Roll.entry cfg)) := by
  intro hmem
  obtain ⟨e, he, hname⟩ := List.mem_map.1 hmem
  obtain ⟨r, hr, rfl⟩ := List.mem_map.1 he
  have hsame : r.second = now := hnames (hread r hr) hnow (timebuf_eq_of_name hname)
  exact (hlt r hr).ne hsame

theorem Rolled.tick (h : Rolled cfg env s earlier current) (hclock : Monotone env.clock) :
    Rolled cfg env { s with ticks := s.ticks + 1 } earlier current :=
  { h with past := ⟨Nat.succ_pos _, h.past.2.trans (hclock (by simp))⟩ }

/-- The lines and the notice of the last roll may change. -/
theorem History.replace {r : Roll} (h : History cfg env (earlier ++ [current]))
    (hsecond : r.second = current.second) (hlow : r.low = current.low) :
    History cfg env (earlier ++ [r]) where
  seconds := by
    obtain ⟨holder, -, hbefore⟩ := List.pairwise_append.1 h.seconds
    refine List.pairwise_append.2 ⟨holder, List.pairwise_singleton _ _, fun q hq t ht => ?_⟩
    rw [List.mem_singleton.1 ht, hsecond]
    exact hbefore q hq current (List.mem_singleton_self current)
  notices := by
    obtain ⟨holder, -, hlast⟩ := List.isChain_append.1 h.notices
    refine List.isChain_append.2 ⟨holder, List.isChain_singleton r, fun q hq t ht => ?_⟩
    obtain rfl : r = t := by simpa using ht
    rw [hlow]
    exact hlast q hq current rfl
  read := by
    intro q hq
    rcases List.mem_append.1 hq with hq | hq
    · exact h.read q (List.mem_append_left _ hq)
    · rw [List.mem_singleton.1 hq, hsecond]
      exact h.read current (List.mem_append_right _ (List.mem_singleton_self current))
  space := by
    have hspace := h.space
    simp only [List.map_append, List.map_singleton, List.length_append, List.length_singleton]
      at hspace ⊢
    rw [hlow, hspace]

theorem History.lt_of_mem (h : History cfg env (earlier ++ [current])) {r : Roll}
    (hr : r ∈ earlier) : r.second < current.second :=
  (List.pairwise_append.1 h.seconds).2.2 r hr current (List.mem_singleton_self current)

theorem History.le_of_mem (h : History cfg env (earlier ++ [current])) {r : Roll}
    (hr : r ∈ earlier ++ [current]) : r.second ≤ current.second := by
  rcases List.mem_append.1 hr with hr | hr
  · exact (h.lt_of_mem hr).le
  · rw [List.mem_singleton.1 hr]

/-- A roll in a later second. -/
theorem History.concat {r : Roll} (h : History cfg env (earlier ++ [current]))
    (hlt : current.second < r.second) (hnotice : current.noticed = (cfg.dupStd && r.low))
    (hread : r.second ∈ Set.range env.clock)
    (hlow : r.low = env.low (earlier ++ [current]).length) :
    History cfg env (earlier ++ [current] ++ [r]) where
  seconds := by
    refine List.pairwise_append.2 ⟨h.seconds, List.pairwise_singleton _ _, fun q hq t ht => ?_⟩
    rw [List.mem_singleton.1 ht]
    exact (h.le_of_mem hq).trans_lt hlt
  notices := by
    refine List.isChain_append.2 ⟨h.notices, List.isChain_singleton r, fun q hq t ht => ?_⟩
    obtain rfl : current = q := by simpa using hq
    obtain rfl : r = t := by simpa using ht
    exact hnotice
  read := by
    intro q hq
    rcases List.mem_append.1 hq with hq | hq
    · exact h.read q hq
    · rw [List.mem_singleton.1 hq]
      exact hread
  space := by
    have hlength : (earlier ++ [current] ++ [r]).length = (earlier ++ [current]).length + 1 :=
      List.length_append
    rw [List.map_append, h.space, List.map_singleton, hlow, hlength, List.range_succ,
      List.map_append, List.map_singleton]

/-- No file but the last one has its name. -/
theorem Rolled.notMem_names (h : Rolled cfg env s earlier current)
    (hnames : Set.InjOn cfg.timebuf (Set.range env.clock)) :
    getLogFileName cfg current.second ∉ Directory.names (earlier.map (Roll.entry cfg)) :=
  LogFile.notMem_names hnames (fun r hr => h.history.read r (List.mem_append_left _ hr))
    (h.history.read current (by simp)) fun _ hr => h.history.lt_of_mem hr

theorem Rolled.openAppend (h : Rolled cfg env s earlier current)
    (hnames : Set.InjOn cfg.timebuf (Set.range env.clock)) {now : ℤ}
    (hnow : now ∈ Set.range env.clock) (hlt : current.second < now) :
    Directory.openAppend s.directory (getLogFileName cfg now) =
      earlier.map (Roll.entry cfg) ++ [current.entry cfg] ++ [(getLogFileName cfg now, [])] := by
  have hnew := LogFile.notMem_names hnames h.history.read hnow
    fun r hr => (h.history.le_of_mem hr).trans_lt hlt
  rw [h.directory, Directory.openAppend_of_notMem hnew, List.map_append, List.map_singleton]

/-- The files after a roll. -/
theorem Rolled.directory_reopen (h : Rolled cfg env s earlier current)
    (hnames : Set.InjOn cfg.timebuf (Set.range env.clock)) {now : ℤ}
    (hnow : now ∈ Set.range env.clock) (hlt : current.second < now) :
    (s.reopen cfg env now).directory =
      (earlier ++ [current.close cfg (env.low s.probes)] ++ [Roll.start now (env.low s.probes)]).map
        (Roll.entry cfg) := by
  simp only [reopen, h.openAppend hnames hnow hlt, h.stderr, List.map_append, List.map_singleton,
    Roll.entry_start]
  cases hnotice : cfg.dupStd && env.low s.probes with
  | false =>
      rw [Roll.close_of_quiet h.noticed hnotice]
      rcases Bool.and_eq_false_iff.1 hnotice with hdup | hlow
      · simp [hdup, print]
      · simp [hlow]
  | true =>
      obtain ⟨hdup, hlow⟩ := Bool.and_eq_true_iff.1 hnotice
      have hother : getLogFileName cfg current.second ∉
          Directory.names [(getLogFileName cfg now, ([] : List UInt8))] := by
        intro hmem
        have hname : getLogFileName cfg current.second = getLogFileName cfg now := by
          simpa [Directory.names] using hmem
        have hsame : current.second = now :=
          hnames (h.history.read current (by simp)) hnow (timebuf_eq_of_name hname)
        exact hlt.ne hsame
      rw [Roll.entry_close h.noticed hnotice, if_pos hlow, if_pos hdup, print,
        Directory.write_append, Directory.write_of_notMem hother, Roll.entry,
        Directory.write_concat (h.notMem_names hnames)]

theorem Rolled.reopen (h : Rolled cfg env s earlier current)
    (hnames : Set.InjOn cfg.timebuf (Set.range env.clock)) {now : ℤ}
    (hnow : env.clock (s.ticks - 1) = now) (hlt : s.lastRoll < now) :
    Rolled cfg env (s.reopen cfg env now) (earlier ++ [current.close cfg (env.low s.probes)])
      (Roll.start now (env.low s.probes)) := by
  have hrange : now ∈ Set.range env.clock := ⟨s.ticks - 1, hnow⟩
  rw [h.lastRoll] at hlt
  have hclosed : History cfg env (earlier ++ [current.close cfg (env.low s.probes)]) :=
    h.history.replace rfl rfl
  have hprobe : env.low s.probes =
      env.low (earlier ++ [current.close cfg (env.low s.probes)]).length := by
    rw [h.probes]
    simp
  exact {
    directory := h.directory_reopen hnames hrange hlt
    history := hclosed.concat hlt rfl hrange hprobe
    noticed := rfl
    probes := by
      rw [LogFile.reopen, h.probes]
      simp
    file := ⟨0, rfl⟩
    stderr := by
      simp only [LogFile.reopen, h.stderr]
      cases cfg.dupStd <;> rfl
    lastRoll := rfl
    forbitWrite := rfl
    startOfPeriod := rfl
    lastFlush := le_rfl
    past := ⟨h.past.1, hnow.ge⟩
    count := h.count }

/-- The files hold some lines in order. -/
def Holds (cfg : LogFileConfig) (env : Readings) (s : LogFile) (lines : List (List UInt8)) : Prop :=
  ∃ earlier current, Rolled cfg env s earlier current ∧
    (earlier ++ [current]).flatMap Roll.lines = lines

variable {lines : List (List UInt8)}

theorem Holds.file (h : Holds cfg env s lines) : ∃ file, s.file = some file := by
  obtain ⟨earlier, current, hrolled, -⟩ := h
  obtain ⟨n, hfile⟩ := hrolled.file
  exact ⟨_, hfile⟩

theorem Holds.rollFile (h : Holds cfg env s lines) (hclock : Monotone env.clock)
    (hnames : Set.InjOn cfg.timebuf (Set.range env.clock)) :
    Holds cfg env (s.rollFile cfg env).1 lines := by
  obtain ⟨earlier, current, hrolled, hlines⟩ := h
  have htick := hrolled.tick hclock
  unfold LogFile.rollFile
  dsimp only
  split
  · next hlt =>
      refine ⟨_, _, htick.reopen hnames rfl hlt, ?_⟩
      rw [← hlines]
      simp [Roll.close, Roll.start]
  · exact ⟨earlier, current, htick, hlines⟩

/-- A roll that is refused is in the second of the last one. -/
theorem Holds.settled_rollFile (h : Holds cfg env s lines) (hclock : Monotone env.clock) :
    Settled cfg env (s.rollFile cfg env).1 := by
  obtain ⟨earlier, current, hrolled, -⟩ := h
  have htick := hrolled.tick hclock
  unfold LogFile.rollFile
  dsimp only
  split
  · intro file hfile hsize
    obtain rfl : ⟨getLogFileName cfg (env.clock s.ticks), 0⟩ = file := by
      simpa [LogFile.reopen] using hfile
    exact absurd hsize (by simp)
  · next hle =>
      intro file _ _
      exact le_antisymm (not_lt.1 hle) (htick.lastFlush.trans htick.past.2)

/-- A line goes to the last file, or it is dropped. -/
theorem Holds.writeLine (h : Holds cfg env s lines)
    (hnames : Set.InjOn cfg.timebuf (Set.range env.clock)) {file : AppendFile}
    (hfile : s.file = some file) (logline : List UInt8) :
    Holds cfg env (s.writeLine file logline) (lines ++ s.taken (.append logline)) := by
  obtain ⟨earlier, current, hrolled, hlines⟩ := h
  obtain ⟨n, hn⟩ := hrolled.file
  obtain rfl : ⟨getLogFileName cfg current.second, n⟩ = file := by
    rw [hn] at hfile
    exact Option.some.inj hfile
  cases hforbit : s.forbitWrite with
  | true =>
      refine ⟨earlier, current, { hrolled with directory := ?_, file := ⟨_, rfl⟩ }, ?_⟩
      · simp only [LogFile.writeLine, hforbit, if_true, hrolled.directory]
      · simp [taken, hforbit, hlines]
  | false =>
      refine ⟨earlier, { current with lines := current.lines ++ [logline] },
        { hrolled with
          directory := ?_
          history := hrolled.history.replace rfl rfl
          probes := by simpa [LogFile.writeLine] using hrolled.probes
          file := ⟨_, rfl⟩ }, ?_⟩
      · simp only [LogFile.writeLine, hforbit, hrolled.directory, List.map_append,
          List.map_singleton, Bool.false_eq_true, if_false]
        rw [Roll.entry, Directory.write_concat (hrolled.notMem_names hnames)]
        simp [Roll.entry, Roll.content, hrolled.noticed]
      · simp [taken, hforbit, ← hlines]

theorem Holds.restart (h : Holds cfg env s lines) (hclock : Monotone env.clock)
    (hcheck : 1 ≤ cfg.checkEveryN) :
    Holds cfg env { s with count := 0, ticks := s.ticks + 1 } lines := by
  obtain ⟨earlier, current, hrolled, hlines⟩ := h
  exact ⟨earlier, current, { hrolled.tick hclock with count := hcheck }, hlines⟩

theorem Holds.checkPeriod (h : Holds cfg env s lines) (hclock : Monotone env.clock)
    (hnames : Set.InjOn cfg.timebuf (Set.range env.clock)) (hcheck : 1 ≤ cfg.checkEveryN) :
    Holds cfg env (s.checkPeriod cfg env) lines := by
  have hrestart := h.restart hclock hcheck
  unfold LogFile.checkPeriod
  dsimp only
  split
  · exact hrestart.rollFile hclock hnames
  · split
    · obtain ⟨earlier, current, hrolled, hlines⟩ := hrestart
      have hroll : s.lastRoll ≤ env.clock s.ticks := hrolled.lastFlush.trans hrolled.past.2
      exact ⟨earlier, current,
        { hrolled with lastFlush := hroll, past := ⟨Nat.succ_pos _, le_rfl⟩ }, hlines⟩
    · exact hrestart

theorem Holds.settled_checkPeriod (h : Holds cfg env s lines) (hclock : Monotone env.clock)
    (hcheck : 1 ≤ cfg.checkEveryN)
    (hsmall : ∀ file, s.file = some file → ¬ cfg.rollSize < file.writtenBytes) :
    Settled cfg env (s.checkPeriod cfg env) := by
  unfold LogFile.checkPeriod
  dsimp only
  split
  · exact (h.restart hclock hcheck).settled_rollFile hclock
  · split
    · exact fun file hfile hsize => absurd hsize (hsmall file hfile)
    · exact fun file hfile hsize => absurd hsize (hsmall file hfile)

theorem Holds.checkRoll (h : Holds cfg env s lines) (hclock : Monotone env.clock)
    (hnames : Set.InjOn cfg.timebuf (Set.range env.clock)) (hcheck : 1 ≤ cfg.checkEveryN)
    (writtenBytes : UInt64) : Holds cfg env (s.checkRoll cfg env writtenBytes) lines := by
  unfold LogFile.checkRoll
  split
  · exact h.rollFile hclock hnames
  · split
    · -- The counter is reset at once.
      exact h.checkPeriod hclock hnames hcheck
    · next hcount =>
        obtain ⟨earlier, current, hrolled, hlines⟩ := h
        exact ⟨earlier, current, { hrolled with count := not_le.1 hcount }, hlines⟩

theorem Holds.settled_checkRoll (h : Holds cfg env s lines) (hclock : Monotone env.clock)
    (hcheck : 1 ≤ cfg.checkEveryN) {file : AppendFile} (hfile : s.file = some file) :
    Settled cfg env (s.checkRoll cfg env file.writtenBytes) := by
  unfold LogFile.checkRoll
  split
  · exact h.settled_rollFile hclock
  · next hsize =>
      have hsmall : ∀ other, s.file = some other → ¬ cfg.rollSize < other.writtenBytes := by
        intro other hother
        obtain rfl : file = other := Option.some.inj (hfile.symm.trans hother)
        exact hsize
      split
      · exact h.settled_checkPeriod hclock hcheck hsmall
      · exact fun other hother hlarge => absurd hlarge (hsmall other hother)

theorem Holds.call (h : Holds cfg env s lines) (hclock : Monotone env.clock)
    (hnames : Set.InjOn cfg.timebuf (Set.range env.clock)) (hcheck : 1 ≤ cfg.checkEveryN)
    (c : Call) :
    ∃ t, s.call cfg env c = some t ∧ Holds cfg env t (lines ++ s.taken c) ∧ Settled cfg env t := by
  cases c with
  | rollFile =>
      refine ⟨_, rfl, ?_, h.settled_rollFile hclock⟩
      rw [taken, List.append_nil]
      exact h.rollFile hclock hnames
  | append logline =>
      obtain ⟨file, hfile⟩ := h.file
      have hwritten := h.writeLine hnames hfile logline
      refine ⟨_, ?_, hwritten.checkRoll hclock hnames hcheck _,
        hwritten.settled_checkRoll hclock hcheck rfl⟩
      simp only [LogFile.call, append, hfile]
      rfl

end Invariant

section Run

variable {cfg : LogFileConfig} {env : Readings}

/-- The constructor opens the first file. -/
theorem holds_create (hpos : ∀ n, 0 < env.clock n) (hcheck : 1 ≤ cfg.checkEveryN) :
    Holds cfg env (create cfg env) [] := by
  refine ⟨[], Roll.start (env.clock 0) (env.low 0), ?_, rfl⟩
  simp only [create, rollFile, hpos 0, if_true]
  exact {
    directory := by simp [reopen, print, Directory.openAppend, Directory.names, Roll.entry_start]
    history := ⟨List.pairwise_singleton _ _, List.isChain_singleton _, by simp [Roll.start], rfl⟩
    noticed := rfl
    probes := rfl
    file := ⟨0, rfl⟩
    stderr := rfl
    lastRoll := rfl
    forbitWrite := rfl
    startOfPeriod := rfl
    lastFlush := le_rfl
    past := ⟨Nat.one_pos, le_rfl⟩
    count := hcheck }

theorem settled_create (hpos : ∀ n, 0 < env.clock n) : Settled cfg env (create cfg env) := by
  intro file hfile hsize
  simp only [create, rollFile, hpos 0, if_true, reopen, Option.some.injEq] at hfile
  rw [← hfile] at hsize
  exact absurd hsize (by simp)

theorem Holds.run (hclock : Monotone env.clock)
    (hnames : Set.InjOn cfg.timebuf (Set.range env.clock)) (hcheck : 1 ≤ cfg.checkEveryN)
    {s : LogFile} {lines : List (List UInt8)} (h : Holds cfg env s lines)
    (hs : Settled cfg env s) (calls : List Call) :
    ∃ t, s.run cfg env calls = some t ∧ Holds cfg env t (lines ++ accepted cfg env s calls) ∧
      Settled cfg env t := by
  induction calls generalizing s lines with
  | nil => exact ⟨s, rfl, by rwa [accepted, List.append_nil], hs⟩
  | cons c calls ih =>
      obtain ⟨t, hcall, ht, hsettled⟩ := h.call hclock hnames hcheck c
      obtain ⟨u, hrun, hu, hsettled'⟩ := ih ht hsettled
      refine ⟨u, ?_, ?_, hsettled'⟩
      · rw [LogFile.run, List.foldlM_cons, hcall]
        exact hrun
      · rw [accepted, hcall, Option.elim_some, ← List.append_assoc]
        exact hu

/-- In every run with a positive clock that does not go back, the files are the
rolls in order, and together they hold the lines that were not forbidden, each as a
whole. -/
theorem run_rolls (hclock : Monotone env.clock) (hpos : ∀ n, 0 < env.clock n)
    (hnames : Set.InjOn cfg.timebuf (Set.range env.clock)) (hcheck : 1 ≤ cfg.checkEveryN)
    (calls : List Call) :
    ∃ s earlier current, (create cfg env).run cfg env calls = some s ∧
      Rolled cfg env s earlier current ∧
      (earlier ++ [current]).flatMap Roll.lines = accepted cfg env (create cfg env) calls ∧
      Settled cfg env s := by
  obtain ⟨s, hrun, ⟨earlier, current, hrolled, hlines⟩, hsettled⟩ :=
    Holds.run hclock hnames hcheck (holds_create hpos hcheck) (settled_create hpos) calls
  exact ⟨s, earlier, current, hrun, hrolled, hlines, hsettled⟩

/-- A log file with redirection on the first seconds of 1970, which is eight in the
morning under `TZ=GMT-8`. -/
def redirected : LogFileConfig where
  basename := chars "sol"
  hostname := chars "host"
  pid := 7
  timebuf t := chars ".19700101-08000" ++ numeral t ++ chars "."
  rollSize := 2
  dupStd := true
  flushInterval := 3
  checkEveryN := 1024

/-- The second roll finds no free space. -/
def filling : Readings where
  clock n := if n = 0 then 1 else 2
  available n := if n = 0 then 400 * 2 ^ 20 else 0

theorem run_rolls_filling :
    Monotone filling.clock ∧ (∀ n, 0 < filling.clock n) ∧
      Set.InjOn redirected.timebuf (Set.range filling.clock) ∧ 1 ≤ redirected.checkEveryN ∧
      ∃ s earlier current,
        (create redirected filling).run redirected filling [.append (chars "ab\n")] = some s ∧
        Rolled redirected filling s earlier current ∧
        (earlier ++ [current]).flatMap Roll.lines =
          accepted redirected filling (create redirected filling) [.append (chars "ab\n")] ∧
        Settled redirected filling s := by
  have hclock : Monotone filling.clock := by
    intro m n hmn
    simp only [filling]
    split <;> split <;> omega
  have hpos : ∀ n, 0 < filling.clock n := by
    intro n
    simp only [filling]
    split <;> decide
  have hnames : Set.InjOn redirected.timebuf (Set.range filling.clock) := by
    have hne : redirected.timebuf 1 ≠ redirected.timebuf 2 := by decide
    rintro _ ⟨m, rfl⟩ _ ⟨n, rfl⟩ h
    simp only [filling] at h ⊢
    split at h <;> split at h
    · next hm hn => rw [if_pos hm, if_pos hn]
    · exact absurd h hne
    · exact absurd h.symm hne
    · next hm hn => rw [if_neg hm, if_neg hn]
  exact ⟨hclock, hpos, hnames, by decide, run_rolls hclock hpos hnames (by decide) _⟩

/-- The notice of the second roll is in the first file, which so has more than its
line. -/
theorem not_exact_filling :
    ∃ s, (create redirected filling).run redirected filling [.append (chars "ab\n")] = some s ∧
      s.directory.flatMap Prod.snd ≠
        (accepted redirected filling (create redirected filling)
          [.append (chars "ab\n")]).flatten := by
  refine ⟨_, rfl, ?_⟩
  decide

end Run

end LogFile

end Base

end SoL
