import SoL.Base.LogStream.Content

/-!
# Log records

A log statement inserts a header, the values of the user, and at last a suffix
with the source file, the line and a newline, all into the same `LogStream`. What
the destructor of `Logger` hands over is the content of that stream.

The suffix is whole if there is room for it and for the `kMaxNumericSize` bytes
that the line number asks for. At every other fill level of the stream there are
values for which the record does not end with its suffix (`terminated_iff`).
-/

namespace SoL

namespace Base

namespace Logger

open LogStream

inductive LogLevel
  | TRACE
  | DEBUG
  | INFO
  | WARN
  | ERROR
  | FATAL
  deriving DecidableEq

def LogLevelName : LogLevel → List UInt8
  | .TRACE => chars "TRACE "
  | .DEBUG => chars "DEBUG "
  | .INFO => chars "INFO  "
  | .WARN => chars "WARN  "
  | .ERROR => chars "ERROR "
  | .FATAL => chars "FATAL "

/-- The base name of a source file. A file name has no NUL. -/
structure SourceFile where
  data : List UInt8
  nul_free : 0 ∉ data

/-- What the constructors of `Logger` and `Impl` know. `formatTime` inserts the
time up to the second and the microseconds as texts of their own. -/
structure Header where
  time : List UInt8
  microseconds : List UInt8
  tidString : List UInt8
  level : LogLevel
  savedErrno : Int32
  strerror : List UInt8
  func : Option (List UInt8)

variable {δ : Type}

/-- The insertions of `Impl` for an error number. -/
def Header.errnoValues (h : Header) : List (Value δ) :=
  if h.savedErrno = 0 then []
  else [.cString (some h.strerror), .cString (some (chars " (errno=")), .int h.savedErrno,
    .cString (some (chars ") "))]

/-- The insertions of the constructor with a function name. -/
def Header.funcValues (h : Header) : List (Value δ) :=
  match h.func with
  | none => []
  | some func => [.cString (some func), .char 32]

/-- The insertions of the constructors. -/
def Header.values (h : Header) : List (Value δ) :=
  .string h.time :: .string h.microseconds :: .string h.tidString ::
    .string (LogLevelName h.level) :: (h.errnoValues ++ h.funcValues)

/-- The insertions of `finish`. -/
def finish (file : SourceFile) (line : Int32) : List (Value δ) :=
  [.cString (some (chars " - ")), .string file.data, .char 58, .int line, .char 10]

/-- The bytes that the destructor hands to `g_output`. -/
def output (F : Snprintf δ) (garbage : Fin kSmallBuffer → UInt8) (header : Header)
    (vs : List (Value δ)) (file : SourceFile) (line : Int32) : Option (List UInt8) :=
  (run F garbage ((header.values ++ vs ++ finish file line).map .insert)).map RawBuffer.content

/-- The suffix in front of the line number. -/
def place (file : SourceFile) : List UInt8 := chars " - " ++ (file.data ++ [58])

def suffix (file : SourceFile) (line : Int32) : List UInt8 :=
  place file ++ (numeral line.toInt ++ [10])

variable {F : Snprintf δ} {file : SourceFile} {line : Int32}

theorem length_place (file : SourceFile) : (place file).length = file.data.length + 4 := by
  have hdash : (chars " - ").length = 3 := by decide
  simp only [place, List.length_append, hdash, List.length_singleton]
  omega

theorem length_numeral_line (line : Int32) : (numeral line.toInt).length ≤ 20 :=
  length_numeral_le (by have := line.le_toInt; omega) (by have := line.toInt_lt; omega)

/-- The suffix with the line number, if there is room for it, and without. -/
theorem rendering_kept_finish {used : ℕ} :
    rendering F (kept F used (finish file line)) =
      if used + file.data.length + 36 ≤ kSmallBuffer then suffix file line
      else place file ++ [10] := by
  have hdash : (chars " - ").takeWhile (fun x => !decide (x = 0)) = chars " - " := by decide
  have hthree : (chars " - ").length = 3 := by decide
  have hused : min kSmallBuffer (min kSmallBuffer (min kSmallBuffer (used + 3) +
      file.data.length) + 1) = min kSmallBuffer (used + file.data.length + 4) := by
    omega
  by_cases hroom : used + file.data.length + 36 ≤ kSmallBuffer
  · have hnumber : ¬ kSmallBuffer - min kSmallBuffer (used + file.data.length + 4) <
        kMaxNumericSize := by
      simp only [kMaxNumericSize]
      omega
    simp [finish, kept, Value.numeric, render, hdash, hthree, hused, hnumber, rendering, hroom,
      suffix, place]
  · have hnumber : kSmallBuffer - min kSmallBuffer (used + file.data.length + 4) <
        kMaxNumericSize := by
      simp only [kMaxNumericSize]
      simp only [kSmallBuffer] at hroom ⊢
      omega
    simp [finish, kept, Value.numeric, render, hdash, hthree, hused, hnumber, rendering, hroom,
      place]

theorem output_eq (garbage : Fin kSmallBuffer → UInt8) (header : Header) (vs : List (Value δ)) :
    output F garbage header vs file line =
      some (contents F (contents F [] (header.values ++ vs)) (finish file line)) := by
  obtain ⟨b, hrun, hcontent⟩ := run_insert (F := F) garbage
    (header.values ++ vs ++ finish file line)
  rw [output, hrun, Option.map_some, hcontent, contents_append]

/-- A byte in front of the last bytes of a list is in every longer suffix. -/
theorem mem_of_suffix {α : Type*} {t xs ys : List α} {a : α} (h : t <:+ xs ++ a :: ys)
    (hlen : ys.length < t.length) : a ∈ t := by
  have hmine : a :: ys <:+ t := by
    refine List.suffix_of_suffix_length_le ⟨xs, rfl⟩ h ?_
    rw [List.length_cons]
    exact hlen
  exact hmine.mem List.mem_cons_self

theorem zero_notMem_suffix (file : SourceFile) (line : Int32) : 0 ∉ suffix file line := by
  have hdash : 0 ∉ chars " - " := by decide
  simp [suffix, place, hdash, file.nul_free, zero_notMem_numeral]

/-- Without its line number the suffix is another text. -/
theorem not_suffix_of_noLine (c : List UInt8) :
    ¬ suffix file line <:+ c ++ (place file ++ [10]) := by
  obtain ⟨xs, d, hd, hnumeral⟩ := numeral_eq_append line.toInt
  rintro ⟨ys, hys⟩
  simp only [suffix, place, hnumeral, ← List.append_assoc, List.append_cancel_right_eq] at hys
  have hcolon := (List.append_inj' hys rfl).2
  have hdigit : ∀ d < 10, [decimalDigit d] ≠ [58] := by decide
  exact hdigit d hd hcolon

theorem length_suffix_gt (file : SourceFile) (line : Int32) :
    (place file).length < (suffix file line).length := by
  simp only [suffix, List.length_append, List.length_singleton]
  omega

theorem contents_finish {c : List UInt8} (hc : c.length ≤ kSmallBuffer) :
    contents F c (finish file line) =
      if c.length + file.data.length + 36 ≤ kSmallBuffer then c ++ suffix file line
      else (c ++ (place file ++ [10])).take kSmallBuffer := by
  rw [contents_eq hc, rendering_kept_finish]
  split
  · rename_i hroom
    have hnumeral := length_numeral_line line
    refine List.take_of_length_le ?_
    simp only [suffix, List.length_append, length_place, List.length_singleton]
    omega
  · rfl

/-- The values fill the stream up with some byte. -/
theorem contents_fill (header : Header) {n : ℕ} (x : UInt8)
    (h : (contents F [] header.values).length + n ≤ kSmallBuffer) :
    contents F [] (header.values ++ [Value.string (List.replicate n x)]) =
      contents F [] header.values ++ List.replicate n x := by
  rw [contents_append]
  change put F _ _ = _
  rw [put_of_accepted (by simp [Value.numeric]), render, List.take_of_length_le]
  rw [List.length_replicate]
  omega

/-- A byte that is not in the suffix, and no room for the suffix behind it. -/
theorem not_suffix_of_full {c : List UInt8} {n : ℕ} {x : UInt8} (hx : x ∉ suffix file line)
    (hn : 0 < n) (hlen : c.length + n ≤ kSmallBuffer)
    (hfull : ¬ c.length + n + file.data.length + 36 ≤ kSmallBuffer) :
    ¬ suffix file line <:+ contents F (c ++ List.replicate n x) (finish file line) := by
  have hlength : (c ++ List.replicate n x).length = c.length + n := by
    rw [List.length_append, List.length_replicate]
  rw [contents_finish (by rw [hlength]; exact hlen), hlength, if_neg hfull]
  by_cases hnewline : c.length + n + (place file).length + 1 ≤ kSmallBuffer
  · -- the newline follows the colon
    have hwhole : (c ++ List.replicate n x ++ (place file ++ [10])).length ≤ kSmallBuffer := by
      rw [List.length_append, hlength, List.length_append, List.length_singleton]
      omega
    rw [List.take_of_length_le hwhole]
    exact not_suffix_of_noLine _
  · -- what there is of the suffix follows the byte
    intro hsuffix
    obtain ⟨m, rfl⟩ := Nat.exists_eq_succ_of_ne_zero hn.ne'
    rw [List.take_append, List.take_of_length_le (by rw [hlength]; exact hlen), hlength,
      List.replicate_succ', ← List.append_assoc, List.append_assoc, List.singleton_append]
      at hsuffix
    refine hx (mem_of_suffix hsuffix ?_)
    have hgt := length_suffix_gt file line
    rw [List.length_take, List.length_append, List.length_singleton]
    omega

/-- Every record of a stream with enough room ends with its suffix. At any other
fill level behind the header, a text of NULs is followed by no suffix. -/
theorem terminated_iff (F : Snprintf δ) (garbage : Fin kSmallBuffer → UInt8) (header : Header)
    (file : SourceFile) (line : Int32) :
    (∀ vs : List (Value δ),
      (contents F [] (header.values ++ vs)).length + file.data.length + 36 ≤ kSmallBuffer →
      output F garbage header vs file line =
        some (contents F [] (header.values ++ vs) ++ suffix file line)) ∧
    ∀ n, (contents F [] header.values).length < n → n ≤ kSmallBuffer →
      ((∀ vs : List (Value δ), (contents F [] (header.values ++ vs)).length = n →
        ∃ out, output F garbage header vs file line = some out ∧ suffix file line <:+ out) ↔
      n + file.data.length + 36 ≤ kSmallBuffer) := by
  have hroom : ∀ vs : List (Value δ),
      (contents F [] (header.values ++ vs)).length + file.data.length + 36 ≤ kSmallBuffer →
      output F garbage header vs file line =
        some (contents F [] (header.values ++ vs) ++ suffix file line) := by
    intro vs h
    rw [output_eq, contents_finish (length_contents_le (Nat.zero_le _) _), if_pos h]
  refine ⟨hroom, fun n hlow hhigh => ⟨fun h => ?_, fun h vs hvs => ?_⟩⟩
  · by_contra hfull
    obtain ⟨m, rfl⟩ := Nat.exists_eq_add_of_lt hlow
    rw [Nat.add_assoc] at hhigh hfull h
    have hfill := contents_fill (F := F) header 0 hhigh
    obtain ⟨out, hout, hsuffix⟩ := h [.string (List.replicate (m + 1) 0)]
      (by rw [hfill, List.length_append, List.length_replicate])
    rw [output_eq, hfill] at hout
    obtain rfl := Option.some.inj hout
    exact not_suffix_of_full (zero_notMem_suffix file line) (Nat.succ_pos m) hhigh hfull hsuffix
  · subst hvs
    exact ⟨_, hroom vs h, List.suffix_append _ _⟩

/-- The header of a statement in the main thread. -/
def sampleHeader : Header where
  time := chars "20191017 09:52:09"
  microseconds := chars ".000000Z "
  tidString := chars " 1234 "
  level := .INFO
  savedErrno := 0
  strerror := []
  func := none

def sampleFile : SourceFile where
  data := chars "main.cpp"
  nul_free := by decide

/-- The line 42 with the value `true`. -/
theorem terminated_sample :
    output noDoubles (fun _ => 0) sampleHeader [.bool true] sampleFile 42 =
      some (contents noDoubles [] (sampleHeader.values ++ [.bool true]) ++
        chars " - main.cpp:42\n") := by
  have hsuffix : suffix sampleFile 42 = chars " - main.cpp:42\n" := by decide
  rw [← hsuffix]
  exact (terminated_iff noDoubles (fun _ => 0) sampleHeader sampleFile 42).1 [.bool true]
    (by decide)

/-- The letter z fills the buffer. -/
theorem not_terminated_full :
    ¬ ∀ (garbage : Fin kSmallBuffer → UInt8) (header : Header) (vs : List (Value Empty))
      (file : SourceFile) (line : Int32) (out : List UInt8),
      output noDoubles garbage header vs file line = some out → suffix file line <:+ out := by
  intro h
  have hheader : (contents noDoubles [] sampleHeader.values).length = 38 := by decide
  have hfill := contents_fill (F := noDoubles) sampleHeader (n := 3962) 122
    (by rw [hheader]; decide)
  have hsuffix := h (fun _ => 0) sampleHeader [.string (List.replicate 3962 122)] sampleFile 42 _
    (output_eq _ _ _)
  rw [hfill] at hsuffix
  refine not_suffix_of_full ?_ (by decide) ?_ ?_ hsuffix
  · decide
  · rw [hheader]
    decide
  · rw [hheader]
    decide

end Logger

end Base

end SoL
