import SoL.Base.LogFile.Model

/-!
# Files in pieces

`AppendFile::append` and `ReadSmallFile::readToString` call the system until all bytes have
been moved. A stream has a buffer of 64 KiB between `fwrite_unlocked` and its file. How much a
call accepts, how much it writes out although the buffer has room, and how much of that is lost
in a failed `write` is up to the next of `results`; a call of `read` stops where the next of
`reads` says. When these are used up, every call moves all it can, and writes out no more than
it has to.

What was appended is what the file and the buffer hold, and a flush or the destructor, which
closes the stream, empties the buffer. So it is what is read back then, up to `maxSize`, however
appending, writing out and reading are cut into pieces (`readFile_append`). `maxSize` is not
negative.
-/

namespace SoL

namespace Base

open Container LogStream

namespace FileUtil

/-- The answer to a call of `fwrite_unlocked` or `fflush`: the bytes accepted, the bytes of the
buffer written out although there is room, and how many bytes at their end do not reach the
file. -/
structure WriteResult where
  accepted : ℕ
  passed : ℕ
  lost : ℕ
  deriving DecidableEq

/-- A `FILE` that is appended to: the file, what is in the buffer, and the answers to come. -/
structure Stream where
  content : List UInt8
  buffer : List UInt8
  results : List WriteResult

/-- The size of `buffer_`. -/
def bufferSize : ℕ := 64 * 1024

namespace Stream

/-- Write out the first bytes of the buffer. -/
def pass (fp : Stream) (n lost : ℕ) : Stream :=
  { fp with content := fp.content ++ fp.buffer.take (n - lost), buffer := fp.buffer.drop n }

/-- `fwrite_unlocked`. What the buffer has no room for is written out. -/
def fwrite (fp : Stream) (bytes : List UInt8) : ℕ × Stream :=
  let pending := fp.buffer ++ bytes
  match fp.results with
  | [] => (bytes.length, { fp with buffer := pending }.pass (pending.length - bufferSize) 0)
  | r :: rest =>
      let n := min r.accepted bytes.length
      let pending := fp.buffer ++ bytes.take n
      (n, { fp with buffer := pending, results := rest }.pass
        (max (pending.length - bufferSize) r.passed) r.lost)

/-- `fflush`. -/
def fflush (fp : Stream) : Stream :=
  match fp.results with
  | [] => fp.pass fp.buffer.length 0
  | r :: rest => { fp with results := rest }.pass fp.buffer.length r.lost

end Stream

structure AppendFile where
  fp : Stream
  writtenBytes : UInt64

namespace AppendFile

/-- The constructor, for a file that has `content` already. -/
def create (content : List UInt8) (results : List WriteResult) : AppendFile where
  fp := ⟨content, [], results⟩
  writtenBytes := 0

/-- The loop of `append`, after `n` bytes. -/
def appendLoop (logline : List UInt8) (n : ℕ) (fp : Stream) : Stream :=
  if n < logline.length then
    match fp.fwrite (logline.drop n) with
    | (0, fp) => fp
    | (x + 1, fp) => appendLoop logline (n + (x + 1)) fp
  else fp
termination_by logline.length - n

def append (f : AppendFile) (logline : List UInt8) : AppendFile :=
  let (n, fp) := f.fp.fwrite logline
  { fp := appendLoop logline n fp
    writtenBytes := f.writtenBytes + logline.length.toUInt64 }

/-- `flush`, and the destructor: `fclose` writes out the buffer like `fflush`. -/
def flush (f : AppendFile) : AppendFile := { f with fp := f.fp.fflush }

/-- A use of the file. -/
inductive Call
  | append (logline : List UInt8)
  | flush
  deriving DecidableEq

def call (f : AppendFile) : Call → AppendFile
  | .append logline => f.append logline
  | .flush => f.flush

def run (f : AppendFile) (calls : List Call) : AppendFile := calls.foldl call f

/-- The lines that are appended. -/
def lines : List Call → List (List UInt8)
  | [] => []
  | .append logline :: calls => logline :: lines calls
  | .flush :: calls => lines calls

end AppendFile

/-- How a `read` ends: after at most so many bytes and one, or with an error. -/
inductive ReadResult
  | bytes (k : ℕ)
  | failed (errno : ℤ)
  deriving DecidableEq

inductive FileType
  | regular
  | directory
  | other
  deriving DecidableEq

/-- An open file: its bytes, the answer of `fstat` and how the calls of `read` end. -/
structure File where
  data : List UInt8
  stat : Except ℤ FileType
  reads : List ReadResult

def kBufferSize : ℕ := 64 * 1024

def EISDIR : ℤ := 21

/-- `read` of at most `n` bytes. -/
def read (n : ℕ) (data : List UInt8) : List ReadResult → Except ℤ (List UInt8) × List ReadResult
  | [] => (.ok (data.take n), [])
  | .bytes k :: rest => (.ok (data.take (min n (k + 1))), rest)
  | .failed errno :: rest => (.error errno, rest)

/-- The loop of `readToString`, with the bytes that have not been read. -/
def readLoop (maxSize : ℕ) (content : List UInt8) (err : ℤ) (data : List UInt8)
    (reads : List ReadResult) : List UInt8 × ℤ :=
  if content.length < maxSize then
    match read (min (maxSize - content.length) kBufferSize) data reads with
    | (.ok [], _) => (content, err)
    | (.ok (b :: bs), rest) =>
        readLoop maxSize (content ++ b :: bs) err (data.drop (b :: bs).length) rest
    | (.error errno, _) => (content, errno)
  else (content, err)
termination_by maxSize - content.length
decreasing_by
  rw [List.length_append, List.length_cons]
  omega

/-- What `readToString` stores, and what it returns. -/
structure ReadReturn where
  content : List UInt8
  fileSize : Option ℕ
  err : ℤ
  deriving DecidableEq

/-- `readToString` of a file that was opened, or could not be; `wantsSize` says whether there
is a pointer for the size. -/
def readToString (file : Except ℤ File) (maxSize : ℕ) (content : List UInt8) (wantsSize : Bool) :
    ReadReturn :=
  match file with
  | .error errno => ⟨content, none, errno⟩
  | .ok file =>
      let size : Option ℕ × ℤ :=
        if wantsSize then
          match file.stat with
          | .ok .regular => (some file.data.length, 0)
          | .ok .directory => (none, EISDIR)
          | .ok .other => (none, 0)
          | .error errno => (none, errno)
        else (none, 0)
      let (content, err) := readLoop maxSize [] size.2 file.data file.reads
      ⟨content, size.1, err⟩

/-- `readFile`, with the size. -/
def readFile (file : Except ℤ File) (maxSize : ℕ) (content : List UInt8) : ReadReturn :=
  readToString file maxSize content true

section Append

variable {logline bytes piece : List UInt8} {fp gp hp : Stream} {n x : ℕ}

/-- Every call accepts something. -/
def Accepts (results : List WriteResult) : Prop := ∀ r ∈ results, 0 < r.accepted

/-- No `write` fails. -/
def Lossless (results : List WriteResult) : Prop := ∀ r ∈ results, r.lost = 0

/-- The stream takes over the bytes of `piece`: they follow those that were in the buffer, in the
file or in the buffer, and unless a `write` fails they are all there. -/
structure Takes (fp gp : Stream) (piece : List UInt8) : Prop where
  bytes : ∃ out, gp.content = fp.content ++ out ∧
    (out ++ gp.buffer).Sublist (fp.buffer ++ piece) ∧
    (Lossless fp.results → out ++ gp.buffer = fp.buffer ++ piece)
  results : gp.results ⊆ fp.results

theorem Takes.refl (fp : Stream) : Takes fp fp [] := by
  refine ⟨⟨[], (List.append_nil _).symm, ?_, fun _ => ?_⟩, fun _ h => h⟩
  · rw [List.append_nil, List.nil_append]
  · rw [List.append_nil, List.nil_append]

theorem Takes.trans {rest : List UInt8} (h : Takes fp gp piece) (hrest : Takes gp hp rest) :
    Takes fp hp (piece ++ rest) := by
  obtain ⟨⟨out, hout, hsub, hall⟩, hresults⟩ := h
  obtain ⟨⟨out', hout', hsub', hall'⟩, hresults'⟩ := hrest
  refine ⟨⟨out ++ out', ?_, ?_, fun hlossless => ?_⟩, fun r hr => hresults (hresults' hr)⟩
  · rw [hout', hout, List.append_assoc]
  · rw [List.append_assoc, ← List.append_assoc fp.buffer]
    have hrest := hsub'.append_left out
    rw [← List.append_assoc out gp.buffer] at hrest
    exact hrest.trans (hsub.append_right rest)
  · rw [List.append_assoc, hall' fun r hr => hlossless r (hresults hr), ← List.append_assoc,
      hall hlossless, List.append_assoc]

/-- Bytes come into the buffer, and some of it is written out. -/
theorem takes_pass {results : List WriteResult} (piece : List UInt8) (n lost : ℕ)
    (hresults : results ⊆ fp.results) (hlost : Lossless fp.results → lost = 0) :
    Takes fp (Stream.pass { fp with buffer := fp.buffer ++ piece, results := results } n lost)
      piece := by
  refine ⟨⟨_, rfl, ?_, fun hlossless => ?_⟩, hresults⟩
  · have hsub := ((List.take_sublist_take_left (Nat.sub_le n lost)).append_right
      ((fp.buffer ++ piece).drop n) : List.Sublist ((fp.buffer ++ piece).take (n - lost) ++ _) _)
    rwa [List.take_append_drop] at hsub
  · rw [hlost hlossless, Nat.sub_zero]
    exact List.take_append_drop n _

theorem takes_fwrite (fp : Stream) (bytes : List UInt8) :
    Takes fp (fp.fwrite bytes).2 (bytes.take (fp.fwrite bytes).1) := by
  unfold Stream.fwrite
  cases hresults : fp.results with
  | nil =>
      have htakes := takes_pass bytes
        ((fp.buffer ++ bytes).length - bufferSize) 0 (List.nil_subset fp.results) fun _ => rfl
      simpa only [List.take_length] using htakes
  | cons r rest =>
      refine takes_pass _ _ r.lost ?_ fun hlossless => ?_
      · rw [hresults]
        exact List.subset_cons_self r rest
      · exact hlossless r (hresults ▸ List.mem_cons_self)

theorem takes_fflush (fp : Stream) : Takes fp fp.fflush [] := by
  unfold Stream.fflush
  cases hresults : fp.results with
  | nil =>
      have htakes := takes_pass [] fp.buffer.length 0
        (List.Subset.refl fp.results) fun _ => rfl
      simpa only [List.append_nil] using htakes
  | cons r rest =>
      have hrest : rest ⊆ fp.results := by
        rw [hresults]
        exact List.subset_cons_self r rest
      have htakes := takes_pass [] fp.buffer.length r.lost hrest
        fun hlossless => hlossless r (hresults ▸ List.mem_cons_self)
      simpa only [List.append_nil] using htakes

/-- If every call accepts something, so does this one, if there is something. -/
theorem fwrite_pos (h : Accepts fp.results) (hbytes : bytes ≠ []) : 0 < (fp.fwrite bytes).1 := by
  have hlength := List.length_pos_iff.2 hbytes
  unfold Stream.fwrite
  cases hresults : fp.results with
  | nil => exact hlength
  | cons r rest => exact lt_min (h r (hresults ▸ List.mem_cons_self)) hlength

/-- The buffer holds no more than it has room for. -/
theorem length_buffer_fwrite_le (fp : Stream) (bytes : List UInt8) :
    (fp.fwrite bytes).2.buffer.length ≤ bufferSize := by
  unfold Stream.fwrite
  cases fp.results with
  | nil =>
      simp only [Stream.pass, List.length_drop]
      omega
  | cons r rest =>
      simp only [Stream.pass, List.length_drop]
      omega

theorem buffer_fflush (fp : Stream) : fp.fflush.buffer = [] := by
  unfold Stream.fflush
  cases fp.results with
  | nil => exact List.drop_length
  | cons r rest => exact List.drop_length

/-- The loop takes over a first part of the bytes that are left. -/
theorem exists_takes_appendLoop (logline : List UInt8) (n : ℕ) (fp : Stream) :
    ∃ piece, piece <+: logline.drop n ∧ Takes fp (AppendFile.appendLoop logline n fp) piece ∧
      (Accepts fp.results → piece = logline.drop n) := by
  fun_induction AppendFile.appendLoop logline n fp with
  | case1 n fp hlt gp hwrite =>
      have htakes := takes_fwrite fp (logline.drop n)
      rw [hwrite] at htakes
      refine ⟨[], List.nil_prefix, htakes, fun haccepts => ?_⟩
      have hleft : logline.drop n ≠ [] := by simpa using hlt
      have hpos := fwrite_pos haccepts hleft
      rw [hwrite] at hpos
      exact absurd hpos (lt_irrefl 0)
  | case2 n fp hlt x gp hwrite ih =>
      have htakes := takes_fwrite fp (logline.drop n)
      rw [hwrite] at htakes
      obtain ⟨piece, hprefix, hrest, hall⟩ := ih
      rw [← List.drop_drop] at hprefix hall
      refine ⟨(logline.drop n).take (x + 1) ++ piece, ?_, htakes.trans hrest, fun haccepts => ?_⟩
      · have happend := (List.prefix_append_right_inj ((logline.drop n).take (x + 1))).2 hprefix
        rwa [List.take_append_drop] at happend
      · rw [hall fun r hr => haccepts r (htakes.results hr), List.take_append_drop]
  | case3 n fp hge =>
      have hnil : logline.drop n = [] := List.drop_eq_nil_of_le (not_lt.1 hge)
      rw [hnil]
      exact ⟨[], List.nil_prefix, .refl fp, fun _ => rfl⟩

theorem length_buffer_appendLoop_le (logline : List UInt8) (n : ℕ)
    (h : fp.buffer.length ≤ bufferSize) :
    (AppendFile.appendLoop logline n fp).buffer.length ≤ bufferSize := by
  fun_induction AppendFile.appendLoop logline n fp with
  | case1 n fp hlt gp hwrite =>
      have hle := length_buffer_fwrite_le fp (logline.drop n)
      rwa [hwrite] at hle
  | case2 n fp hlt x gp hwrite ih =>
      have hle := length_buffer_fwrite_le fp (logline.drop n)
      rw [hwrite] at hle
      exact ih hle
  | case3 n fp hge => exact h

/-- `append` takes over a first part of the line, and the whole line if every call accepts
something. -/
theorem exists_takes_append (f : AppendFile) (logline : List UInt8) :
    ∃ piece, piece <+: logline ∧ Takes f.fp (f.append logline).fp piece ∧
      (Accepts f.fp.results → piece = logline) := by
  have htakes := takes_fwrite f.fp logline
  obtain ⟨piece, hprefix, hrest, hall⟩ :=
    exists_takes_appendLoop logline (f.fp.fwrite logline).1 (f.fp.fwrite logline).2
  refine ⟨logline.take (f.fp.fwrite logline).1 ++ piece, ?_, htakes.trans hrest,
    fun haccepts => ?_⟩
  · have happend :=
      (List.prefix_append_right_inj (logline.take (f.fp.fwrite logline).1)).2 hprefix
    rwa [List.take_append_drop] at happend
  · rw [hall fun r hr => haccepts r (htakes.results hr), List.take_append_drop]

theorem length_buffer_call_le (f : AppendFile) (c : AppendFile.Call) :
    (f.call c).fp.buffer.length ≤ bufferSize := by
  cases c with
  | append logline =>
      exact length_buffer_appendLoop_le logline _ (length_buffer_fwrite_le f.fp logline)
  | flush =>
      change f.fp.fflush.buffer.length ≤ bufferSize
      rw [buffer_fflush]
      exact Nat.zero_le _

theorem length_buffer_run_le (f : AppendFile) (h : f.fp.buffer.length ≤ bufferSize)
    (calls : List AppendFile.Call) : (f.run calls).fp.buffer.length ≤ bufferSize := by
  induction calls generalizing f with
  | nil => exact h
  | cons c calls ih => exact ih (f.call c) (length_buffer_call_le f c)

/-- Over a whole use of the file the stream takes over a first part of every line, and the whole
line if every call accepts something. The bytes counted are those of the lines. -/
theorem exists_takes_run (f : AppendFile) (calls : List AppendFile.Call) :
    ∃ pieces, List.Forall₂ (· <+: ·) pieces (AppendFile.lines calls) ∧
      Takes f.fp (f.run calls).fp pieces.flatten ∧
      (Accepts f.fp.results → pieces = AppendFile.lines calls) ∧
      (f.run calls).writtenBytes =
        f.writtenBytes + (AppendFile.lines calls).flatten.length.toUInt64 := by
  induction calls generalizing f with
  | nil => exact ⟨[], .nil, .refl f.fp, fun _ => rfl, (UInt64.add_zero _).symm⟩
  | cons c calls ih =>
      obtain ⟨pieces, hpieces, hrest, hall, hwritten⟩ := ih (f.call c)
      cases c with
      | append line =>
          obtain ⟨piece, hprefix, htakes, hwhole⟩ := exists_takes_append f line
          refine ⟨piece :: pieces, .cons hprefix hpieces, htakes.trans hrest,
            fun haccepts => ?_, ?_⟩
          · rw [hwhole haccepts, hall fun r hr => haccepts r (htakes.results hr)]
            rfl
          · change ((f.append line).run calls).writtenBytes = _
            rw [AppendFile.lines, List.flatten_cons, List.length_append]
            refine hwritten.trans ?_
            simp [AppendFile.call, AppendFile.append, UInt64.add_assoc]
      | flush =>
          have htakes := takes_fflush f.fp
          refine ⟨pieces, hpieces, htakes.trans hrest, fun haccepts => ?_, hwritten⟩
          exact hall fun r hr => haccepts r (htakes.results hr)

/-- A line is written as `LogFile` has it, whose files hold what their streams have taken over. -/
theorem writeLine_append {s : LogFile} {file : Base.AppendFile} {f : AppendFile}
    (hforbit : s.forbitWrite = false) (haccepts : Accepts f.fp.results)
    (hlossless : Lossless f.fp.results)
    (hcontent : (file.name, f.fp.content ++ f.fp.buffer) ∈ s.directory)
    (hwritten : f.writtenBytes = file.writtenBytes) :
    (file.name, (f.append logline).fp.content ++ (f.append logline).fp.buffer) ∈
        (s.writeLine file logline).directory ∧
      (s.writeLine file logline).file =
        some { file with writtenBytes := (f.append logline).writtenBytes } := by
  obtain ⟨piece, -, htakes, hwhole⟩ := exists_takes_append f logline
  obtain rfl := hwhole haccepts
  obtain ⟨out, hout, -, hall⟩ := htakes.bytes
  constructor
  · have hdirectory : (s.writeLine file piece).directory =
        Directory.write s.directory file.name piece := if_neg (by simp [hforbit])
    rw [hdirectory, hout, List.append_assoc, hall hlossless, ← List.append_assoc]
    exact List.mem_map.2 ⟨_, hcontent, if_pos rfl⟩
  · rw [AppendFile.append, hwritten]
    rfl

end Append

section Read

variable {maxSize : ℕ} {content data : List UInt8} {err : ℤ} {reads : List ReadResult}

def ReadResult.succeeds : ReadResult → Bool
  | .bytes _ => true
  | .failed _ => false

/-- A call of `read` for something takes the first bytes, if there are any. -/
theorem read_eq_ok {n : ℕ} {bytes : List UInt8} {rest : List ReadResult} (hn : 0 < n)
    (h : read n data reads = (.ok bytes, rest)) :
    bytes = data.take bytes.length ∧ bytes.length ≤ n ∧ (bytes = [] → data = []) := by
  have htake : ∃ k, 0 < k ∧ k ≤ n ∧ data.take k = bytes := by
    cases reads with
    | nil => exact ⟨n, hn, le_rfl, Except.ok.inj (Prod.mk.inj h).1⟩
    | cons r reads =>
        cases r with
        | bytes k =>
            exact ⟨min n (k + 1), lt_min hn k.succ_pos, min_le_left _ _,
              Except.ok.inj (Prod.mk.inj h).1⟩
        | failed errno => cases (Prod.mk.inj h).1
  obtain ⟨k, hpos, hle, rfl⟩ := htake
  have hlength := List.length_take_le k data
  refine ⟨?_, hlength.trans hle, fun hnil => ?_⟩
  · rw [List.length_take, ← List.take_take, List.take_length]
  · obtain rfl | hdata := List.take_eq_nil_iff.1 hnil
    · exact absurd hpos (lt_irrefl 0)
    · exact hdata

/-- The results that are left are among those there were. -/
theorem succeeds_read (h : ∀ r ∈ reads, r.succeeds = true) (n : ℕ) (data : List UInt8) :
    (∃ bytes, (read n data reads).1 = .ok bytes) ∧
      ∀ r ∈ (read n data reads).2, r.succeeds = true := by
  cases reads with
  | nil => exact ⟨⟨_, rfl⟩, h⟩
  | cons r reads =>
      have hrest := List.forall_mem_cons.1 h
      cases r with
      | bytes k => exact ⟨⟨_, rfl⟩, hrest.2⟩
      | failed errno => cases hrest.1

/-- The loop reads the next bytes, and without an error as many as there are and fit. -/
theorem readLoop_content (maxSize : ℕ) (content data : List UInt8) (err : ℤ)
    (reads : List ReadResult) :
    ∃ m ≤ maxSize - content.length,
      (readLoop maxSize content err data reads).1 = content ++ data.take m ∧
      ((∀ r ∈ reads, r.succeeds = true) → m = maxSize - content.length ∧
        (readLoop maxSize content err data reads).2 = err) := by
  fun_induction readLoop maxSize content err data reads with
  | case1 content data reads hlt rest hread =>
      have hn : 0 < min (maxSize - content.length) kBufferSize :=
        lt_min (Nat.sub_pos_of_lt hlt) (by decide)
      obtain rfl := (read_eq_ok hn hread).2.2 rfl
      exact ⟨_, le_rfl, by simp, fun _ => ⟨rfl, rfl⟩⟩
  | case2 content data reads hlt b bs rest hread ih =>
      have hn : 0 < min (maxSize - content.length) kBufferSize :=
        lt_min (Nat.sub_pos_of_lt hlt) (by decide)
      obtain ⟨hbytes, hlength, -⟩ := read_eq_ok hn hread
      have hfits : (b :: bs).length ≤ maxSize - content.length := hlength.trans (min_le_left _ _)
      obtain ⟨m, hm, hcontent, hall⟩ := ih
      rw [List.length_append] at hm hall
      refine ⟨(b :: bs).length + m, by omega, ?_, fun hreads => ?_⟩
      · rw [hcontent, List.append_assoc, List.take_add, ← hbytes]
      · have hrest := (succeeds_read hreads (min (maxSize - content.length) kBufferSize) data).2
        rw [hread] at hrest
        obtain ⟨hall, herr⟩ := hall hrest
        exact ⟨by omega, herr⟩
  | case3 content data reads hlt errno rest hread =>
      refine ⟨0, Nat.zero_le _, by simp, fun hreads => ?_⟩
      obtain ⟨bytes, hok⟩ :=
        (succeeds_read hreads (min (maxSize - content.length) kBufferSize) data).1
      rw [hread] at hok
      cases hok
  | case4 content data reads hge =>
      have hzero : maxSize - content.length = 0 := Nat.sub_eq_zero_of_le (not_lt.1 hge)
      exact ⟨0, Nat.zero_le _, by simp, fun _ => ⟨hzero.symm, rfl⟩⟩

end Read

/-- The file as it is opened by a reader. -/
def AppendFile.reopen (f : AppendFile) (reads : List ReadResult) : File :=
  ⟨f.fp.content, .ok .regular, reads⟩

theorem buffer_run_flush (f : AppendFile) {calls : List AppendFile.Call}
    (h : calls.getLast? = some .flush) : (f.run calls).fp.buffer = [] := by
  obtain ⟨front, rfl⟩ := List.getLast?_eq_some_iff.1 h
  rw [AppendFile.run, List.foldl_append]
  exact buffer_fflush _

/-- What was appended is read back. At any time the file and at most 64 KiB in the buffer make up
a first part of every line, in the order of the lines, less what was lost in writes that failed;
`readFile` gets a first part of the file. These are all of each line if every call of
`fwrite_unlocked` accepts something, and the whole file if it has at most `maxSize` bytes and no
call of `read` fails. After a flush or the destructor nothing is in the buffer. -/
theorem readFile_append (before : List UInt8) (results : List WriteResult)
    (calls : List AppendFile.Call) (reads : List ReadResult) (maxSize : ℕ)
    (content : List UInt8) :
    ∃ pieces written buffered m err,
      readFile (.ok (((AppendFile.create before results).run calls).reopen reads)) maxSize
          content = ⟨(before ++ written).take m, some (before ++ written).length, err⟩ ∧
      List.Forall₂ (· <+: ·) pieces (AppendFile.lines calls) ∧
      (written ++ buffered).Sublist pieces.flatten ∧
      buffered.length ≤ bufferSize ∧ m ≤ maxSize ∧
      (Lossless results → written ++ buffered = pieces.flatten) ∧
      (Accepts results → pieces = AppendFile.lines calls) ∧
      (calls.getLast? = some .flush → buffered = []) ∧
      ((∀ r ∈ reads, r.succeeds = true) → m = maxSize ∧ err = 0) := by
  obtain ⟨pieces, hpieces, htakes, hall, -⟩ :=
    exists_takes_run (AppendFile.create before results) calls
  obtain ⟨written, hwritten, hsub, hlossless⟩ := htakes.bytes
  have hcontent : ((AppendFile.create before results).run calls).fp.content =
      before ++ written := hwritten
  obtain ⟨m, hm, hread, hsucceeds⟩ := readLoop_content maxSize [] (before ++ written) 0 reads
  rw [List.nil_append] at hread
  refine ⟨pieces, written, ((AppendFile.create before results).run calls).fp.buffer, m,
    (readLoop maxSize [] 0 (before ++ written) reads).2, ?_, hpieces, hsub,
    length_buffer_run_le _ (Nat.zero_le _) calls, hm, hlossless, hall, buffer_run_flush _,
    hsucceeds⟩
  rw [← hread, ← hcontent]
  rfl

end FileUtil

end Base

end SoL
