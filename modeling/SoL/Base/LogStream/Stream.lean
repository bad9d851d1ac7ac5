import SoL.Base.FixedBuffer
import SoL.Base.LogStream.Numeral

/-!
# The log stream

`LogStream` inserts values into a `FixedBuffer` of 4000 bytes. Texts go through
`append`, which cuts them to the room there is. Numbers are written at `cur_`
without a look at the end, after a test that at least `kMaxNumericSize` bytes are
left. `RawBuffer` is the buffer as this code sees it: an array and a position
that nothing but the code keeps inside, and a write outside the array has no
result.

`insert_eq` is the one statement about all insertions: from a position inside the
array every write is inside, the position stays inside, and the text of the value
is added, cut, or left out.

The digits of `double` come from `snprintf("%.12g")`, which is taken as given and
returns at most 31 (`Snprintf`).
-/

namespace SoL

namespace Base

open Memory

/-- `snprintf` of a `double` with the format `"%.12g"`. -/
structure Snprintf (δ : Type) where
  text : δ → List UInt8
  length_text : ∀ v, (text v).length ≤ 31

/-- `Fmt`: the constructor asserts that the text fits into its 32 bytes. -/
structure Fmt where
  data : List UInt8
  length_lt : data.length < 32

namespace LogStream

/-- `kMaxNumericSize`, for x86. -/
def kMaxNumericSize : ℕ := 32

/-- The values that can be inserted. A `float` is inserted as a `double`, and a
`StringPiece` or a buffer as the string of its bytes. -/
inductive Value (δ : Type)
  | bool (v : Bool)
  | short (v : Int16)
  | unsignedShort (v : UInt16)
  | int (v : Int32)
  | unsignedInt (v : UInt32)
  | long (v : Int64)
  | unsignedLong (v : UInt64)
  | longLong (v : Int64)
  | unsignedLongLong (v : UInt64)
  | pointer (v : UInt64)
  | double (v : δ)
  | char (v : UInt8)
  | cString (str : Option (List UInt8))
  | string (v : List UInt8)
  | fmt (v : Fmt)

structure RawBuffer where
  data : List UInt8
  cur : ℤ

namespace RawBuffer

def avail (b : RawBuffer) : ℤ := b.data.length - b.cur

/-- `memcpy(cur_, buf, n)`, where `cur_` moves by as much. -/
def memcpy (b : RawBuffer) (buf : List UInt8) (n : ℕ) : Option RawBuffer := do
  let data ← write b.data b.cur (buf.take n)
  return { data := data, cur := b.cur + n }

/-- `append`, with `avail()` as a `size_t`. -/
def append (b : RawBuffer) (buf : List UInt8) : Option RawBuffer :=
  if buf.length < (b.avail % 2 ^ 64).toNat then b.memcpy buf buf.length
  else b.memcpy buf (b.avail % 2 ^ 64).toNat

/-- The bytes that a reader sees. -/
def content (b : RawBuffer) : List UInt8 := b.data.take b.cur.toNat

def formatInteger (b : RawBuffer) (v : ℤ) : Option RawBuffer :=
  if kMaxNumericSize ≤ b.avail then do
    let (data, len) ← convert b.data b.cur v
    return { data := data, cur := b.cur + len }
  else some b

/-- `operator<<(const void*)`. -/
def formatPointer (b : RawBuffer) (v : UInt64) : Option RawBuffer :=
  if kMaxNumericSize ≤ b.avail then do
    let data ← write b.data b.cur (chars "0")
    let data ← write data (b.cur + 1) (chars "x")
    let (data, len) ← convertHex data (b.cur + 2) v
    return { data := data, cur := b.cur + (len + 2) }
  else some b

variable {δ : Type}

/-- `operator<<(double)`: `snprintf` writes at most `kMaxNumericSize` bytes with
the NUL, and returns the length of the whole text. -/
def formatDouble (F : Snprintf δ) (b : RawBuffer) (v : δ) : Option RawBuffer :=
  if kMaxNumericSize ≤ b.avail then do
    let data ← write b.data b.cur ((F.text v).take (kMaxNumericSize - 1) ++ [0])
    return { data := data, cur := b.cur + (F.text v).length }
  else some b

/-- `operator<<`. -/
def insert (F : Snprintf δ) (b : RawBuffer) : Value δ → Option RawBuffer
  | .bool v => b.append (chars (if v then "1" else "0"))
  | .short v => b.formatInteger v.toInt32.toInt
  | .unsignedShort v => b.formatInteger v.toUInt32.toNat
  | .int v => b.formatInteger v.toInt
  | .unsignedInt v => b.formatInteger v.toNat
  | .long v => b.formatInteger v.toInt
  | .unsignedLong v => b.formatInteger v.toNat
  | .longLong v => b.formatInteger v.toInt
  | .unsignedLongLong v => b.formatInteger v.toNat
  | .pointer v => b.formatPointer v
  | .double v => b.formatDouble F v
  | .char v => b.append [v]
  | .cString (some str) => b.append (str.takeWhile (· ≠ 0))
  | .cString none => b.append (chars "(null)")
  | .string v => b.append v
  | .fmt v => b.append v.data

end RawBuffer

/-- The whole text of a value. -/
def render {δ : Type} (F : Snprintf δ) : Value δ → List UInt8
  | .bool v => chars (if v then "1" else "0")
  | .short v => numeral v.toInt
  | .unsignedShort v => numeral v.toNat
  | .int v => numeral v.toInt
  | .unsignedInt v => numeral v.toNat
  | .long v => numeral v.toInt
  | .unsignedLong v => numeral v.toNat
  | .longLong v => numeral v.toInt
  | .unsignedLongLong v => numeral v.toNat
  | .pointer v => chars "0x" ++ hexNumeral v.toNat
  | .double v => F.text v
  | .char v => [v]
  | .cString (some str) => str.takeWhile (· ≠ 0)
  | .cString none => chars "(null)"
  | .string v => v
  | .fmt v => v.data

/-- The values that are written after a test for `kMaxNumericSize`. -/
def Value.numeric {δ : Type} : Value δ → Bool
  | .short _ | .unsignedShort _ | .int _ | .unsignedInt _ | .long _ | .unsignedLong _
  | .longLong _ | .unsignedLongLong _ | .pointer _ | .double _ => true
  | .bool _ | .char _ | .cString _ | .string _ | .fmt _ => false

/-- The number of a value of an integer type. -/
def Value.integer {δ : Type} : Value δ → Option ℤ
  | .short v => some v.toInt
  | .unsignedShort v => some v.toNat
  | .int v => some v.toInt
  | .unsignedInt v => some v.toNat
  | .long v | .longLong v => some v.toInt
  | .unsignedLong v | .unsignedLongLong v => some v.toNat
  | .bool _ | .pointer _ | .double _ | .char _ | .cString _ | .string _ | .fmt _ => none

/-- What a stream with so many free bytes takes of a value. -/
def accepted {δ : Type} (F : Snprintf δ) (free : ℕ) (v : Value δ) : List UInt8 :=
  if v.numeric then if kMaxNumericSize ≤ free then render F v else []
  else (render F v).take free

section Spec

variable {δ : Type} {size : ℕ}

/-- A buffer that keeps its position inside, as the code sees it. -/
def raw (b : FixedBuffer size) : RawBuffer where
  data := b.data
  cur := b.cur

theorem avail_raw (b : FixedBuffer size) : (raw b).avail = b.avail := by
  have hlen := b.length_data
  have hcur := b.cur_le
  simp only [raw, RawBuffer.avail, FixedBuffer.avail]
  omega

theorem content_raw (b : FixedBuffer size) : (raw b).content = b.content := rfl

/-- A text and some more bytes are written, and the position moves behind the
text. -/
def store (b : FixedBuffer size) (xs zs : List UInt8)
    (h : b.cur + xs.length + zs.length ≤ size) : FixedBuffer size where
  data := splice b.data b.cur (xs ++ zs)
  cur := b.cur + xs.length
  length_data := by
    rw [length_splice (by rw [b.length_data, List.length_append]; omega), b.length_data]
  cur_le := by omega

theorem content_store (b : FixedBuffer size) (xs zs : List UInt8)
    (h : b.cur + xs.length + zs.length ≤ size) :
    (store b xs zs h).content = b.content ++ xs := by
  exact take_splice_append (by rw [b.length_data]; exact b.cur_le)

/-- A text that is copied from its beginning. -/
theorem memcpy_raw (b : FixedBuffer size) (buf : List UInt8) (n : ℕ) (hbuf : n ≤ buf.length)
    (hfit : b.cur + n ≤ size) :
    (raw b).memcpy buf n = some (raw (b.memcpy buf n hbuf hfit)) := by
  have hlen : (buf.take n).length = n := List.length_take_of_le hbuf
  have hroom : b.cur + (buf.take n).length ≤ b.data.length := by
    rw [hlen, b.length_data]
    exact hfit
  simp only [RawBuffer.memcpy, raw, write_eq_some hroom, splice, hlen, FixedBuffer.memcpy]
  simp

/-- The comparison with `avail()` as a `size_t` is the one meant. -/
theorem append_raw (b : FixedBuffer kSmallBuffer) (buf : List UInt8) :
    (raw b).append buf = some (raw (b.append buf)) := by
  have havail : ((raw b).avail % 2 ^ 64).toNat = b.avail := by
    have hle : b.avail ≤ 4000 := Nat.sub_le _ _
    rw [avail_raw]
    omega
  have hcur := b.cur_le
  rw [RawBuffer.append, havail, FixedBuffer.append]
  split
  · exact memcpy_raw b buf _ _ _
  · exact memcpy_raw b buf _ _ _

/-- A buffer that has taken `xs`. -/
def Takes (b : FixedBuffer size) (result : Option RawBuffer) (xs : List UInt8) : Prop :=
  ∃ b' : FixedBuffer size, result = some (raw b') ∧ b'.content = b.content ++ xs

theorem takes_append (b : FixedBuffer kSmallBuffer) (buf : List UInt8) :
    Takes b ((raw b).append buf) (buf.take b.avail) :=
  ⟨b.append buf, append_raw b buf, b.content_append buf⟩

theorem takes_store (b : FixedBuffer size) {xs zs : List UInt8} {data : List UInt8} {cur : ℤ}
    (h : b.cur + xs.length + zs.length ≤ size) (hdata : data = splice b.data b.cur (xs ++ zs))
    (hcur : cur = b.cur + xs.length) : Takes b (some ⟨data, cur⟩) xs := by
  refine ⟨store b xs zs h, ?_, content_store b xs zs h⟩
  rw [hdata, hcur, raw, store, Nat.cast_add]

/-- A write after the test for `kMaxNumericSize`. -/
theorem takes_numeric (b : FixedBuffer size) {xs : List UInt8} {written : Option RawBuffer}
    (h : kMaxNumericSize ≤ b.avail → Takes b written xs) :
    Takes b (if kMaxNumericSize ≤ (raw b).avail then written else some (raw b))
      (if kMaxNumericSize ≤ b.avail then xs else []) := by
  rw [avail_raw]
  by_cases hroom : kMaxNumericSize ≤ b.avail
  · rw [if_pos (by exact_mod_cast hroom), if_pos hroom]
    exact h hroom
  · rw [if_neg (by exact_mod_cast hroom), if_neg hroom]
    exact ⟨b, rfl, (List.append_nil _).symm⟩

theorem cur_add_le (b : FixedBuffer size) {n : ℕ} (h : n ≤ b.avail) : b.cur + n ≤ size := by
  have hcur := b.cur_le
  simp only [FixedBuffer.avail] at h
  omega

theorem takes_formatInteger (b : FixedBuffer size) {v : ℤ} (hlow : -2 ^ 63 ≤ v)
    (hhigh : v < 2 ^ 64) :
    Takes b ((raw b).formatInteger v)
      (if kMaxNumericSize ≤ b.avail then numeral v else []) := by
  refine takes_numeric b fun hroom => ?_
  have hlen := length_numeral_le hlow hhigh
  have hfit := cur_add_le b hroom
  simp only [kMaxNumericSize] at hfit
  have hconvert : convert b.data b.cur v =
      some (splice b.data b.cur (numeral v ++ [0]), ((numeral v).length : ℤ)) :=
    convert_eq (by rw [b.length_data]; omega)
  simp only [raw, hconvert, Option.bind_eq_bind, Option.bind_some]
  exact takes_store b (by simp only [List.length_singleton]; omega) rfl rfl

theorem takes_formatPointer (b : FixedBuffer size) (v : UInt64) :
    Takes b ((raw b).formatPointer v)
      (if kMaxNumericSize ≤ b.avail then chars "0x" ++ hexNumeral v.toNat else []) := by
  refine takes_numeric b fun hroom => ?_
  have hlen := length_hexNumeral_le v
  have hfit := cur_add_le b hroom
  have hdata := b.length_data
  have hone : (chars "0").length = 1 ∧ (chars "x").length = 1 ∧ (chars "0x").length = 2 := by
    decide
  simp only [kMaxNumericSize] at hfit
  have hzero : write b.data b.cur (chars "0") = some (splice b.data b.cur (chars "0")) :=
    write_eq_some (by omega)
  have hx : write (splice b.data b.cur (chars "0")) (b.cur + 1) (chars "x") =
      some (splice b.data b.cur (chars "0x")) := by
    have hnext : write (splice b.data b.cur (chars "0"))
        ((b.cur + (chars "0").length : ℕ) : ℤ) (chars "x") =
        some (splice b.data b.cur (chars "0" ++ chars "x")) := write_append (by omega)
    rw [hone.1, Nat.cast_succ] at hnext
    exact hnext
  have hhex : convertHex (splice b.data b.cur (chars "0x")) (b.cur + 2) v =
      some (splice b.data b.cur (chars "0x" ++ hexNumeral v.toNat ++ [0]),
        ((hexNumeral v.toNat).length : ℤ)) := by
    have hnext : convertHex (splice b.data b.cur (chars "0x"))
        ((b.cur + (chars "0x").length : ℕ) : ℤ) v = _ :=
      convertHex_eq (by rw [length_splice (by omega)]; omega)
    have hjoin : splice (splice b.data b.cur (chars "0x")) (b.cur + (chars "0x").length)
        (hexNumeral v.toNat ++ [0]) =
          splice b.data b.cur (chars "0x" ++ (hexNumeral v.toNat ++ [0])) :=
      splice_append (by simp only [List.length_append, List.length_singleton]; omega)
    rw [hjoin, ← List.append_assoc, hone.2.2, Nat.cast_add] at hnext
    exact hnext
  simp only [raw, hzero, hx, hhex, Option.bind_eq_bind, Option.bind_some]
  refine takes_store b (by simp only [List.length_append, List.length_singleton]; omega) rfl ?_
  rw [List.length_append]
  push_cast
  omega

theorem takes_formatDouble (F : Snprintf δ) (b : FixedBuffer size) (v : δ) :
    Takes b ((raw b).formatDouble F v)
      (if kMaxNumericSize ≤ b.avail then F.text v else []) := by
  refine takes_numeric b fun hroom => ?_
  have hlen := F.length_text v
  have hfit := cur_add_le b hroom
  simp only [kMaxNumericSize] at hfit
  have htext : (F.text v).take (kMaxNumericSize - 1) = F.text v :=
    List.take_of_length_le hlen
  have hwrite : write b.data b.cur (F.text v ++ [0]) =
      some (splice b.data b.cur (F.text v ++ [0])) :=
    write_eq_some (by rw [b.length_data, List.length_append, List.length_singleton]; omega)
  simp only [raw, htext, hwrite, Option.bind_eq_bind, Option.bind_some]
  exact takes_store b (by simp only [List.length_singleton]; omega) rfl rfl

theorem integer_range {v : Value δ} {n : ℤ} (h : v.integer = some n) :
    -2 ^ 63 ≤ n ∧ n < 2 ^ 64 := by
  cases v with
  | short v | int v | long v | longLong v =>
      obtain rfl := Option.some.inj h
      have hlow := v.le_toInt
      have hhigh := v.toInt_lt
      omega
  | unsignedShort v | unsignedInt v | unsignedLong v | unsignedLongLong v =>
      obtain rfl := Option.some.inj h
      have hhigh := v.toNat_lt
      omega
  | _ => cases h

/-- Every insertion, at every position inside. -/
theorem takes_insert (F : Snprintf δ) (b : FixedBuffer kSmallBuffer) (v : Value δ) :
    Takes b ((raw b).insert F v) (accepted F b.avail v) := by
  have hinteger : ∀ n, v.integer = some n → Takes b ((raw b).formatInteger n)
      (if kMaxNumericSize ≤ b.avail then numeral n else []) := fun n hn =>
    takes_formatInteger b (integer_range hn).1 (integer_range hn).2
  cases v with
  | bool v => exact takes_append b _
  | char v => exact takes_append b _
  | cString str =>
      cases str with
      | none => exact takes_append b _
      | some str => exact takes_append b _
  | string v => exact takes_append b _
  | fmt v => exact takes_append b _
  | short v =>
      have hshort : (raw b).insert F (.short v) = (raw b).formatInteger v.toInt :=
        congrArg (fun n : ℤ => (raw b).formatInteger n) v.toInt_toInt32
      rw [hshort]
      exact hinteger _ rfl
  | unsignedShort v =>
      have hshort : (raw b).insert F (.unsignedShort v) = (raw b).formatInteger v.toNat :=
        congrArg (fun n : ℕ => (raw b).formatInteger n) v.toNat_toUInt32
      rw [hshort]
      exact hinteger _ rfl
  | int v => exact hinteger _ rfl
  | unsignedInt v => exact hinteger _ rfl
  | long v => exact hinteger _ rfl
  | longLong v => exact hinteger _ rfl
  | unsignedLong v => exact hinteger _ rfl
  | unsignedLongLong v => exact hinteger _ rfl
  | pointer v => exact takes_formatPointer b v
  | double v => exact takes_formatDouble F b v

/-- No number is as long as the room that is asked for it. -/
theorem length_render_lt (F : Snprintf δ) {v : Value δ} (h : v.numeric = true) :
    (render F v).length < kMaxNumericSize := by
  have hinteger : ∀ n, v.integer = some n → (numeral n).length < kMaxNumericSize := fun n hn =>
    (length_numeral_le (integer_range hn).1 (integer_range hn).2).trans_lt (by decide)
  cases v with
  | bool v | char v | cString str | string v | fmt v => cases h
  | pointer v =>
      have hlen := length_hexNumeral_le v
      have hprefix : (chars "0x").length = 2 := by decide
      simp only [render, List.length_append, kMaxNumericSize]
      omega
  | double v => exact (F.length_text v).trans_lt (by decide)
  | _ => exact hinteger _ rfl

/-- The calls on a stream. -/
inductive Operation (δ : Type)
  | insert (v : Value δ)
  | resetBuffer

def operate (F : Snprintf δ) (b : RawBuffer) : Operation δ → Option RawBuffer
  | .insert v => b.insert F v
  | .resetBuffer => some { b with cur := 0 }

/-- The stream after its construction. The bytes of the array are not set. -/
def new (garbage : Fin kSmallBuffer → UInt8) : RawBuffer where
  data := List.ofFn garbage
  cur := 0

def run (F : Snprintf δ) (garbage : Fin kSmallBuffer → UInt8) (ops : List (Operation δ)) :
    Option RawBuffer :=
  ops.foldlM (operate F) (new garbage)

/-- The same, as a buffer that keeps its position inside. -/
def empty (garbage : Fin kSmallBuffer → UInt8) : FixedBuffer kSmallBuffer where
  data := List.ofFn garbage
  cur := 0
  length_data := List.length_ofFn
  cur_le := Nat.zero_le _

theorem new_eq_raw (garbage : Fin kSmallBuffer → UInt8) : new garbage = raw (empty garbage) := by
  simp only [new, raw, empty, Nat.cast_zero]

theorem operate_raw (F : Snprintf δ) (b : FixedBuffer kSmallBuffer) (op : Operation δ) :
    ∃ b' : FixedBuffer kSmallBuffer, operate F (raw b) op = some (raw b') := by
  cases op with
  | insert v =>
      obtain ⟨b', hinsert, -⟩ := takes_insert F b v
      exact ⟨b', hinsert⟩
  | resetBuffer => exact ⟨b.reset, rfl⟩

theorem foldlM_raw (F : Snprintf δ) (b : FixedBuffer kSmallBuffer) (ops : List (Operation δ)) :
    ∃ b' : FixedBuffer kSmallBuffer, ops.foldlM (operate F) (raw b) = some (raw b') := by
  induction ops generalizing b with
  | nil => exact ⟨b, rfl⟩
  | cons op ops ih =>
      obtain ⟨c, hop⟩ := operate_raw F b op
      obtain ⟨b', hrest⟩ := ih c
      refine ⟨b', ?_⟩
      rw [List.foldlM_cons, hop]
      exact hrest

/-- For all calls on a stream, every byte is written inside the array, and the
position is inside after every call. -/
theorem run_inside (F : Snprintf δ) (garbage : Fin kSmallBuffer → UInt8)
    (ops : List (Operation δ)) :
    ∃ b, run F garbage ops = some b ∧ b.data.length = kSmallBuffer ∧ 0 ≤ b.cur ∧
      b.cur ≤ kSmallBuffer := by
  obtain ⟨b, hrun⟩ := foldlM_raw F (empty garbage) ops
  refine ⟨raw b, ?_, b.length_data, Int.natCast_nonneg _, Int.ofNat_le.2 b.cur_le⟩
  rw [run, new_eq_raw, hrun]

end Spec

end LogStream

end Base

end SoL
