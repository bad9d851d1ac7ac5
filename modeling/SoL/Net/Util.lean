import Mathlib.Tactic

/-!
# Reading and writing descriptors

`readn` and `writen` call the kernel until they have moved all bytes or an
answer of the kernel ends the loop. The kernel is a parameter: what it answers
may depend on its state, and the state also holds whatever decides how many
bytes the next call moves and whether it is interrupted. The loops end because
the kernel interrupts or delivers only finitely often, which `budget` measures;
a write makes progress on its own, since it shortens what is left to write.

The overloads on strings have loops of their own. The two that read differ in
the flag `zero` only. The one that writes leaves in the string what is still to
be sent, and tells a string that was sent as a whole by comparing the sum with
the size cast to `int`.
-/

namespace SoL

namespace Net

inductive Errno
  | EINTR
  | EAGAIN
  | other
  deriving DecidableEq

/-- The answer to `read`. No bytes mean the end of the stream. -/
inductive ReadAnswer
  | bytes (bs : List UInt8)
  | error (e : Errno)
  deriving DecidableEq

/-- The answer to `write`: how many bytes were accepted. -/
inductive WriteAnswer
  | accepted (k : ℕ)
  | error (e : Errno)
  deriving DecidableEq

structure Kernel (σ : Type*) where
  read : σ → ℕ → ReadAnswer × σ
  write : σ → List UInt8 → WriteAnswer × σ
  budget : σ → ℕ
  read_bytes : ∀ s n bs t, read s n = (.bytes bs, t) →
    bs.length ≤ n ∧ (bs ≠ [] → budget t < budget s)
  read_eintr : ∀ s n t, read s n = (.error .EINTR, t) → budget t < budget s
  write_accepted : ∀ s ptr k t, ptr ≠ [] → write s ptr = (.accepted k, t) →
    k ≤ ptr.length ∧ budget t + (ptr.length - k) < budget s + ptr.length
  write_eintr : ∀ s ptr t, write s ptr = (.error .EINTR, t) → budget t < budget s

/-- What `readn` returns, what it has stored in the buffer, and the kernel after
it. -/
structure ReadReturn (σ : Type*) where
  result : ℤ
  stored : List UInt8
  kernel : σ

structure WriteReturn (σ : Type*) where
  result : ℤ
  kernel : σ

variable {σ : Type*} (K : Kernel σ)

/-- The loop of `readn`, with the bytes stored so far. -/
def readnLoop (s : σ) (nleft : ℕ) (readSum : ℤ) (stored : List UInt8) : ReadReturn σ :=
  if nleft = 0 then ⟨readSum, stored, s⟩
  else
    match h : K.read s nleft with
    | (.error .EINTR, t) => readnLoop t nleft readSum stored
    | (.error .EAGAIN, t) => ⟨readSum, stored, t⟩
    | (.error .other, t) => ⟨-1, stored, t⟩
    | (.bytes [], t) => ⟨readSum, stored, t⟩
    | (.bytes (b :: bs), t) =>
        readnLoop t (nleft - (b :: bs).length) (readSum + (b :: bs).length) (stored ++ b :: bs)
termination_by K.budget s
decreasing_by
  · exact K.read_eintr s nleft t h
  · exact (K.read_bytes s nleft _ t h).2 (List.cons_ne_nil b bs)

/-- `readn(int, void*, size_t)`. -/
def readn (s : σ) (n : ℕ) : ReadReturn σ := readnLoop K s n 0 []

/-- The loop of `writen`, with the bytes left to write. -/
def writenLoop (s : σ) (ptr : List UInt8) (writeSum : ℤ) : WriteReturn σ :=
  if _hptr : ptr = [] then ⟨writeSum, s⟩
  else
    match h : K.write s ptr with
    | (.error .EINTR, t) => writenLoop t ptr writeSum
    | (.error .EAGAIN, t) => ⟨writeSum, t⟩
    | (.error .other, t) => ⟨-1, t⟩
    | (.accepted k, t) => writenLoop t (ptr.drop k) (writeSum + k)
termination_by K.budget s + ptr.length
decreasing_by
  · exact Nat.add_lt_add_right (K.write_eintr s ptr t h) _
  · rw [List.length_drop]
    exact (K.write_accepted s ptr k t _hptr h).2

/-- `writen(int, char*, size_t)` on the bytes of its buffer. -/
def writen (s : σ) (ptr : List UInt8) : WriteReturn σ := writenLoop K s ptr 0

def MAX_BUFF : ℕ := 4096

/-- What a `readn` into a string returns, the string after it, whether the peer
had closed, and the kernel. -/
structure StringReadReturn (σ : Type*) where
  result : ℤ
  inBuffer : List UInt8
  eof : Bool
  kernel : σ

/-- The loop of the two overloads that read into a string. -/
def readnStringLoop (s : σ) (readSum : ℤ) (inBuffer : List UInt8) : StringReadReturn σ :=
  match h : K.read s MAX_BUFF with
  | (.error .EINTR, t) => readnStringLoop t readSum inBuffer
  | (.error .EAGAIN, t) => ⟨readSum, inBuffer, false, t⟩
  | (.error .other, t) => ⟨-1, inBuffer, false, t⟩
  | (.bytes [], t) => ⟨readSum, inBuffer, true, t⟩
  | (.bytes (b :: bs), t) =>
      readnStringLoop t (readSum + (b :: bs).length) (inBuffer ++ b :: bs)
termination_by K.budget s
decreasing_by
  · exact K.read_eintr s MAX_BUFF t h
  · exact (K.read_bytes s MAX_BUFF _ t h).2 (List.cons_ne_nil b bs)

/-- `readn(int, std::string&)`. -/
def readnString (s : σ) (inBuffer : List UInt8) : StringReadReturn σ :=
  readnStringLoop K s 0 inBuffer

/-- `readn(int, std::string&, bool&)`, with the flag `zero` after it. -/
def readnStringZero (s : σ) (inBuffer : List UInt8) (zero : Bool) :
    StringReadReturn σ × Bool :=
  let read := readnStringLoop K s 0 inBuffer
  (read, if read.eof then true else zero)

/-- How the loop that writes a string ends: with an error other than `EINTR` and
`EAGAIN`, or with the number of bytes written. -/
structure StringWriteLoop (σ : Type*) where
  failed : Bool
  writeSum : ℤ
  kernel : σ

def writenStringLoop (s : σ) (ptr : List UInt8) (writeSum : ℤ) : StringWriteLoop σ :=
  if _hptr : ptr = [] then ⟨false, writeSum, s⟩
  else
    match _hwrite : K.write s ptr with
    | (.error .EINTR, t) => writenStringLoop t ptr writeSum
    | (.error .EAGAIN, t) => ⟨false, writeSum, t⟩
    | (.error .other, t) => ⟨true, writeSum, t⟩
    | (.accepted k, t) => writenStringLoop t (ptr.drop k) (writeSum + k)
termination_by K.budget s + ptr.length
decreasing_by
  · exact Nat.add_lt_add_right (K.write_eintr s ptr t _hwrite) _
  · rw [List.length_drop]
    exact (K.write_accepted s ptr k t _hptr _hwrite).2

/-- What `writen` of a string returns, and the string after it. -/
structure StringWriteReturn (σ : Type*) where
  result : ℤ
  sbuff : List UInt8
  kernel : σ

/-- `static_cast<int>(size)`. -/
def castInt (size : ℕ) : ℤ := (size : ℤ).bmod (2 ^ 32)

/-- `writen(int, std::string&)`. -/
def writenString (s : σ) (sbuff : List UInt8) : StringWriteReturn σ :=
  let loop := writenStringLoop K s sbuff 0
  if loop.failed then ⟨-1, sbuff, loop.kernel⟩
  else if loop.writeSum = castInt sbuff.length then ⟨loop.writeSum, [], loop.kernel⟩
  else ⟨loop.writeSum, sbuff.drop loop.writeSum.toNat, loop.kernel⟩

variable {K} {s t : σ} {readSum writeSum : ℤ} {stored ptr : List UInt8} {n : ℕ}

theorem readnLoop_zero : readnLoop K s 0 readSum stored = ⟨readSum, stored, s⟩ := by
  rw [readnLoop, if_pos rfl]

theorem readnLoop_eintr (hn : n ≠ 0) (h : K.read s n = (.error .EINTR, t)) :
    readnLoop K s n readSum stored = readnLoop K t n readSum stored := by
  rw [readnLoop, if_neg hn]
  split <;> simp_all

theorem readnLoop_eagain (hn : n ≠ 0) (h : K.read s n = (.error .EAGAIN, t)) :
    readnLoop K s n readSum stored = ⟨readSum, stored, t⟩ := by
  rw [readnLoop, if_neg hn]
  split <;> simp_all

theorem readnLoop_eof (hn : n ≠ 0) (h : K.read s n = (.bytes [], t)) :
    readnLoop K s n readSum stored = ⟨readSum, stored, t⟩ := by
  rw [readnLoop, if_neg hn]
  split <;> simp_all

theorem readnLoop_bytes {bs : List UInt8} (hn : n ≠ 0) (hbs : bs ≠ [])
    (h : K.read s n = (.bytes bs, t)) :
    readnLoop K s n readSum stored =
      readnLoop K t (n - bs.length) (readSum + bs.length) (stored ++ bs) := by
  rw [readnLoop, if_neg hn]
  split <;> simp_all

theorem writenLoop_nil : writenLoop K s [] writeSum = ⟨writeSum, s⟩ := by
  rw [writenLoop, dif_pos rfl]

theorem writenLoop_eintr (hptr : ptr ≠ []) (h : K.write s ptr = (.error .EINTR, t)) :
    writenLoop K s ptr writeSum = writenLoop K t ptr writeSum := by
  rw [writenLoop, dif_neg hptr]
  split <;> simp_all

theorem writenLoop_accepted {k : ℕ} (hptr : ptr ≠ []) (h : K.write s ptr = (.accepted k, t)) :
    writenLoop K s ptr writeSum = writenLoop K t (ptr.drop k) (writeSum + k) := by
  rw [writenLoop, dif_neg hptr]
  split <;> simp_all

theorem readnLoop_error (hn : n ≠ 0) (h : K.read s n = (.error .other, t)) :
    readnLoop K s n readSum stored = ⟨-1, stored, t⟩ := by
  rw [readnLoop, if_neg hn]
  split <;> simp_all

theorem readnStringLoop_eintr (h : K.read s MAX_BUFF = (.error .EINTR, t)) :
    readnStringLoop K s readSum stored = readnStringLoop K t readSum stored := by
  rw [readnStringLoop]
  split <;> simp_all

theorem readnStringLoop_eagain (h : K.read s MAX_BUFF = (.error .EAGAIN, t)) :
    readnStringLoop K s readSum stored = ⟨readSum, stored, false, t⟩ := by
  rw [readnStringLoop]
  split <;> simp_all

theorem readnStringLoop_error (h : K.read s MAX_BUFF = (.error .other, t)) :
    readnStringLoop K s readSum stored = ⟨-1, stored, false, t⟩ := by
  rw [readnStringLoop]
  split <;> simp_all

theorem readnStringLoop_eof (h : K.read s MAX_BUFF = (.bytes [], t)) :
    readnStringLoop K s readSum stored = ⟨readSum, stored, true, t⟩ := by
  rw [readnStringLoop]
  split <;> simp_all

theorem readnStringLoop_bytes {bs : List UInt8} (hbs : bs ≠ [])
    (h : K.read s MAX_BUFF = (.bytes bs, t)) :
    readnStringLoop K s readSum stored =
      readnStringLoop K t (readSum + bs.length) (stored ++ bs) := by
  rw [readnStringLoop]
  split <;> simp_all

theorem writenStringLoop_nil : writenStringLoop K s [] writeSum = ⟨false, writeSum, s⟩ := by
  rw [writenStringLoop, dif_pos rfl]

theorem writenStringLoop_eintr (hptr : ptr ≠ []) (h : K.write s ptr = (.error .EINTR, t)) :
    writenStringLoop K s ptr writeSum = writenStringLoop K t ptr writeSum := by
  rw [writenStringLoop, dif_neg hptr]
  split <;> simp_all

theorem writenStringLoop_eagain (hptr : ptr ≠ []) (h : K.write s ptr = (.error .EAGAIN, t)) :
    writenStringLoop K s ptr writeSum = ⟨false, writeSum, t⟩ := by
  rw [writenStringLoop, dif_neg hptr]
  split <;> simp_all

theorem writenStringLoop_error (hptr : ptr ≠ []) (h : K.write s ptr = (.error .other, t)) :
    writenStringLoop K s ptr writeSum = ⟨true, writeSum, t⟩ := by
  rw [writenStringLoop, dif_neg hptr]
  split <;> simp_all

theorem writenStringLoop_accepted {k : ℕ} (hptr : ptr ≠ [])
    (h : K.write s ptr = (.accepted k, t)) :
    writenStringLoop K s ptr writeSum =
      writenStringLoop K t (ptr.drop k) (writeSum + k) := by
  rw [writenStringLoop, dif_neg hptr]
  split <;> simp_all

end Net

end SoL
