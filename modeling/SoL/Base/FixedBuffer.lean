import Mathlib.Tactic

/-!
# The fixed-size buffer of the log stream

`FixedBuffer size` is an array of `size` bytes with a write position. `reset`
moves the position back and leaves the bytes where they are, so a recycled
buffer still holds the text of its last use behind the position; what a reader
may see is `content`, the bytes before the position. The two fields that state
the shape make a position outside the array unbuildable.
-/

namespace SoL

namespace Base

/-- `detail::kSmallBuffer`, the size of a `LogStream` buffer. -/
def kSmallBuffer : ℕ := 4000

/-- `detail::kLargeBuffer`, the size of an `AsyncLogging` buffer. -/
def kLargeBuffer : ℕ := 4000 * 1000

/-- `detail::FixedBuffer<SIZE>`: the array `data_` and the offset of `cur_` in
it. -/
structure FixedBuffer (size : ℕ) where
  data : List UInt8
  cur : ℕ
  length_data : data.length = size
  cur_le : cur ≤ size

namespace FixedBuffer

variable {size : ℕ}

/-- A buffer just constructed and cleared by `bzero`. -/
def new (size : ℕ) : FixedBuffer size where
  data := List.replicate size 0
  cur := 0
  length_data := List.length_replicate
  cur_le := Nat.zero_le size

/-- `length()`. -/
def length (b : FixedBuffer size) : ℕ := b.cur

/-- `avail()`. -/
def avail (b : FixedBuffer size) : ℕ := size - b.cur

/-- `toString()`: the bytes `data()[0 .. length())`. -/
def content (b : FixedBuffer size) : List UInt8 := b.data.take b.cur

/-- `memcpy(cur_, buf, n)` followed by `cur_ += n`, for an `n` that fits. -/
def memcpy (b : FixedBuffer size) (buf : List UInt8) (n : ℕ)
    (hbuf : n ≤ buf.length) (hfit : b.cur + n ≤ size) : FixedBuffer size where
  data := b.data.take b.cur ++ (buf.take n ++ b.data.drop (b.cur + n))
  cur := b.cur + n
  length_data := by
    have hlen := b.length_data
    simp only [List.length_append, List.length_take, List.length_drop]
    omega
  cur_le := hfit

/-- `append(buf, len)`: the whole text when it leaves at least one byte free,
otherwise as much of it as there is room for. -/
def append (b : FixedBuffer size) (buf : List UInt8) : FixedBuffer size :=
  if h : buf.length < b.avail then
    b.memcpy buf buf.length le_rfl (by have := b.cur_le; simp only [avail] at h; omega)
  else
    b.memcpy buf b.avail (by omega) (by have := b.cur_le; simp only [avail]; omega)

/-- `reset()`. -/
def reset (b : FixedBuffer size) : FixedBuffer size where
  data := b.data
  cur := 0
  length_data := b.length_data
  cur_le := Nat.zero_le size

@[simp] theorem content_reset (b : FixedBuffer size) : b.reset.content = [] := rfl

theorem length_content (b : FixedBuffer size) : b.content.length = b.length := by
  have hlen := b.length_data
  have hcur := b.cur_le
  simp only [content, length, List.length_take]
  omega

theorem content_memcpy (b : FixedBuffer size) (buf : List UInt8) (n : ℕ)
    (hbuf : n ≤ buf.length) (hfit : b.cur + n ≤ size) :
    (b.memcpy buf n hbuf hfit).content = b.content ++ buf.take n := by
  have hlen := b.length_data
  have hcur := b.cur_le
  have htake : (b.data.take b.cur).length = b.cur := by
    rw [List.length_take]
    omega
  have hn : (buf.take n).length = n := by
    rw [List.length_take]
    omega
  simp only [content, memcpy]
  rw [List.take_append, htake, List.take_of_length_le (by omega),
    Nat.add_sub_cancel_left, List.take_append, hn, Nat.sub_self, List.take_zero,
    List.append_nil, List.take_of_length_le (le_of_eq hn)]

/-- A text that leaves room is appended as it is, whatever stale bytes stand
behind the position. -/
theorem content_append_of_lt (b : FixedBuffer size) (buf : List UInt8)
    (h : buf.length < b.avail) : (b.append buf).content = b.content ++ buf := by
  rw [append, dif_pos h, content_memcpy, List.take_length]

/-- The general form: what does not fit is cut off. -/
theorem content_append (b : FixedBuffer size) (buf : List UInt8) :
    (b.append buf).content = b.content ++ buf.take b.avail := by
  by_cases h : buf.length < b.avail
  · rw [content_append_of_lt b buf h, List.take_of_length_le (le_of_lt h)]
  · rw [append, dif_neg h, content_memcpy]

theorem content_eq_nil_iff (b : FixedBuffer size) :
    b.content = [] ↔ b.length = 0 := by
  rw [← List.length_eq_zero_iff, length_content]

end FixedBuffer

end Base

end SoL
