import Mathlib.Tactic

/-!
# Writes into a region of memory

A region is a list, and `write` stores a list at an offset, which a pointer
difference makes an integer. A write of which any part lies outside the region
fails. A write inside it is a `splice`, and the lemmas are about these: two
adjacent ones make one, a second one takes the place of what it covers of the
first, and what lies before the offset stays.
-/

namespace Memory

variable {α : Type*} {mem xs ys zs : List α} {k : ℕ}

/-- The region with `xs` at the offset `k`. -/
def splice (mem : List α) (k : ℕ) (xs : List α) : List α :=
  mem.take k ++ (xs ++ mem.drop (k + xs.length))

/-- Store `xs` at an offset; `none` if it does not lie inside. -/
def write (mem : List α) (offset : ℤ) (xs : List α) : Option (List α) :=
  if 0 ≤ offset ∧ offset + xs.length ≤ mem.length then some (splice mem offset.toNat xs)
  else none

/-- `std::reverse` of the elements from `first` up to `last`. -/
def reverse (mem : List α) (first last : ℤ) : Option (List α) :=
  write mem first ((mem.drop first.toNat).take (last - first).toNat).reverse

theorem write_eq_some (h : k + xs.length ≤ mem.length) :
    write mem k xs = some (splice mem k xs) := by
  have hinside : (0 : ℤ) ≤ k ∧ (k : ℤ) + xs.length ≤ mem.length := by omega
  rw [write, if_pos hinside, Int.toNat_natCast]

theorem length_splice (h : k + xs.length ≤ mem.length) :
    (splice mem k xs).length = mem.length := by
  simp only [splice, List.length_append, List.length_take, List.length_drop]
  omega

/-- What lies before the end of the first part of a write. -/
theorem take_splice_append (h : k ≤ mem.length) :
    (splice mem k (xs ++ ys)).take (k + xs.length) = mem.take k ++ xs := by
  have htake : (mem.take k).length = k := List.length_take_of_le h
  rw [splice, List.append_assoc, ← List.append_assoc,
    List.take_append_of_le_length (by simp [htake]), List.take_of_length_le (by simp [htake])]

theorem take_splice (h : k ≤ mem.length) :
    (splice mem k xs).take (k + xs.length) = mem.take k ++ xs := by
  simpa using @take_splice_append _ mem xs [] k h

theorem drop_splice (h : k + xs.length ≤ mem.length) :
    (splice mem k xs).drop (k + xs.length) = mem.drop (k + xs.length) := by
  have htake : (mem.take k).length = k := by
    rw [List.length_take]
    omega
  rw [splice, ← List.append_assoc, List.drop_append_of_le_length (by simp [htake]),
    List.drop_eq_nil_of_le (by simp [htake]), List.nil_append]

/-- Two adjacent writes. -/
theorem splice_append (h : k + xs.length + ys.length ≤ mem.length) :
    splice (splice mem k xs) (k + xs.length) ys = splice mem k (xs ++ ys) := by
  have hxs : k + xs.length ≤ mem.length := by omega
  rw [splice, take_splice (by omega), ← List.drop_drop, drop_splice hxs, List.drop_drop, splice,
    List.length_append, List.append_assoc, List.append_assoc, Nat.add_assoc]

theorem write_append (h : k + xs.length + ys.length ≤ mem.length) :
    write (splice mem k xs) ((k + xs.length : ℕ) : ℤ) ys = some (splice mem k (xs ++ ys)) := by
  have hlen : (splice mem k xs).length = mem.length := length_splice (by omega)
  rw [write_eq_some (by omega), splice_append h]

/-- A write over the beginning of another one. -/
theorem splice_overwrite (h : k + (xs ++ zs).length ≤ mem.length) (hys : ys.length = xs.length) :
    splice (splice mem k (xs ++ zs)) k ys = splice mem k (ys ++ zs) := by
  have hk : (mem.take k).length = k := by
    rw [List.length_take]
    omega
  have htake : (splice mem k (xs ++ zs)).take k = mem.take k := by
    rw [splice, List.take_append_of_le_length hk.ge, List.take_of_length_le hk.le]
  have hdrop : (splice mem k (xs ++ zs)).drop (k + xs.length) =
      zs ++ mem.drop (k + (xs ++ zs).length) := by
    rw [splice, ← List.drop_drop, List.drop_append_of_le_length hk.ge,
      List.drop_eq_nil_of_le hk.le, List.nil_append, List.append_assoc, List.drop_left]
  have hlen : (ys ++ zs).length = (xs ++ zs).length := by
    rw [List.length_append, List.length_append, hys]
  rw [splice, htake, hys, hdrop, splice, hlen, List.append_assoc]

/-- The part of a write from its beginning. -/
theorem drop_take_splice (h : k + (xs ++ ys).length ≤ mem.length) :
    ((splice mem k (xs ++ ys)).drop k).take xs.length = xs := by
  have htake : (mem.take k).length = k := by
    rw [List.length_take, List.length_append] at *
    omega
  rw [splice, List.drop_append_of_le_length (by rw [htake]),
    List.drop_eq_nil_of_le (by rw [htake]), List.nil_append, List.append_assoc,
    List.take_append_of_le_length le_rfl, List.take_length]

end Memory
