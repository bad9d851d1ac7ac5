import SoL.Base.FixedBuffer

/-!
# String pieces

A `StringPiece` is a pointer and a length; here it is the bytes that it points to. The
comparisons are made with `memcmp` over the shorter length first, and they are the
lexicographic order of the bytes (`comparisons_iff`).
-/

namespace SoL

namespace Base

/-- `memcmp` of `n` bytes, which compares them as unsigned characters. -/
def memcmp : ℕ → List UInt8 → List UInt8 → ℤ
  | n + 1, a :: as, b :: bs => if a < b then -1 else if b < a then 1 else memcmp n as bs
  | _, _, _ => 0

structure StringPiece where
  bytes : List UInt8
  deriving DecidableEq

namespace StringPiece

def size (x : StringPiece) : ℕ := x.bytes.length

/-- `memcmp` over the shorter length. -/
def common (x y : StringPiece) : ℤ :=
  memcmp (if x.size < y.size then x.size else y.size) x.bytes y.bytes

/-- `operator==`. -/
def eq (x y : StringPiece) : Bool := x.size == y.size && memcmp x.size x.bytes y.bytes == 0

/-- `STRINGPIECE_BINARY_PREDICATE`. -/
def binaryPredicate (cmp : ℕ → ℕ → Bool) (auxcmp : ℤ → ℤ → Bool) (x y : StringPiece) : Bool :=
  let r := common x y
  auxcmp r 0 || (r == 0 && cmp x.size y.size)

def lt : StringPiece → StringPiece → Bool := binaryPredicate (· < ·) (· < ·)
def le : StringPiece → StringPiece → Bool := binaryPredicate (· ≤ ·) (· < ·)
def ge : StringPiece → StringPiece → Bool := binaryPredicate (· ≥ ·) (· > ·)
def gt : StringPiece → StringPiece → Bool := binaryPredicate (· > ·) (· > ·)

def compare (x y : StringPiece) : ℤ :=
  let r := common x y
  if r = 0 then
    if x.size < y.size then -1
    else if x.size > y.size then 1
    else r
  else r

def startsWith (x y : StringPiece) : Bool :=
  x.size ≥ y.size && memcmp y.size x.bytes y.bytes == 0

theorem byte_trichotomy (a b : UInt8) : a < b ∨ a = b ∨ b < a := by
  rw [UInt8.lt_iff_toNat_lt, UInt8.lt_iff_toNat_lt, ← UInt8.toNat_inj]
  exact lt_trichotomy a.toNat b.toNat

theorem memcmp_comm (n : ℕ) (as bs : List UInt8) : memcmp n bs as = -memcmp n as bs := by
  induction n generalizing as bs with
  | zero => rfl
  | succ n ih =>
      cases as with
      | nil => cases bs <;> rfl
      | cons a as =>
          cases bs with
          | nil => rfl
          | cons b bs =>
              simp only [memcmp]
              obtain hlt | heq | hgt := byte_trichotomy a b
              · rw [if_pos hlt, if_neg (UInt8.lt_asymm hlt), if_pos hlt]
                rfl
              · subst heq
                simp only [UInt8.lt_irrefl, if_false]
                exact ih as bs
              · rw [if_pos hgt, if_neg (UInt8.lt_asymm hgt), if_pos hgt]

/-- The bytes that are compared are equal. -/
theorem memcmp_eq_zero_iff {n : ℕ} {as bs : List UInt8} (has : n ≤ as.length)
    (hbs : n ≤ bs.length) : memcmp n as bs = 0 ↔ as.take n = bs.take n := by
  induction n generalizing as bs with
  | zero => simp [memcmp]
  | succ n ih =>
      match as, bs, has, hbs with
      | a :: as, b :: bs, has, hbs =>
          simp only [memcmp, List.take_succ_cons, List.cons.injEq]
          obtain hlt | heq | hgt := byte_trichotomy a b
          · simp [hlt, UInt8.ne_of_lt hlt]
          · subst heq
            simp only [UInt8.lt_irrefl, if_false, true_and]
            exact ih (Nat.le_of_succ_le_succ has) (Nat.le_of_succ_le_succ hbs)
          · simp [hgt, UInt8.lt_asymm hgt, (UInt8.ne_of_lt hgt).symm]

theorem memcmp_lt_iff (as bs : List UInt8) :
    (memcmp (min as.length bs.length) as bs < 0 ∨
      memcmp (min as.length bs.length) as bs = 0 ∧ as.length < bs.length) ↔ as < bs := by
  induction as generalizing bs with
  | nil =>
      cases bs with
      | nil => simp [memcmp]
      | cons b bs => simp [memcmp]
  | cons a as ih =>
      cases bs with
      | nil => simp [memcmp]
      | cons b bs =>
          rw [List.length_cons, List.length_cons, Nat.succ_min_succ, List.cons_lt_cons_iff]
          simp only [memcmp]
          obtain hlt | heq | hgt := byte_trichotomy a b
          · simp [hlt]
          · subst heq
            simpa [UInt8.lt_irrefl] using ih bs
          · simp [hgt, UInt8.lt_asymm hgt, (UInt8.ne_of_lt hgt).symm]

variable (x y : StringPiece)

theorem take_size : x.bytes.take x.size = x.bytes := List.take_length

theorem common_eq : common x y = memcmp (min x.size y.size) x.bytes y.bytes := by
  rw [common, min_def]
  split <;> split <;> first | rfl | (congr 1; omega)

theorem common_comm : common y x = -common x y := by
  rw [common_eq, common_eq, min_comm, memcmp_comm]

theorem lex_iff : (common x y < 0 ∨ common x y = 0 ∧ x.size < y.size) ↔ x.bytes < y.bytes := by
  rw [common_eq]
  exact memcmp_lt_iff x.bytes y.bytes

theorem lex_comm_iff : (0 < common x y ∨ common x y = 0 ∧ y.size < x.size) ↔
    y.bytes < x.bytes := by
  rw [← lex_iff, common_comm x y, Left.neg_neg_iff, neg_eq_zero]

theorem lt_iff : lt x y = true ↔ x.bytes < y.bytes := by
  rw [← lex_iff]
  simp [lt, binaryPredicate]

theorem gt_iff : gt x y = true ↔ y.bytes < x.bytes := by
  rw [← lex_comm_iff]
  simp [gt, binaryPredicate]

theorem le_iff : le x y = true ↔ ¬ y.bytes < x.bytes := by
  rw [← lex_comm_iff]
  simp only [le, binaryPredicate, Bool.or_eq_true, Bool.and_eq_true, decide_eq_true_eq, beq_iff_eq]
  omega

theorem ge_iff : ge x y = true ↔ ¬ x.bytes < y.bytes := by
  rw [← lex_iff]
  simp only [ge, binaryPredicate, Bool.or_eq_true, Bool.and_eq_true, decide_eq_true_eq, beq_iff_eq]
  omega

theorem common_eq_zero_iff (hsize : x.size = y.size) : common x y = 0 ↔ x = y := by
  rw [common_eq, hsize, min_self, memcmp_eq_zero_iff hsize.ge le_rfl,
    List.take_of_length_le hsize.le, take_size]
  cases x
  cases y
  simp

theorem eq_iff : eq x y = true ↔ x = y := by
  simp only [eq, Bool.and_eq_true, beq_iff_eq]
  constructor
  · rintro ⟨hsize, hzero⟩
    rw [← common_eq_zero_iff x y hsize, common_eq, ← hsize, min_self]
    exact hzero
  · rintro rfl
    exact ⟨rfl, (memcmp_eq_zero_iff le_rfl le_rfl).2 rfl⟩

theorem compare_neg_iff : compare x y < 0 ↔ x.bytes < y.bytes := by
  rw [← lex_iff, compare]
  split_ifs <;> omega

theorem compare_pos_iff : 0 < compare x y ↔ y.bytes < x.bytes := by
  rw [← lex_comm_iff, compare]
  split_ifs <;> omega

theorem compare_eq_zero_iff : compare x y = 0 ↔ x = y := by
  constructor
  · intro h
    have hneg : ¬ x.bytes < y.bytes := by
      rw [← compare_neg_iff, h]
      exact lt_irrefl 0
    have hpos : ¬ y.bytes < x.bytes := by
      rw [← compare_pos_iff, h]
      exact lt_irrefl 0
    rw [← lex_iff] at hneg
    rw [← lex_comm_iff] at hpos
    exact (common_eq_zero_iff x y (by omega)).1 (by omega)
  · rintro rfl
    have hzero := (common_eq_zero_iff x x rfl).2 rfl
    simp [compare, hzero]

theorem startsWith_iff : startsWith x y = true ↔ y.bytes <+: x.bytes := by
  simp only [startsWith, Bool.and_eq_true, decide_eq_true_eq, beq_iff_eq]
  constructor
  · rintro ⟨hsize, hzero⟩
    have htake := (memcmp_eq_zero_iff hsize le_rfl).1 hzero
    rw [take_size] at htake
    rw [← htake]
    exact List.take_prefix _ _
  · intro h
    refine ⟨h.length_le, (memcmp_eq_zero_iff h.length_le le_rfl).2 ?_⟩
    rw [List.take_length]
    exact (List.prefix_iff_eq_take.1 h).symm

/-- Every comparison is that of the lexicographic order of the bytes. -/
theorem comparisons_iff :
    (lt x y = true ↔ x.bytes < y.bytes) ∧ (gt x y = true ↔ y.bytes < x.bytes) ∧
    (le x y = true ↔ ¬ y.bytes < x.bytes) ∧ (ge x y = true ↔ ¬ x.bytes < y.bytes) ∧
    (compare x y < 0 ↔ x.bytes < y.bytes) ∧ (0 < compare x y ↔ y.bytes < x.bytes) ∧
    (compare x y = 0 ↔ x = y) ∧ (eq x y = true ↔ x = y) ∧
    (startsWith x y = true ↔ y.bytes <+: x.bytes) :=
  ⟨lt_iff x y, gt_iff x y, le_iff x y, ge_iff x y, compare_neg_iff x y, compare_pos_iff x y,
    compare_eq_zero_iff x y, eq_iff x y, startsWith_iff x y⟩

end StringPiece

end Base

end SoL
