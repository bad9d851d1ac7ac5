import Mathlib.Tactic

/-!
# Expressions of type `int`

A `CInt` is what an expression of a 32-bit signed integer type evaluates to: a
value, or nothing once an operation has overflowed or divided by zero. The
operations are the usual ones, so an expression is written here as it is in the
source. Division truncates.

The rewriting rules take an expression to its value. Their side conditions are
bounds, which `omega` can discharge from bounds on the variables.
-/

namespace Arithmetic

inductive CInt
  | value (n : ℤ)
  | overflow
  deriving DecidableEq

namespace CInt

/-- The values of the type. -/
def inRange (n : ℤ) : Prop := -2147483648 ≤ n ∧ n < 2147483648

instance (n : ℤ) : Decidable (inRange n) :=
  inferInstanceAs (Decidable (-2147483648 ≤ n ∧ n < 2147483648))

/-- The result of an operation, when it can be represented. -/
def checked (n : ℤ) : CInt := if inRange n then value n else overflow

/-- An operation on two operands. -/
def map₂ (f : ℤ → ℤ → CInt) : CInt → CInt → CInt
  | value a, value b => f a b
  | _, _ => overflow

instance (n : ℕ) : OfNat CInt n := ⟨value n⟩

instance : Coe ℤ CInt := ⟨value⟩

instance : Add CInt := ⟨map₂ fun a b => checked (a + b)⟩

instance : Sub CInt := ⟨map₂ fun a b => checked (a - b)⟩

instance : Mul CInt := ⟨map₂ fun a b => checked (a * b)⟩

instance : Div CInt := ⟨map₂ fun a b => if b = 0 then overflow else checked (a.tdiv b)⟩

/-- The remainder is defined where the quotient is. -/
instance : Mod CInt :=
  ⟨map₂ fun a b => if b = 0 ∨ ¬ inRange (a.tdiv b) then overflow else value (a.tmod b)⟩

/-- `static_cast<int>` of a wider integer. -/
def cast (n : ℤ) : CInt := value (n.bmod (2 ^ 32))

variable {a b : ℤ}

theorem checked_of_inRange (hlow : -2147483648 ≤ a) (hhigh : a < 2147483648) :
    checked a = value a := if_pos ⟨hlow, hhigh⟩

theorem checked_eq_or (a : ℤ) : checked a = value a ∨ checked a = overflow := by
  unfold checked
  split
  · exact .inl rfl
  · exact .inr rfl

theorem checked_eq_overflow (h : 2147483648 ≤ a) : checked a = overflow :=
  if_neg fun hrange => not_lt.2 h hrange.2

theorem ofNat_eq_value (n : ℕ) [n.AtLeastTwo] : (OfNat.ofNat n : CInt) = value (OfNat.ofNat n) :=
  rfl

theorem one_eq_value : (1 : CInt) = value 1 := rfl

theorem value_add (hlow : -2147483648 ≤ a + b) (hhigh : a + b < 2147483648) :
    value a + value b = value (a + b) := checked_of_inRange hlow hhigh

theorem value_add_one (hlow : -2147483648 ≤ a) (hhigh : a + 1 < 2147483648) :
    value a + 1 = value (a + 1) := checked_of_inRange (by omega) hhigh

theorem value_add_one_eq_overflow (h : 2147483648 ≤ a + 1) : value a + 1 = overflow :=
  checked_eq_overflow h

theorem value_sub (hlow : -2147483648 ≤ a - b) (hhigh : a - b < 2147483648) :
    value a - value b = value (a - b) := checked_of_inRange hlow hhigh

/-- A difference is the difference of the values, or has overflowed. -/
theorem value_sub_eq_or (a b : ℤ) :
    value a - value b = value (a - b) ∨ value a - value b = overflow := checked_eq_or (a - b)

theorem value_mul (hlow : -2147483648 ≤ a * b) (hhigh : a * b < 2147483648) :
    value a * value b = value (a * b) := checked_of_inRange hlow hhigh

theorem inRange_tdiv (hlow : 0 ≤ a) (hhigh : a < 2147483648) (hb : 0 < b) :
    inRange (a.tdiv b) := by
  have hnonneg : 0 ≤ a / b := Int.ediv_nonneg hlow hb.le
  have hle : a / b ≤ a := Int.ediv_le_self b hlow
  rw [Int.tdiv_eq_ediv_of_nonneg hlow]
  exact ⟨by omega, by omega⟩

/-- Without a sign the truncated quotient is the quotient. -/
theorem value_div (hlow : 0 ≤ a) (hhigh : a < 2147483648) (hb : 0 < b) :
    value a / value b = value (a / b) := by
  have hrange := inRange_tdiv hlow hhigh hb
  refine (if_neg hb.ne').trans ?_
  rw [checked_of_inRange hrange.1 hrange.2, Int.tdiv_eq_ediv_of_nonneg hlow]

theorem value_mod (hlow : 0 ≤ a) (hhigh : a < 2147483648) (hb : 0 < b) :
    value a % value b = value (a % b) := by
  have hdefined : ¬ (b = 0 ∨ ¬ inRange (a.tdiv b)) := by
    rintro (hzero | hrange)
    · exact hb.ne' hzero
    · exact hrange (inRange_tdiv hlow hhigh hb)
  refine (if_neg hdefined).trans ?_
  rw [Int.tmod_eq_emod_of_nonneg hlow]

theorem cast_eq_value (hlow : -2147483648 ≤ a) (hhigh : a < 2147483648) : cast a = value a := by
  have hmod : a.bmod (2 ^ 32) = a := Int.bmod_eq_of_le (by norm_num; omega) (by norm_num; omega)
  rw [cast, hmod]

end CInt

end Arithmetic
