import SoL.Base.LogStream.Stream

/-!
# The numerals are canonical

`parseDecimal` and `parseHex` read a numeral from the left. The numerals that
`convert` and `convertHex` write are read back as the number, carry a sign only
when it is negative and begin with a zero only when they are `0`, so there is no
other numeral of the number (`convert_canonical`).
-/

namespace SoL

namespace Base

namespace LogStream

open Memory

/-- The value of a decimal digit. -/
def decimalValue (c : UInt8) : Option ℕ := if 48 ≤ c ∧ c ≤ 57 then some (c.toNat - 48) else none

/-- The value of a hexadecimal digit in capitals. -/
def hexValue (c : UInt8) : Option ℕ :=
  if 48 ≤ c ∧ c ≤ 57 then some (c.toNat - 48)
  else if 65 ≤ c ∧ c ≤ 70 then some (c.toNat - 55)
  else none

/-- The number so far, and the digits that are left. -/
def readDigits (b : ℕ) (value : UInt8 → Option ℕ) : ℕ → List UInt8 → Option ℕ
  | n, [] => some n
  | n, c :: s => (value c).bind fun d => readDigits b value (n * b + d) s

/-- A numeral without sign has a digit. -/
def parseDigits (b : ℕ) (value : UInt8 → Option ℕ) (s : List UInt8) : Option ℕ :=
  if s = [] then none else readDigits b value 0 s

def parseHex : List UInt8 → Option ℕ := parseDigits 16 hexValue

def minus : UInt8 := 45

def parseDecimal : List UInt8 → Option ℤ
  | [] => none
  | c :: s =>
      if c = minus then (parseDigits 10 decimalValue s).map fun n : ℕ => -(n : ℤ)
      else (parseDigits 10 decimalValue (c :: s)).map fun n : ℕ => (n : ℤ)

/-- A zero in front stands alone. -/
def noLeadingZero (s : List UInt8) : Prop := s.head? = some 48 → s = [48]

/-- The canonical decimal numeral of an integer. -/
structure IsDecimal (s : List UInt8) (v : ℤ) : Prop where
  parse : parseDecimal s = some v
  sign : s.head? = some minus ↔ v < 0
  leading : noLeadingZero (if v < 0 then s.tail else s)

/-- The canonical hexadecimal numeral of a number. -/
structure IsHex (s : List UInt8) (n : ℕ) : Prop where
  parse : parseHex s = some n
  leading : noLeadingZero s

section

variable {b : ℕ} {value : UInt8 → Option ℕ} {digit : ℕ → UInt8}

theorem readDigits_append (n : ℕ) (s : List UInt8) (c : UInt8) :
    readDigits b value n (s ++ [c]) =
      (readDigits b value n s).bind fun m => (value c).map fun d => m * b + d := by
  induction s generalizing n with
  | nil =>
      cases hc : value c with
      | none => simp [readDigits, hc]
      | some d => simp [readDigits, hc]
  | cons a s ih =>
      cases ha : value a with
      | none => simp [readDigits, ha]
      | some d => simp [readDigits, ha, ih]

/-- Digits written from the last to the first and turned around are read back. -/
theorem readDigits_reverse (hvalue : ∀ d < b, value (digit d) = some d) {ds : List ℕ}
    (hds : ∀ d ∈ ds, d < b) :
    readDigits b value 0 (ds.map digit).reverse = some (Nat.ofDigits b ds) := by
  induction ds with
  | nil => rfl
  | cons d ds ih =>
      have hrest := ih fun x hx => hds x (List.mem_cons_of_mem d hx)
      rw [List.map_cons, List.reverse_cons, readDigits_append, hrest, Option.bind_some,
        hvalue d (hds d List.mem_cons_self), Option.map_some, Nat.ofDigits_cons]
      congr 1
      ring

theorem lowDigits_ne_nil (b : ℕ) (digit : ℕ → UInt8) (n : ℕ) : lowDigits b digit n ≠ [] := by
  unfold lowDigits
  split
  · simp
  · rename_i hn
    simpa [Nat.digits_eq_nil_iff_eq_zero] using hn

theorem parseDigits_lowDigits (hb : 2 ≤ b) (hvalue : ∀ d < b, value (digit d) = some d) (n : ℕ) :
    parseDigits b value (lowDigits b digit n).reverse = some n := by
  rw [parseDigits, if_neg (by simpa using lowDigits_ne_nil b digit n)]
  unfold lowDigits
  split
  · rename_i hn
    subst hn
    simp [readDigits, hvalue 0 (by omega)]
  · rw [readDigits_reverse hvalue fun d hd => Nat.digits_lt_base hb hd, Nat.ofDigits_digits]

theorem noLeadingZero_lowDigits (hb : 2 ≤ b) (hzero : ∀ d < b, digit d = 48 → d = 0)
    (hdigit : digit 0 = 48) (n : ℕ) : noLeadingZero (lowDigits b digit n).reverse := by
  intro hhead
  unfold lowDigits at hhead ⊢
  split at hhead
  · rename_i hn
    simp [hdigit, hn]
  · rename_i hn
    exfalso
    have hne : b.digits n ≠ [] := Nat.digits_ne_nil_iff_ne_zero.2 hn
    rw [List.head?_reverse, List.getLast?_map, List.getLast?_eq_getLast_of_ne_nil hne,
      Option.map_some, Option.some.injEq] at hhead
    have hlt : (b.digits n).getLast hne < b := Nat.digits_lt_base hb (List.getLast_mem hne)
    exact Nat.getLast_digit_ne_zero b hn (hzero _ hlt hhead)

end

/-- Digits are not the sign. -/
theorem head_lowDigits_ne (n : ℕ) :
    (lowDigits 10 decimalDigit n).reverse.head? ≠ some minus := by
  have hdigit : ∀ d < 10, decimalDigit d ≠ minus := by decide
  intro hhead
  have hmem := List.mem_reverse.1 (List.mem_of_mem_head? hhead)
  unfold lowDigits at hmem
  split at hmem
  · exact hdigit 0 (by decide) (List.mem_singleton.1 hmem).symm
  · obtain ⟨d, hd, hminus⟩ := List.mem_map.1 hmem
    exact hdigit d (Nat.digits_lt_base (by decide) hd) hminus

theorem isDecimal_numeral (v : ℤ) : IsDecimal (numeral v) v := by
  have hvalue : ∀ d < 10, decimalValue (decimalDigit d) = some d := by decide
  have hzero : ∀ d < 10, decimalDigit d = 48 → d = 0 := by decide
  have hparse := parseDigits_lowDigits (by decide) hvalue v.natAbs
  have hleading := noLeadingZero_lowDigits (by decide) hzero (by decide) v.natAbs
  have hhead := head_lowDigits_ne v.natAbs
  have hne : (lowDigits 10 decimalDigit v.natAbs).reverse ≠ [] := by
    simpa using lowDigits_ne_nil 10 decimalDigit v.natAbs
  unfold numeral
  generalize (lowDigits 10 decimalDigit v.natAbs).reverse = ds at *
  by_cases hneg : v < 0
  · have hsign : chars "-" = [minus] := by decide
    rw [if_pos hneg, hsign]
    refine ⟨?_, iff_of_true rfl hneg, by rw [if_pos hneg]; exact hleading⟩
    rw [List.singleton_append, parseDecimal, if_pos rfl, hparse, Option.map_some]
    congr 1
    omega
  · rw [if_neg hneg, List.nil_append]
    refine ⟨?_, iff_of_false hhead hneg, by rw [if_neg hneg]; exact hleading⟩
    obtain ⟨c, s, rfl⟩ := List.exists_cons_of_ne_nil hne
    have hc : c ≠ minus := fun h => hhead (by rw [h]; rfl)
    rw [parseDecimal, if_neg hc, hparse, Option.map_some]
    congr 1
    omega

theorem isHex_hexNumeral (n : ℕ) : IsHex (hexNumeral n) n :=
  ⟨parseDigits_lowDigits (by decide) (by decide) n,
    noLeadingZero_lowDigits (by decide) (by decide) (by decide) n⟩

/-- `convert` writes the canonical numeral of every value of an integer type with a NUL
behind it and returns its length, and `convertHex` that of every pointer. The room
that is tested for is enough. -/
theorem convert_canonical (δ : Type) :
    (∀ (v : Value δ) (n : ℤ), v.integer = some n →
      IsDecimal (numeral n) n ∧ (numeral n).length < kMaxNumericSize ∧
      ∀ (data : List UInt8) (k : ℕ), k + (numeral n).length + 1 ≤ data.length →
        convert data k n =
          some (splice data k (numeral n ++ [0]), ((numeral n).length : ℤ))) ∧
    ∀ v : UInt64, IsHex (hexNumeral v.toNat) v.toNat ∧
      2 + (hexNumeral v.toNat).length < kMaxNumericSize ∧
      ∀ (data : List UInt8) (k : ℕ), k + (hexNumeral v.toNat).length + 1 ≤ data.length →
        convertHex data k v =
          some (splice data k (hexNumeral v.toNat ++ [0]), ((hexNumeral v.toNat).length : ℤ)) := by
  constructor
  · intro v n hn
    have hrange := integer_range hn
    exact ⟨isDecimal_numeral n, (length_numeral_le hrange.1 hrange.2).trans_lt (by decide),
      fun data k hroom => convert_eq hroom⟩
  · intro v
    have hlength := length_hexNumeral_le v
    have hsize : kMaxNumericSize = 32 := rfl
    exact ⟨isHex_hexNumeral v.toNat, by omega, fun data k hroom => convertHex_eq hroom⟩

/-- The smallest `long` and the largest pointer, in 32 bytes. -/
theorem convert_canonical_minValue :
    (∃ s, IsDecimal s (-2 ^ 63) ∧ convert (List.replicate 32 0) 0 (-2 ^ 63) =
      some (splice (List.replicate 32 0) 0 (s ++ [0]), (s.length : ℤ))) ∧
    ∃ s, IsHex s (2 ^ 64 - 1) ∧ convertHex (List.replicate 32 0) 0 18446744073709551615 =
      some (splice (List.replicate 32 0) 0 (s ++ [0]), (s.length : ℤ)) := by
  have hsize : kMaxNumericSize = 32 := rfl
  constructor
  · obtain ⟨hdecimal, hlength, hconvert⟩ :=
      (convert_canonical Unit).1 (.long Int64.minValue) (-2 ^ 63) (by decide)
    exact ⟨_, hdecimal, hconvert _ 0 (by rw [List.length_replicate]; omega)⟩
  · obtain ⟨hhex, hlength, hconvert⟩ := (convert_canonical Unit).2 18446744073709551615
    exact ⟨_, hhex, hconvert _ 0 (by rw [List.length_replicate]; omega)⟩

end LogStream

end Base

end SoL
