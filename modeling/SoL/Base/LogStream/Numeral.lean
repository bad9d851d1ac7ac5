import SoL.Memory.Region

/-!
# Numerals

`convert` and `convertHex` store the digits of a number from the last to the
first, with one byte at a time and no look at the end of the buffer, then the
sign and the terminating NUL, and turn the digits around in place. What they
store is the numeral of the number and the NUL, if there is room for these
(`convert_eq`, `convertHex_eq`).

The type of the number is left out, since the quotients and remainders of a
number are in its type. The remainder of a negative number is negative or zero,
and the table of digits is read on both sides of its middle.
-/

namespace SoL

namespace Base

open Memory

/-- The bytes of a string literal. -/
def chars (s : String) : List UInt8 := s.toList.map fun c => c.toNat.toUInt8

namespace LogStream

def digits : List UInt8 := chars "9876543210123456789"

/-- `zero[lsd]`, with `zero = digits + 9`. -/
def zero (lsd : ℤ) : UInt8 := digits.getD (9 + lsd).toNat 0

/-- `digitsHex[lsd]`. -/
def digitsHex (lsd : ℤ) : UInt8 := (chars "0123456789ABCDEF").getD lsd.toNat 0

theorem natAbs_tdiv_lt {b i : ℤ} (hb : 2 ≤ b) (h : i.tdiv b ≠ 0) :
    (i.tdiv b).natAbs < i.natAbs := by
  rw [Int.natAbs_tdiv]
  refine Nat.div_lt_self (Int.natAbs_pos.2 ?_) (by omega)
  rintro rfl
  exact h (Int.zero_tdiv b)

/-- The loop of both functions: the digits of `i` to the base `b`, from `p` on. -/
def storeDigits (b : ℤ) (hb : 2 ≤ b) (glyph : ℤ → UInt8) (data : List UInt8) (p i : ℤ) :
    Option (List UInt8 × ℤ) :=
  match write data p [glyph (i.tmod b)] with
  | none => none
  | some data =>
      if _h : i.tdiv b = 0 then some (data, p + 1)
      else storeDigits b hb glyph data (p + 1) (i.tdiv b)
termination_by i.natAbs
decreasing_by exact natAbs_tdiv_lt hb _h

/-- The NUL at `p`, and the digits from `buf` to `p` turned around. -/
def terminate (data : List UInt8) (buf p : ℤ) : Option (List UInt8 × ℤ) := do
  let data ← write data p [0]
  let data ← reverse data buf p
  return (data, p - buf)

/-- `convert`: the bytes after it, and its result. -/
def convert (data : List UInt8) (buf value : ℤ) : Option (List UInt8 × ℤ) := do
  let (data, p) ← storeDigits 10 (by decide) zero data buf value
  if value < 0 then
    let data ← write data p (chars "-")
    terminate data buf (p + 1)
  else terminate data buf p

def convertHex (data : List UInt8) (buf : ℤ) (value : UInt64) : Option (List UInt8 × ℤ) := do
  let (data, p) ← storeDigits 16 (by decide) digitsHex data buf value.toNat
  terminate data buf p

/-- The digits of a number from the last to the first. -/
def lowDigits (b : ℕ) (glyph : ℕ → UInt8) (n : ℕ) : List UInt8 :=
  if n = 0 then [glyph 0] else (b.digits n).map glyph

def decimalDigit (d : ℕ) : UInt8 := 48 + d.toUInt8

def hexDigit (d : ℕ) : UInt8 := if d < 10 then 48 + d.toUInt8 else 55 + d.toUInt8

/-- The decimal numeral of an integer. -/
def numeral (v : ℤ) : List UInt8 :=
  (if v < 0 then chars "-" else []) ++ (lowDigits 10 decimalDigit v.natAbs).reverse

/-- The hexadecimal numeral of a number, in capitals. -/
def hexNumeral (n : ℕ) : List UInt8 := (lowDigits 16 hexDigit n).reverse

/-- The last digit, and the other ones if there are any. -/
theorem lowDigits_eq {b : ℕ} (hb : 2 ≤ b) (glyph : ℕ → UInt8) (n : ℕ) :
    lowDigits b glyph n =
      glyph (n % b) :: (if n / b = 0 then [] else lowDigits b glyph (n / b)) := by
  unfold lowDigits
  by_cases hn : n = 0
  · subst hn
    simp
  · rw [if_neg hn, Nat.digits_def' hb (Nat.pos_of_ne_zero hn), List.map_cons]
    by_cases hq : n / b = 0
    · simp [hq]
    · simp [hq]

theorem numeral_natCast (n : ℕ) : numeral n = (lowDigits 10 decimalDigit n).reverse := by
  have hsign : ¬ (n : ℤ) < 0 := not_lt.2 (Int.natCast_nonneg n)
  rw [numeral, if_neg hsign, List.nil_append, Int.natAbs_natCast]

/-- The last digit of a numeral, and the ones before. -/
theorem numeral_eq (n : ℕ) :
    numeral n = (if n / 10 = 0 then [] else numeral (n / 10 : ℕ)) ++ [decimalDigit (n % 10)] := by
  rw [numeral_natCast, lowDigits_eq (by decide), List.reverse_cons]
  split
  · rfl
  · rw [numeral_natCast]

/-- The loop stores the digits, whatever the sign of the number. -/
theorem storeDigits_eq {b : ℕ} (hb : (2 : ℤ) ≤ b) {glyph : ℤ → UInt8} {digit : ℕ → UInt8}
    {data : List UInt8} {k : ℕ} {i : ℤ}
    (hglyph : ∀ r : ℤ, (0 ≤ i → 0 ≤ r) → r.natAbs < b → glyph r = digit r.natAbs)
    (h : k + (lowDigits b digit i.natAbs).length ≤ data.length) :
    storeDigits b hb glyph data k i = some (splice data k (lowDigits b digit i.natAbs),
      ((k + (lowDigits b digit i.natAbs).length : ℕ) : ℤ)) := by
  have htwo : 2 ≤ b := by omega
  induction hn : i.natAbs using Nat.strong_induction_on generalizing data k i with
  | _ n ih =>
      subst hn
      have hdigit : glyph (i.tmod b) = digit (i.natAbs % b) := by
        rw [hglyph _ (fun hi => Int.tmod_nonneg _ hi)
          (by rw [Int.natAbs_tmod]; exact Nat.mod_lt _ (by omega)), Int.natAbs_tmod,
          Int.natAbs_natCast]
      have hquotient : (i.tdiv b).natAbs = i.natAbs / b := by
        rw [Int.natAbs_tdiv, Int.natAbs_natCast]
        rfl
      rw [lowDigits_eq htwo] at h ⊢
      rw [List.length_cons] at h
      rw [storeDigits, write_eq_some (by simp only [List.length_singleton]; omega), hdigit]
      by_cases hzero : i.tdiv b = 0
      · have hlast : i.natAbs / b = 0 := by
          rw [← hquotient, hzero]
          rfl
        simp only [hzero, hlast, dif_pos, if_pos, List.length_singleton, Nat.cast_add,
          Nat.cast_one]
      · have hmore : i.natAbs / b ≠ 0 := by
          rw [← hquotient]
          exact Int.natAbs_ne_zero.2 hzero
        rw [if_neg hmore] at h ⊢
        have hlen : (splice data k [digit (i.natAbs % b)]).length = data.length :=
          length_splice (by simp only [List.length_singleton]; omega)
        have hrest := @ih (i.tdiv b).natAbs (natAbs_tdiv_lt hb hzero)
          (splice data k [digit (i.natAbs % b)]) (k + 1) (i.tdiv b)
          (fun r hr => hglyph r fun hi => hr (Int.tdiv_nonneg hi (by omega)))
          (by rw [hlen, hquotient]; omega) rfl
        have hjoin : splice (splice data k [digit (i.natAbs % b)]) (k + 1)
            (lowDigits b digit (i.natAbs / b)) =
            splice data k (digit (i.natAbs % b) :: lowDigits b digit (i.natAbs / b)) :=
          @splice_append _ data [digit (i.natAbs % b)] _ k
            (by simp only [List.length_singleton]; omega)
        simp only [hzero, dite_false, ← Nat.cast_succ]
        rw [hrest, hquotient, hjoin, List.length_cons]
        congr 3
        omega

/-- The digits that have been stored are turned around in front of the NUL. -/
theorem terminate_eq (data ds : List UInt8) (k : ℕ) (h : k + ds.length + 1 ≤ data.length) :
    terminate (splice data k ds) k ((k + ds.length : ℕ) : ℤ) =
      some (splice data k (ds.reverse ++ [0]), (ds.length : ℤ)) := by
  have hnul : write (splice data k ds) ((k + ds.length : ℕ) : ℤ) [0] =
      some (splice data k (ds ++ [0])) := write_append (by simpa using h)
  have hwhole : k + (ds ++ [0]).length ≤ data.length := by simpa [Nat.add_assoc] using h
  have hpart : (((splice data k (ds ++ [0])).drop k).take ds.length) = ds :=
    drop_take_splice hwhole
  have hturn : splice (splice data k (ds ++ [0])) k ds.reverse =
      splice data k (ds.reverse ++ [0]) := splice_overwrite hwhole List.length_reverse
  simp only [terminate, reverse, hnul, Option.bind_eq_bind, Option.bind_some]
  rw [show (((k + ds.length : ℕ) : ℤ) - k).toNat = ds.length by omega, Int.toNat_natCast, hpart,
    write_eq_some (by rw [length_splice hwhole, List.length_reverse]; omega), hturn]
  simp

theorem zero_eq (r : ℤ) (h : r.natAbs < 10) : zero r = decimalDigit r.natAbs := by
  obtain ⟨hlow, hhigh⟩ : -9 ≤ r ∧ r ≤ 9 := by omega
  interval_cases r <;> decide

theorem digitsHex_eq (r : ℤ) (hr : 0 ≤ r) (h : r.natAbs < 16) :
    digitsHex r = hexDigit r.natAbs := by
  have hhigh : r ≤ 15 := by omega
  interval_cases r <;> decide

theorem convert_eq {data : List UInt8} {k : ℕ} {v : ℤ}
    (h : k + (numeral v).length + 1 ≤ data.length) :
    convert data k v =
      some (splice data k (numeral v ++ [0]), ((numeral v).length : ℤ)) := by
  set ds := lowDigits 10 decimalDigit v.natAbs with hds
  unfold numeral at h ⊢
  rw [← hds] at h ⊢
  rw [List.length_append, List.length_reverse] at h
  have hstore : storeDigits 10 (by decide) zero data k v =
      some (splice data k ds, ((k + ds.length : ℕ) : ℤ)) :=
    storeDigits_eq (by decide) (fun r _ => zero_eq r) (by rw [← hds]; omega)
  by_cases hneg : v < 0
  · rw [if_pos hneg] at h ⊢
    have hsign : (chars "-").length = 1 := by decide
    have hminus : write (splice data k ds) ((k + ds.length : ℕ) : ℤ) (chars "-") =
        some (splice data k (ds ++ chars "-")) := write_append (by omega)
    have hend := terminate_eq data (ds ++ chars "-") k (by rw [List.length_append]; omega)
    have hlast : ((k + ds.length : ℕ) : ℤ) + 1 = ((k + (ds ++ chars "-").length : ℕ) : ℤ) := by
      rw [List.length_append, hsign]
      push_cast
      ring
    simp only [convert, hstore, hminus, Option.bind_eq_bind, Option.bind_some, if_pos hneg]
    rw [hlast, hend, List.reverse_append]
    simp [chars, Nat.add_comm]
  · rw [if_neg hneg] at h ⊢
    have hend := terminate_eq data ds k (by simpa using h)
    simp only [convert, hstore, Option.bind_eq_bind, Option.bind_some, if_neg hneg]
    simpa using hend

theorem convertHex_eq {data : List UInt8} {k : ℕ} {v : UInt64}
    (h : k + (hexNumeral v.toNat).length + 1 ≤ data.length) :
    convertHex data k v =
      some (splice data k (hexNumeral v.toNat ++ [0]), ((hexNumeral v.toNat).length : ℤ)) := by
  set ds := lowDigits 16 hexDigit v.toNat with hds
  unfold hexNumeral at h ⊢
  rw [← hds, List.length_reverse] at h ⊢
  have hstore : storeDigits 16 (by decide) digitsHex data k (v.toNat : ℤ) =
      some (splice data k ds, ((k + ds.length : ℕ) : ℤ)) := by
    have hdigits : lowDigits 16 hexDigit (v.toNat : ℤ).natAbs = ds := by rw [Int.natAbs_natCast]
    have hroom : k + (lowDigits 16 hexDigit (v.toNat : ℤ).natAbs).length ≤ data.length := by
      rw [hdigits]
      omega
    rw [← hdigits]
    exact storeDigits_eq (by decide) (fun r hr => digitsHex_eq r (hr (Int.natCast_nonneg _))) hroom
  simp only [convertHex, hstore, Option.bind_eq_bind, Option.bind_some]
  exact terminate_eq data ds k h

theorem length_lowDigits_le {b : ℕ} (hb : 2 ≤ b) {digit : ℕ → UInt8} {n c : ℕ} (hc : 1 ≤ c)
    (h : n < b ^ c) : (lowDigits b digit n).length ≤ c := by
  unfold lowDigits
  split
  · simpa using hc
  · rw [List.length_map]
    exact (Nat.digits_length_le_iff hb n).2 h

/-- The numeral of a number of any of the types, with its sign. -/
theorem length_numeral_le {v : ℤ} (hlow : -2 ^ 63 ≤ v) (hhigh : v < 2 ^ 64) :
    (numeral v).length ≤ 20 := by
  unfold numeral
  rw [List.length_append, List.length_reverse]
  split
  · have hdigits : (lowDigits 10 decimalDigit v.natAbs).length ≤ 19 :=
      length_lowDigits_le (by decide) (by decide) (by norm_num; omega)
    have hsign : (chars "-").length = 1 := by decide
    omega
  · have hdigits : (lowDigits 10 decimalDigit v.natAbs).length ≤ 20 :=
      length_lowDigits_le (by decide) (by decide) (by norm_num; omega)
    simpa using hdigits

theorem length_hexNumeral_le (v : UInt64) : (hexNumeral v.toNat).length ≤ 16 := by
  rw [hexNumeral, List.length_reverse]
  exact length_lowDigits_le (by decide) (by decide) (v.toNat_lt.trans_le (by norm_num))

/-- A numeral ends with a digit. -/
theorem numeral_eq_append (v : ℤ) :
    ∃ xs d, d < 10 ∧ numeral v = xs ++ [decimalDigit d] := by
  rw [numeral, lowDigits_eq (by decide), List.reverse_cons, ← List.append_assoc]
  exact ⟨_, v.natAbs % 10, Nat.mod_lt _ (by decide), rfl⟩

theorem zero_notMem_numeral (v : ℤ) : 0 ∉ numeral v := by
  have hdigit : ∀ d < 10, decimalDigit d ≠ 0 := by decide
  have hdigits : 0 ∉ lowDigits 10 decimalDigit v.natAbs := by
    unfold lowDigits
    split
    · decide
    · rw [List.mem_map]
      rintro ⟨d, hd, hzero⟩
      exact hdigit d (Nat.digits_lt_base (by decide) hd) hzero
  rw [numeral, List.mem_append, List.mem_reverse]
  rintro (hsign | hmem)
  · split at hsign
    · revert hsign
      decide
    · cases hsign
  · exact hdigits hmem

end LogStream

end Base

end SoL
