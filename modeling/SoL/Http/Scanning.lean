import SoL.Http.RequestData

/-!
# The header parser with unbounded positions

`advance` and `scan` are the round and the loop of `parse_Headers` over integers
that do not overflow. The code goes the same way or ends in undefined behaviour
(`loop_eq_scan_or`), and it goes the same way over every block whose positions
`int` can hold (`loop_eq_scan`).
-/

namespace SoL

namespace Http

open Arithmetic

/-- The bytes that the parser skips before the first line. -/
def lineEnd (b : UInt8) : Prop := b = LF ∨ b = CR

instance (b : UInt8) : Decidable (lineEnd b) :=
  inferInstanceAs (Decidable (b = LF ∨ b = CR))

namespace Scan

/-- A round of the loop, when positions have no bound. -/
def advance (str : Bytes) (i : ℕ) (c : UInt8) (s : Scan) : Scanned :=
  match s.hState with
  | .h_start =>
      if c = LF ∨ c = CR then .going s
      else .going { s with hState := .h_key, keyStart := i, nowReadLineBegin := i }
  | .h_key =>
      if c = colon then
        if (i : ℤ) - s.keyStart ≤ 0 then .error { s with keyEnd := i }
        else .going { s with keyEnd := i, hState := .h_colon }
      else if c = LF ∨ c = CR then .error s
      else .going s
  | .h_colon =>
      if c = space then .going { s with hState := .h_spaces_after_colon } else .error s
  | .h_spaces_after_colon => .going { s with hState := .h_value, valueStart := i }
  | .h_value =>
      if c = CR then
        if (i : ℤ) - s.valueStart ≤ 0 then .error { s with hState := .h_CR, valueEnd := i }
        else .going { s with hState := .h_CR, valueEnd := i }
      else if (i : ℤ) - s.valueStart > 255 then .error s
      else .going s
  | .h_CR =>
      if c = LF then
        match substring str s.keyStart s.keyEnd, substring str s.valueStart s.valueEnd with
        | some key, some value =>
            .going { s with
              hState := .h_LF
              headers := Function.update s.headers key (some value)
              nowReadLineBegin := i }
        | _, _ => .outOfRange
      else .error s
  | .h_LF =>
      if c = CR then .going { s with hState := .h_end_CR }
      else .going { s with keyStart := i, hState := .h_key }
  | .h_end_CR => if c = LF then .going { s with hState := .h_end_LF } else .error s
  | .h_end_LF => .going { s with notFinish := false, keyStart := i, nowReadLineBegin := i }

/-- The loop, when positions have no bound. -/
def scan (str : Bytes) : Bytes → ℕ → Scan → Scanned
  | [], _, s => .going s
  | c :: rest, i, s =>
      if s.notFinish then
        match advance str i c s with
        | .going s => scan str rest (i + 1) s
        | out => out
      else .going s

variable {str p q : Bytes} {i : ℕ} {c : UInt8} {s t : Scan}

theorem scan_nil : scan str [] i s = .going s := rfl

theorem scan_cons (c : UInt8) (h : s.notFinish = true) :
    scan str (c :: q) i s =
      match advance str i c s with
      | .going t => scan str q (i + 1) t
      | out => out := if_pos h

theorem scan_finished (h : s.notFinish = false) : scan str q i s = .going s := by
  cases q with
  | nil => rfl
  | cons c q => simp [scan, h]

theorem scan_append (str p q : Bytes) (i : ℕ) (s : Scan) :
    scan str (p ++ q) i s =
      match scan str p i s with
      | .going t => scan str q (i + p.length) t
      | out => out := by
  induction p generalizing i s with
  | nil => simp [scan]
  | cons c p ih =>
      cases hfin : s.notFinish with
      | false => simp [scan_finished hfin]
      | true =>
          rw [List.cons_append, scan_cons c hfin, scan_cons c hfin]
          cases advance str i c s with
          | going t =>
              simp only [ih, List.length_cons]
              rw [Nat.add_right_comm, Nat.add_assoc]
          | error t => rfl
          | outOfRange => rfl

/-- What a round that goes on can do. -/
inductive Round (str : Bytes) (i : ℕ) (c : UInt8) (s : Scan) : Scan → Prop
  | lead (hstate : s.hState = .h_start) (hc : lineEnd c) : Round str i c s s
  | first (hstate : s.hState = .h_start) (hc : ¬ lineEnd c) :
      Round str i c s { s with hState := .h_key, keyStart := i, nowReadLineBegin := i }
  | key (hstate : s.hState = .h_key) (hc : c ≠ colon ∧ ¬ lineEnd c) : Round str i c s s
  | keyEnd (hstate : s.hState = .h_key) (hc : c = colon) (hlen : s.keyStart < i) :
      Round str i c s { s with keyEnd := i, hState := .h_colon }
  | colon (hstate : s.hState = .h_colon) (hc : c = space) :
      Round str i c s { s with hState := .h_spaces_after_colon }
  | valueStart (hstate : s.hState = .h_spaces_after_colon) :
      Round str i c s { s with hState := .h_value, valueStart := i }
  | value (hstate : s.hState = .h_value) (hc : c ≠ CR) (hlen : (i : ℤ) - s.valueStart ≤ 255) :
      Round str i c s s
  | valueEnd (hstate : s.hState = .h_value) (hc : c = CR) (hlen : s.valueStart < i) :
      Round str i c s { s with hState := .h_CR, valueEnd := i }
  | store (key value : Bytes) (hstate : s.hState = .h_CR) (hc : c = LF)
      (hkey : substring str s.keyStart s.keyEnd = some key)
      (hvalue : substring str s.valueStart s.valueEnd = some value) :
      Round str i c s { s with
        hState := .h_LF
        headers := Function.update s.headers key (some value)
        nowReadLineBegin := i }
  | next (hstate : s.hState = .h_LF) (hc : c ≠ CR) :
      Round str i c s { s with keyStart := i, hState := .h_key }
  | endCR (hstate : s.hState = .h_LF) (hc : c = CR) :
      Round str i c s { s with hState := .h_end_CR }
  | endLF (hstate : s.hState = .h_end_CR) (hc : c = LF) :
      Round str i c s { s with hState := .h_end_LF }
  | body (hstate : s.hState = .h_end_LF) :
      Round str i c s { s with
        hState := .h_end_LF
        notFinish := false
        keyStart := i
        nowReadLineBegin := i }

theorem round_of_advance {c : UInt8} (h : advance str i c s = .going t) : Round str i c s t := by
  unfold advance at h
  cases hstate : s.hState with
  | h_start =>
      simp only [hstate] at h
      split at h
      · rename_i hc
        obtain rfl := Scanned.going.inj h
        exact .lead hstate hc
      · rename_i hc
        obtain rfl := Scanned.going.inj h
        exact .first hstate hc
  | h_key =>
      simp only [hstate] at h
      split at h
      · rename_i hc
        split at h
        · cases h
        · rename_i hlen
          obtain rfl := Scanned.going.inj h
          exact .keyEnd hstate hc (by omega)
      · rename_i hcolon
        split at h
        · cases h
        · rename_i hc
          obtain rfl := Scanned.going.inj h
          exact .key hstate ⟨hcolon, hc⟩
  | h_colon =>
      simp only [hstate] at h
      split at h
      · rename_i hc
        obtain rfl := Scanned.going.inj h
        exact .colon hstate hc
      · cases h
  | h_spaces_after_colon =>
      simp only [hstate] at h
      obtain rfl := Scanned.going.inj h
      exact .valueStart hstate
  | h_value =>
      simp only [hstate] at h
      split at h
      · rename_i hc
        split at h
        · cases h
        · rename_i hlen
          obtain rfl := Scanned.going.inj h
          exact .valueEnd hstate hc (by omega)
      · rename_i hc
        split at h
        · cases h
        · rename_i hlen
          obtain rfl := Scanned.going.inj h
          exact .value hstate hc (not_lt.1 hlen)
  | h_CR =>
      simp only [hstate] at h
      split at h
      · rename_i hc
        split at h
        · rename_i key value hkey hvalue
          obtain rfl := Scanned.going.inj h
          exact .store key value hstate hc hkey hvalue
        · cases h
      · cases h
  | h_LF =>
      simp only [hstate] at h
      split at h
      · rename_i hc
        obtain rfl := Scanned.going.inj h
        exact .endCR hstate hc
      · rename_i hc
        obtain rfl := Scanned.going.inj h
        exact .next hstate hc
  | h_end_CR =>
      simp only [hstate] at h
      split at h
      · rename_i hc
        obtain rfl := Scanned.going.inj h
        exact .endLF hstate hc
      · cases h
  | h_end_LF =>
      simp only [hstate] at h
      obtain rfl := Scanned.going.inj h
      exact .body hstate

/-- What every round preserves, a scan that goes on preserves. -/
theorem scan_invariant {I : Scan → Prop}
    (hkeep : ∀ {i c s t}, I s → Round str i c s t → I t) (h : I s)
    (ht : scan str q i s = .going t) : I t := by
  induction q generalizing i s with
  | nil =>
      obtain rfl := Scanned.going.inj ht
      exact h
  | cons c q ih =>
      cases hfin : s.notFinish with
      | false =>
          rw [scan_finished hfin] at ht
          obtain rfl := Scanned.going.inj ht
          exact h
      | true =>
          rw [scan_cons c hfin] at ht
          cases hround : advance str i c s with
          | going u =>
              rw [hround] at ht
              exact ih (hkeep h (round_of_advance hround)) ht
          | error u => simp [hround] at ht
          | outOfRange => simp [hround] at ht

/-- The bounds that have been set lie before the index. -/
structure Placed (i : ℕ) (s : Scan) : Prop where
  keyStart : -1 ≤ s.keyStart ∧ s.keyStart ≤ i
  valueStart : -1 ≤ s.valueStart ∧ s.valueStart ≤ i

theorem placed_enter (hState : HeadersState) (headers : Headers) :
    Placed 0 (enter hState headers) := by
  constructor <;> simp [enter]

/-- A round moves a bound to the index or leaves it where it is. -/
theorem placed_round (h : Placed i s) (hround : Round str i c s t) : Placed (i + 1) t := by
  have hkey : -1 ≤ s.keyStart ∧ s.keyStart ≤ (i + 1 : ℕ) := by
    have := h.keyStart
    omega
  have hvalue : -1 ≤ s.valueStart ∧ s.valueStart ≤ (i + 1 : ℕ) := by
    have := h.valueStart
    omega
  have hi : -1 ≤ (i : ℤ) ∧ (i : ℤ) ≤ (i + 1 : ℕ) := by omega
  cases hround with
  | first | next | body => exact ⟨hi, hvalue⟩
  | valueStart => exact ⟨hkey, hi⟩
  | lead | key | keyEnd | colon | value | valueEnd | store | endCR | endLF => exact ⟨hkey, hvalue⟩

/-- A difference of the index and a bound does not overflow before the last index. -/
theorem value_sub_bound {start : ℤ} (hstart : -1 ≤ start ∧ start ≤ i) (hi : i + 1 < 2 ^ 31) :
    CInt.value i - CInt.value start = .value (i - start) :=
  CInt.value_sub (by omega) (by omega)

theorem step_eq_advance (h : Placed i s) (hi : i + 1 < 2 ^ 31) :
    step str i c s = advance str i c s := by
  unfold step advance
  cases hstate : s.hState with
  | h_key => simp only [value_sub_bound h.keyStart hi]
  | h_value => simp only [value_sub_bound h.valueStart hi]
  | h_start | h_colon | h_spaces_after_colon | h_CR | h_LF | h_end_CR | h_end_LF => rfl

theorem step_eq_advance_or (str : Bytes) (i : ℕ) (c : UInt8) (s : Scan) :
    step str i c s = advance str i c s ∨ step str i c s = .outOfRange := by
  unfold step advance
  cases hstate : s.hState with
  | h_key =>
      by_cases hc : c = colon
      · simp only [if_pos hc]
        obtain h | h := CInt.value_sub_eq_or i s.keyStart
        · exact .inl (by rw [h])
        · exact .inr (by rw [h])
      · exact .inl (by simp only [if_neg hc])
  | h_value =>
      obtain h | h := CInt.value_sub_eq_or i s.valueStart
      · exact .inl (by rw [h])
      · exact .inr (by rw [h])
  | h_start | h_colon | h_spaces_after_colon | h_CR | h_LF | h_end_CR | h_end_LF => exact .inl rfl

theorem loop_finished (h : s.notFinish = false) : loop str q i s = .going s := by
  cases q with
  | nil => rfl
  | cons c q => simp [loop, h]

/-- A round of the loop, and the next index. -/
theorem loop_cons (c : UInt8) (h : s.notFinish = true) :
    loop str (c :: q) i s =
      match step str i c s with
      | .going t => if i + 1 < 2 ^ 31 then loop str q (i + 1) t else .outOfRange
      | out => out := if_pos h

theorem loop_append (str p q : Bytes) (i : ℕ) (s : Scan) :
    loop str (p ++ q) i s =
      match loop str p i s with
      | .going t => loop str q (i + p.length) t
      | out => out := by
  induction p generalizing i s with
  | nil => simp [loop]
  | cons c p ih =>
      cases hfin : s.notFinish with
      | false => simp [loop_finished hfin]
      | true =>
          rw [List.cons_append, loop_cons c hfin, loop_cons c hfin]
          cases step str i c s with
          | going t =>
              by_cases hi : i + 1 < 2 ^ 31
              · simp only [if_pos hi, ih, List.length_cons]
                rw [Nat.add_right_comm, Nat.add_assoc]
              · simp only [if_neg hi]
          | error t => rfl
          | outOfRange => rfl

/-- A loop that comes through a round has found its index. -/
theorem lt_of_loop (h : loop str (c :: q) i s = .going t) (hfin : s.notFinish = true) :
    i + 1 < 2 ^ 31 := by
  by_contra hi
  rw [loop_cons c hfin] at h
  cases hstep : step str i c s with
  | going u =>
      simp only [hstep, if_neg hi] at h
      cases h
  | error u => simp [hstep] at h
  | outOfRange => simp [hstep] at h

/-- The loop does what it does without bounds, or ends in undefined behaviour. -/
theorem loop_eq_scan_or (str q : Bytes) (i : ℕ) (s : Scan) :
    loop str q i s = scan str q i s ∨ loop str q i s = .outOfRange := by
  induction q generalizing i s with
  | nil => exact .inl rfl
  | cons c q ih =>
      cases hfin : s.notFinish with
      | false => exact .inl (by rw [loop_finished hfin, scan_finished hfin])
      | true =>
          rw [loop_cons c hfin, scan_cons c hfin]
          obtain hstep | hstep := step_eq_advance_or str i c s
          · rw [hstep]
            cases advance str i c s with
            | going t =>
                by_cases hi : i + 1 < 2 ^ 31
                · simpa only [if_pos hi] using ih (i + 1) t
                · exact .inr (if_neg hi)
            | error t => exact .inl rfl
            | outOfRange => exact .inl rfl
          · exact .inr (by rw [hstep])

theorem scan_of_loop (h : loop str q i s = .going t) : scan str q i s = .going t := by
  obtain hloop | hloop := loop_eq_scan_or str q i s
  · exact hloop ▸ h
  · exact absurd (hloop.symm.trans h) (by simp)

/-- No position overflows while the last index has a successor. -/
theorem loop_eq_scan (h : Placed i s) (hlen : i + q.length < 2 ^ 31) :
    loop str q i s = scan str q i s := by
  induction q generalizing i s with
  | nil => rfl
  | cons c q ih =>
      rw [List.length_cons] at hlen
      cases hfin : s.notFinish with
      | false => rw [loop_finished hfin, scan_finished hfin]
      | true =>
          have hi : i + 1 < 2 ^ 31 := by omega
          rw [loop_cons c hfin, scan_cons c hfin, step_eq_advance h hi]
          cases hround : advance str i c s with
          | going t =>
              simp only [if_pos hi]
              exact ih (placed_round h (round_of_advance hround)) (by omega)
          | error t => rfl
          | outOfRange => rfl

/-- The loop of a call over the first bytes of `content`. -/
theorem loop_enter_eq_scan (hState : HeadersState) (headers : Headers) (hlen : q.length < 2 ^ 31) :
    loop str q 0 (enter hState headers) = scan str q 0 (enter hState headers) :=
  loop_eq_scan (placed_enter hState headers) (by omega)

end Scan

namespace RequestData

/-- A call over a block whose positions `int` can hold. -/
theorem parseHeaders_eq {r : RequestData} (h : r.content.length < 2 ^ 31) :
    r.parseHeaders =
      match Scan.scan r.content r.content 0 (Scan.enter r.hState r.headers) with
      | .outOfRange => none
      | .error s => some (.error, { r with hState := s.hState, headers := s.headers })
      | .going s =>
          some (if s.hState = .h_end_LF then .success else .again, { r with
            hState := s.hState
            headers := s.headers
            content := r.content.drop s.nowReadLineBegin }) := by
  unfold parseHeaders
  rw [Scan.loop_enter_eq_scan r.hState r.headers h]
  cases Scan.scan r.content r.content 0 (Scan.enter r.hState r.headers) with
  | outOfRange => rfl
  | error s => rfl
  | going s =>
      by_cases hs : s.hState = .h_end_LF
      · simp only [hs, if_true]
      · simp only [hs, if_false]

end RequestData

end Http

end SoL
