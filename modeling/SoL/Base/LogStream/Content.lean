import SoL.Base.LogStream.Stream

/-!
# The content of a log stream

The content of a stream after some insertions, in its own terms: each value adds
what `accepted` says of its text. Texts are cut at the end of the buffer, while a
number is left out as soon as fewer than `kMaxNumericSize` bytes are free, and a
text after it may still find room. So the content is the beginning of the texts
of the values in order, but only of those that are `kept` (`content_run`).
-/

namespace SoL

namespace Base

namespace LogStream

variable {δ : Type} (F : Snprintf δ)

/-- The content after the insertion of a value. -/
def put (c : List UInt8) (v : Value δ) : List UInt8 :=
  c ++ accepted F (kSmallBuffer - c.length) v

def contents (c : List UInt8) (vs : List (Value δ)) : List UInt8 := vs.foldl (put F) c

/-- The texts of the values, one after the other. -/
def rendering (vs : List (Value δ)) : List UInt8 := vs.flatMap (render F)

/-- The values without the numbers for which fewer than `kMaxNumericSize` bytes
were free, after so many bytes in the buffer. -/
def kept : ℕ → List (Value δ) → List (Value δ)
  | _, [] => []
  | used, v :: vs =>
      if v.numeric ∧ kSmallBuffer - used < kMaxNumericSize then kept used vs
      else v :: kept (min kSmallBuffer (used + (render F v).length)) vs

variable {F}

/-- The stream holds its content. -/
theorem foldlM_insert (b : FixedBuffer kSmallBuffer) (vs : List (Value δ)) :
    ∃ b' : FixedBuffer kSmallBuffer,
      (vs.map Operation.insert).foldlM (operate F) (raw b) = some (raw b') ∧
        b'.content = contents F b.content vs := by
  induction vs generalizing b with
  | nil => exact ⟨b, rfl, rfl⟩
  | cons v vs ih =>
      obtain ⟨c, hinsert, hcontent⟩ := takes_insert F b v
      obtain ⟨b', hrest, hcontents⟩ := ih c
      refine ⟨b', ?_, ?_⟩
      · rw [List.map_cons, List.foldlM_cons]
        change ((raw b).insert F v).bind _ = _
        rw [hinsert]
        exact hrest
      · have hfree : kSmallBuffer - b.content.length = b.avail := by
          rw [b.length_content]
          rfl
        rw [hcontents, hcontent, contents, contents, List.foldl_cons, put, hfree]

theorem run_insert (garbage : Fin kSmallBuffer → UInt8) (vs : List (Value δ)) :
    ∃ b, run F garbage (vs.map .insert) = some b ∧ b.content = contents F [] vs := by
  obtain ⟨b, hrun, hcontent⟩ := foldlM_insert (F := F) (empty garbage) vs
  have hempty : (empty garbage).content = [] := (FixedBuffer.content_eq_nil_iff _).2 rfl
  refine ⟨raw b, ?_, ?_⟩
  · rw [run, new_eq_raw, hrun]
  · rw [content_raw, hcontent, hempty]

/-- A text, and a number for which there is room, are cut to the buffer. -/
theorem put_of_accepted {c : List UInt8} {v : Value δ}
    (h : ¬ (v.numeric = true ∧ kSmallBuffer - c.length < kMaxNumericSize)) :
    put F c v = c ++ (render F v).take (kSmallBuffer - c.length) := by
  unfold put accepted
  cases hnum : v.numeric with
  | false => simp
  | true =>
      have hroom : kMaxNumericSize ≤ kSmallBuffer - c.length := by
        by_contra hnot
        exact h ⟨hnum, not_le.1 hnot⟩
      have hfits := (length_render_lt F hnum).le.trans hroom
      rw [if_pos rfl, if_pos hroom, List.take_of_length_le hfits]

theorem put_of_refused {c : List UInt8} {v : Value δ}
    (h : v.numeric = true ∧ kSmallBuffer - c.length < kMaxNumericSize) : put F c v = c := by
  unfold put accepted
  rw [if_pos h.1, if_neg (not_le.2 h.2), List.append_nil]

/-- What has been cut stays cut. -/
theorem take_append_take {α : Type*} (n : ℕ) (xs ys : List α) :
    (xs.take n ++ ys).take n = (xs ++ ys).take n := by
  by_cases h : xs.length ≤ n
  · rw [List.take_of_length_le h]
  · have hlen : (xs.take n).length = n := List.length_take_of_le (not_le.1 h).le
    rw [List.take_append_of_le_length hlen.ge, List.take_take, min_self,
      List.take_append_of_le_length (not_le.1 h).le]

theorem contents_eq {c : List UInt8} (hc : c.length ≤ kSmallBuffer) (vs : List (Value δ)) :
    contents F c vs = (c ++ rendering F (kept F c.length vs)).take kSmallBuffer := by
  induction vs generalizing c with
  | nil => simp [contents, kept, rendering, List.take_of_length_le hc]
  | cons v vs ih =>
      rw [contents, List.foldl_cons, ← contents]
      by_cases h : v.numeric = true ∧ kSmallBuffer - c.length < kMaxNumericSize
      · rw [put_of_refused h, ih hc, kept, if_pos h]
      · have hput : put F c v = (c ++ render F v).take kSmallBuffer := by
          rw [put_of_accepted h, List.take_append, List.take_of_length_le hc]
        have hlen : ((c ++ render F v).take kSmallBuffer).length =
            min kSmallBuffer (c.length + (render F v).length) := by
          rw [List.length_take, List.length_append]
        rw [hput, ih (by rw [hlen]; exact min_le_left _ _), hlen, kept, if_neg h,
          take_append_take, List.append_assoc]
        rfl

theorem length_contents_le {c : List UInt8} (hc : c.length ≤ kSmallBuffer)
    (vs : List (Value δ)) : (contents F c vs).length ≤ kSmallBuffer := by
  rw [contents_eq hc, List.length_take]
  exact min_le_left _ _

theorem contents_append (c : List UInt8) (vs ws : List (Value δ)) :
    contents F c (vs ++ ws) = contents F (contents F c vs) ws := List.foldl_append

/-- If the texts leave `kMaxNumericSize` bytes free, no number is left out. -/
theorem kept_eq {used : ℕ} {vs : List (Value δ)}
    (h : used + (rendering F vs).length + kMaxNumericSize ≤ kSmallBuffer) :
    kept F used vs = vs := by
  induction vs generalizing used with
  | nil => rfl
  | cons v vs ih =>
      have hlen : (rendering F (v :: vs)).length =
          (render F v).length + (rendering F vs).length := by
        simp [rendering]
      rw [hlen] at h
      have hroom : ¬ (v.numeric = true ∧ kSmallBuffer - used < kMaxNumericSize) := by
        rintro ⟨-, hfew⟩
        omega
      rw [kept, if_neg hroom, min_eq_right (by omega), ih (by omega)]

/-- The content of a stream is the beginning of the texts of the values, without
the numbers for which fewer than `kMaxNumericSize` bytes were free. It is all of
the texts if these leave so many bytes free. -/
theorem content_run (F : Snprintf δ) (garbage : Fin kSmallBuffer → UInt8)
    (vs : List (Value δ)) :
    ∃ b, run F garbage (vs.map .insert) = some b ∧
      b.content = (rendering F (kept F 0 vs)).take kSmallBuffer ∧
      ((rendering F vs).length ≤ kSmallBuffer - kMaxNumericSize →
        b.content = rendering F vs) := by
  obtain ⟨b, hrun, hcontent⟩ := run_insert (F := F) garbage vs
  have hkept : b.content = (rendering F (kept F 0 vs)).take kSmallBuffer := by
    rw [hcontent]
    exact contents_eq (Nat.zero_le _) vs
  refine ⟨b, hrun, hkept, fun hshort => ?_⟩
  have hall : 0 + (rendering F vs).length + kMaxNumericSize ≤ kSmallBuffer := by
    simp only [kSmallBuffer, kMaxNumericSize] at hshort ⊢
    omega
  rw [hkept, kept_eq hall, List.take_of_length_le (by omega)]

/-- A stream into which no `double` is inserted. -/
def noDoubles : Snprintf Empty where
  text := Empty.elim
  length_text := fun v => v.elim

/-- A number and a character near the end of the buffer. -/
def nearEnd (text : List UInt8) : List (Value Empty) := [.string text, .int 5, .char 120]

/-- After 3990 bytes the number is left out, and the character is not. -/
theorem not_isPrefix_nearEnd :
    ¬ ∀ (garbage : Fin kSmallBuffer → UInt8) (vs : List (Value Empty)) (b : RawBuffer),
      run noDoubles garbage (vs.map .insert) = some b → b.content <+: rendering noDoubles vs := by
  intro h
  obtain ⟨text, hlen⟩ : ∃ text : List UInt8, text.length = 3990 :=
    ⟨List.replicate 3990 97, List.length_replicate⟩
  obtain ⟨b, hrun, hcontent, -⟩ := content_run noDoubles (fun _ => 0) (nearEnd text)
  have hprefix := h _ _ b hrun
  have hkept : kept noDoubles 0 (nearEnd text) = [.string text, .char 120] := by
    simp [nearEnd, kept, Value.numeric, render, kSmallBuffer, kMaxNumericSize, hlen]
  have htexts : rendering noDoubles [.string text, .char 120] = text ++ [120] := by
    simp [rendering, render]
  have hall : rendering noDoubles (nearEnd text) = text ++ [53, 120] := by
    have hfive : numeral 5 = [53] := by decide
    simp [rendering, nearEnd, render, hfive]
  rw [hcontent, hkept, htexts, List.take_of_length_le (by simp [kSmallBuffer, hlen]), hall,
    List.prefix_append_right_inj] at hprefix
  revert hprefix
  decide

end LogStream

end Base

end SoL
