import Mathlib.Tactic

/-!
# Texts of one width in order

A `FixedWidth` family of texts has one length, and a smaller index has a smaller text in
the lexicographic order. Two families in a row are ordered by the pairs of their indices
(`append`), so a record of fields is ordered by its fields, the first one first. A field
of digits is ordered by its number, whether it is filled with zeros or with something
smaller (`padDigits`).
-/

namespace Sequence

variable {α β γ : Type*}

section

variable [LT β]

/-- The first difference of two texts of one length decides. -/
theorem append_lt_append {xs ys us vs : List β} (hlength : xs.length = ys.length)
    (h : xs < ys) : xs ++ us < ys ++ vs := by
  induction xs generalizing ys with
  | nil =>
      obtain rfl : ys = [] := List.length_eq_zero_iff.1 hlength.symm
      cases h
  | cons x xs ih =>
      cases ys with
      | nil => cases hlength
      | cons y ys =>
          rw [List.cons_append, List.cons_append, List.cons_lt_cons_iff]
          obtain hlt | ⟨heq, hrest⟩ := List.cons_lt_cons_iff.1 h
          · exact .inl hlt
          · exact .inr ⟨heq, ih (Nat.succ.inj hlength) hrest⟩

/-- Texts for the elements of `s`, of one length and in their order. -/
structure FixedWidth [LT α] (s : Set α) (width : ℕ) (text : α → List β) : Prop where
  length : ∀ a ∈ s, (text a).length = width
  lt : ∀ a ∈ s, ∀ b ∈ s, a < b → text a < text b

namespace FixedWidth

/-- A text in the order of its index, up to a change of the index. -/
theorem comp [LT α] [LT γ] {s : Set α} {t : Set γ} {width : ℕ} {text : α → List β} {f : γ → α}
    (h : FixedWidth s width text) (hmaps : ∀ c ∈ t, f c ∈ s)
    (hlt : ∀ c ∈ t, ∀ d ∈ t, c < d → f c < f d) : FixedWidth t width (text ∘ f) where
  length c hc := h.length (f c) (hmaps c hc)
  lt c hc d hd hcd := h.lt (f c) (hmaps c hc) (f d) (hmaps d hd) (hlt c hc d hd hcd)

theorem congr [LT α] {s : Set α} {width : ℕ} {text text' : α → List β}
    (h : FixedWidth s width text) (heq : ∀ a ∈ s, text' a = text a) : FixedWidth s width text' where
  length a ha := by rw [heq a ha, h.length a ha]
  lt a ha b hb hab := by
    rw [heq a ha, heq b hb]
    exact h.lt a ha b hb hab

/-- One text after the other. -/
theorem append [LT α] [LT γ] {s : Set α} {t : Set γ} {m n : ℕ} {text : α → List β}
    {text' : γ → List β} (h : FixedWidth s m text) (h' : FixedWidth t n text') :
    FixedWidth {p : α ×ₗ γ | (ofLex p).1 ∈ s ∧ (ofLex p).2 ∈ t} (m + n)
      fun p => text (ofLex p).1 ++ text' (ofLex p).2 where
  length p hp := by rw [List.length_append, h.length _ hp.1, h'.length _ hp.2]
  lt p hp q hq hpq := by
    obtain hfirst | ⟨hsame, hsecond⟩ := Prod.Lex.lt_iff.1 hpq
    · exact append_lt_append ((h.length _ hp.1).trans (h.length _ hq.1).symm)
        (h.lt _ hp.1 _ hq.1 hfirst)
    · rw [hsame]
      exact List.append_left_lt (h'.lt _ hp.2 _ hq.2 hsecond)

theorem append_const [LT α] {s : Set α} {width : ℕ} {text : α → List β}
    (h : FixedWidth s width text) (rest : List β) :
    FixedWidth s (width + rest.length) fun a => text a ++ rest where
  length a ha := by rw [List.length_append, h.length a ha]
  lt a ha b hb hab :=
    append_lt_append ((h.length a ha).trans (h.length b hb).symm) (h.lt a ha b hb hab)

theorem const_append [LT α] {s : Set α} {width : ℕ} {text : α → List β}
    (h : FixedWidth s width text) (first : List β) :
    FixedWidth s (first.length + width) fun a => first ++ text a where
  length a ha := by rw [List.length_append, h.length a ha]
  lt a ha b hb hab := List.append_left_lt (h.lt a ha b hb hab)

/-- The order of the texts is that of the elements. -/
theorem lt_iff [LinearOrder α] [Std.Asymm (· < · : β → β → Prop)] {s : Set α} {width : ℕ}
    {text : α → List β} (h : FixedWidth s width text) {a b : α} (ha : a ∈ s) (hb : b ∈ s) :
    text a < text b ↔ a < b := by
  refine ⟨fun htext => ?_, h.lt a ha b hb⟩
  obtain hlt | heq | hgt := lt_trichotomy a b
  · exact hlt
  · rw [heq] at htext
    exact absurd htext (List.lt_asymm htext)
  · exact absurd htext (List.lt_asymm (h.lt b hb a ha hgt))

theorem injOn [LinearOrder α] [Std.Asymm (· < · : β → β → Prop)] {s : Set α} {width : ℕ}
    {text : α → List β} (h : FixedWidth s width text) : Set.InjOn text s := by
  intro a ha b hb heq
  obtain hlt | hsame | hgt := lt_trichotomy a b
  · have htext := h.lt a ha b hb hlt
    rw [heq] at htext
    exact absurd htext (List.lt_asymm htext)
  · exact hsame
  · have htext := h.lt b hb a ha hgt
    rw [heq] at htext
    exact absurd htext (List.lt_asymm htext)

end FixedWidth

end

section Digits

/-- A numeral of `width + 1` characters with a fill character in front. -/
def padDigits (base : ℕ) (digit : ℕ → β) (fill : β) : ℕ → ℕ → List β
  | 0, n => [digit (n % base)]
  | width + 1, n =>
      (if n < base then List.replicate (width + 1) fill
        else padDigits base digit fill width (n / base)) ++ [digit (n % base)]

variable {base : ℕ} {digit : ℕ → β} {fill : β}

@[simp] theorem length_padDigits (width n : ℕ) :
    (padDigits base digit fill width n).length = width + 1 := by
  induction width generalizing n with
  | zero => rfl
  | succ width ih =>
      rw [padDigits]
      split <;> simp [ih]

variable [LT β]

/-- The fill characters are smaller than any digit that can stand first. -/
theorem replicate_lt_padDigits (hfill : ∀ d, 0 < d → d < base → fill < digit d) {width n : ℕ}
    (hpos : 0 < n) (hn : n < base ^ (width + 1)) :
    List.replicate (width + 1) fill < padDigits base digit fill width n := by
  induction width generalizing n with
  | zero =>
      rw [zero_add, pow_one] at hn
      rw [padDigits, Nat.mod_eq_of_lt hn]
      exact .rel (hfill n hpos hn)
  | succ width ih =>
      rw [padDigits, List.replicate_succ']
      split
      · next hlt =>
          rw [Nat.mod_eq_of_lt hlt]
          exact List.append_left_lt (.rel (hfill n hpos hlt))
      · next hge =>
          have hbase : 0 < base := by
            by_contra hzero
            rw [Nat.eq_zero_of_not_pos hzero, zero_pow (by omega)] at hn
            omega
          have hquot : n / base < base ^ (width + 1) := by
            rw [Nat.div_lt_iff_lt_mul hbase, ← pow_succ]
            exact hn
          exact append_lt_append (by simp) (ih (Nat.div_pos (not_lt.1 hge) hbase) hquot)

theorem padDigits_lt (hdigit : ∀ c d, c < d → d < base → digit c < digit d)
    (hfill : ∀ d, 0 < d → d < base → fill < digit d) {width m n : ℕ} (hmn : m < n)
    (hn : n < base ^ (width + 1)) :
    padDigits base digit fill width m < padDigits base digit fill width n := by
  induction width generalizing m n with
  | zero =>
      rw [zero_add, pow_one] at hn
      rw [padDigits, padDigits, Nat.mod_eq_of_lt hn, Nat.mod_eq_of_lt (hmn.trans hn)]
      exact .rel (hdigit m n hmn hn)
  | succ width ih =>
      have hbase : 0 < base := by
        by_contra hzero
        rw [Nat.eq_zero_of_not_pos hzero, zero_pow (by omega)] at hn
        omega
      have hquot : n / base < base ^ (width + 1) := by
        rw [Nat.div_lt_iff_lt_mul hbase, ← pow_succ]
        exact hn
      rw [padDigits, padDigits]
      by_cases hm : m < base
      · rw [if_pos hm]
        by_cases hlt : n < base
        · rw [if_pos hlt, Nat.mod_eq_of_lt hm, Nat.mod_eq_of_lt hlt]
          exact List.append_left_lt (.rel (hdigit m n hmn hlt))
        · rw [if_neg hlt]
          exact append_lt_append (by simp)
            (replicate_lt_padDigits hfill (Nat.div_pos (not_lt.1 hlt) hbase) hquot)
      · have hlt : ¬ n < base := fun hlt => hm (hmn.trans hlt)
        rw [if_neg hm, if_neg hlt]
        obtain hdiv | hdiv := (Nat.div_le_div_right (c := base) hmn.le).lt_or_eq
        · exact append_lt_append (by simp) (ih hdiv hquot)
        · have hmod : m % base < n % base := by
            have hm' := Nat.div_add_mod m base
            have hn' := Nat.div_add_mod n base
            rw [hdiv] at hm'
            omega
          rw [hdiv]
          exact List.append_left_lt (.rel (hdigit _ _ hmod (Nat.mod_lt n hbase)))

theorem fixedWidth_padDigits (hdigit : ∀ c d, c < d → d < base → digit c < digit d)
    (hfill : ∀ d, 0 < d → d < base → fill < digit d) (width : ℕ) :
    FixedWidth (Set.Iio (base ^ (width + 1))) (width + 1) (padDigits base digit fill width) where
  length n _ := length_padDigits width n
  lt _ _ _ hn hmn := padDigits_lt hdigit hfill hmn hn

end Digits

/-- A number is ordered by its quotient and its remainder. -/
theorem divMod_lt {k a b : ℤ} (hk : 0 < k) (h : a < b) :
    toLex (a / k, a % k) < toLex (b / k, b % k) := by
  rw [Prod.Lex.toLex_lt_toLex]
  obtain hlt | heq := (Int.ediv_le_ediv hk h.le).lt_or_eq
  · exact .inl hlt
  · refine .inr ⟨heq, ?_⟩
    have ha := Int.mul_ediv_add_emod a k
    have hb := Int.mul_ediv_add_emod b k
    rw [heq] at ha
    change a % k < b % k
    omega

end Sequence
