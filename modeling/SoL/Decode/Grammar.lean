import SoL.Decode.Reader

/-!
# What a reader accepts

`Accepts x R` says that `x` succeeds exactly on the streams that begin with some
bytes that `R` allows for the store, the result and the store afterwards, and that it
then leaves the rest of the stream. The rules give the relation of a reader that is put
together from others, so a reader is shown to accept the encodings of a format, and
nothing else, by following its code.
-/

namespace Decode

variable {ε β δ α γ : Type}

def Accepts (x : Reader ε β δ α) (R : δ → List β → α → δ → Prop) : Prop :=
  ∀ s a t, x s = .ok a t ↔ ∃ bytes, s.rest = bytes ++ t.rest ∧ R s.store bytes a t.store

theorem bind_eq_ok_iff {x : Reader ε β δ α} {g : α → Reader ε β δ γ} {s u : Source β δ} {c : γ} :
    (x >>= g) s = .ok c u ↔ ∃ a t, x s = .ok a t ∧ g a t = .ok c u := by
  cases h : x s with
  | ok a t =>
      rw [bind_of_ok h]
      constructor
      · exact fun hg => ⟨a, t, rfl, hg⟩
      · rintro ⟨a', t', hx, hg⟩
        cases hx
        exact hg
  | error e t =>
      rw [bind_of_error h]
      simp

namespace Accepts

variable {x : Reader ε β δ α} {R R' : δ → List β → α → δ → Prop}

theorem congr (hx : Accepts x R) (h : ∀ d bytes a d', R d bytes a d' ↔ R' d bytes a d') :
    Accepts x R' := by
  intro s a t
  rw [hx s a t]
  exact exists_congr fun bytes => and_congr_right fun _ => h _ _ _ _

theorem pure (a : α) : Accepts (Pure.pure a : Reader ε β δ α)
    fun d bytes b d' => bytes = [] ∧ b = a ∧ d' = d := by
  intro s b t
  constructor
  · intro h
    cases h
    exact ⟨[], rfl, rfl, rfl, rfl⟩
  · rintro ⟨bytes, hrest, rfl, rfl, hstore⟩
    obtain ⟨rest, store⟩ := s
    obtain ⟨rest', store'⟩ := t
    cases hrest
    cases hstore
    rfl

theorem throw (e : ε) : Accepts (MonadExcept.throw e : Reader ε β δ α) fun _ _ _ _ => False := by
  intro s a t
  constructor
  · intro h
    cases h
  · rintro ⟨bytes, -, hfalse⟩
    exact hfalse.elim

theorem modify (f : δ → δ) :
    Accepts (modify (fun s => { s with store := f s.store }) : Reader ε β δ PUnit)
      fun d bytes _ d' => bytes = [] ∧ d' = f d := by
  intro s a t
  constructor
  · intro h
    cases h
    exact ⟨[], rfl, rfl, rfl⟩
  · rintro ⟨bytes, hrest, rfl, hstore⟩
    obtain ⟨rest, store⟩ := s
    obtain ⟨rest', store'⟩ := t
    cases hrest
    cases hstore
    rfl

theorem take (n : ℕ) (e : ε) : Accepts (Decode.take n e : Reader ε β δ (List β))
    fun d bytes a d' => bytes.length = n ∧ a = bytes ∧ d' = d := by
  intro s a t
  unfold Decode.take
  constructor
  · intro h
    split at h
    · next hlen =>
        cases h
        exact ⟨s.rest.take n, (List.take_append_drop n s.rest).symm,
          List.length_take_of_le hlen, rfl, rfl⟩
    · cases h
  · rintro ⟨bytes, hrest, rfl, rfl, hstore⟩
    obtain ⟨rest, store⟩ := s
    obtain ⟨rest', store'⟩ := t
    cases hrest
    cases hstore
    simp

theorem bind {g : α → Reader ε β δ γ} {S : α → δ → List β → γ → δ → Prop} (hx : Accepts x R)
    (hg : ∀ a, Accepts (g a) (S a)) :
    Accepts (x >>= g) fun d bytes c d'' => ∃ first last a d', bytes = first ++ last ∧
      R d first a d' ∧ S a d' last c d'' := by
  intro s c u
  rw [bind_eq_ok_iff]
  constructor
  · rintro ⟨a, t, hxs, hgt⟩
    obtain ⟨first, hfirst, hR⟩ := (hx s a t).1 hxs
    obtain ⟨last, hlast, hS⟩ := (hg a t c u).1 hgt
    refine ⟨first ++ last, ?_, first, last, a, t.store, rfl, hR, hS⟩
    rw [hfirst, hlast, List.append_assoc]
  · rintro ⟨bytes, hrest, first, last, a, d', rfl, hR, hS⟩
    rw [List.append_assoc] at hrest
    exact ⟨a, ⟨last ++ u.rest, d'⟩, (hx s a _).2 ⟨first, hrest, hR⟩,
      (hg a _ c u).2 ⟨last, rfl, hS⟩⟩

/-- A reader of a fixed number of bytes. -/
theorem of_reads {E : ε → Prop} {n : ℕ} {f : List β → α} (hx : Reads E x n f)
    (hf : ∀ bytes rest, bytes.length = n → f (bytes ++ rest) = f bytes) :
    Accepts x fun d bytes a d' => bytes.length = n ∧ a = f bytes ∧ d' = d := by
  intro s a t
  rcases Nat.lt_or_ge s.rest.length n with hlt | hge
  · obtain ⟨e, -, herror⟩ := hx.error s hlt
    constructor
    · intro h
      rw [herror] at h
      cases h
    · rintro ⟨bytes, hrest, hlen, -, -⟩
      rw [hrest, List.length_append] at hlt
      omega
  · rw [hx.ok s hge]
    constructor
    · intro h
      cases h
      have hlen : (s.rest.take n).length = n := List.length_take_of_le hge
      refine ⟨s.rest.take n, (List.take_append_drop n s.rest).symm, hlen, ?_, rfl⟩
      rw [← hf _ (s.rest.drop n) hlen, List.take_append_drop]
    · rintro ⟨bytes, hrest, rfl, rfl, hstore⟩
      obtain ⟨rest, store⟩ := s
      obtain ⟨rest', store'⟩ := t
      obtain rfl : rest = bytes ++ rest' := hrest
      obtain rfl : store' = store := hstore
      simp only [hf bytes rest' rfl, List.drop_left]

/-- A result that is computed from the one read. -/
theorem map (hx : Accepts x R) (f : α → γ) :
    Accepts (do let a ← x; Pure.pure (f a)) fun d bytes c d' => ∃ a, R d bytes a d' ∧ c = f a := by
  refine (hx.bind fun a => Accepts.pure (f a)).congr fun d bytes c d'' => ?_
  constructor
  · rintro ⟨first, last, a, d', rfl, hR, rfl, rfl, rfl⟩
    exact ⟨a, by rwa [List.append_nil], rfl⟩
  · rintro ⟨a, hR, rfl⟩
    exact ⟨bytes, [], a, d'', (List.append_nil bytes).symm, hR, rfl, rfl, rfl⟩

/-- Items with an encoding, one after the other. -/
theorem many {encode : α → List β} {P : α → Prop}
    (hx : Accepts x fun d bytes a d' => P a ∧ bytes = encode a ∧ d' = d) (n : ℕ) :
    Accepts (Decode.many x n) fun d bytes as d' =>
      as.length = n ∧ (∀ a ∈ as, P a) ∧ bytes = as.flatMap encode ∧ d' = d := by
  induction n with
  | zero =>
      refine (Accepts.pure []).congr fun d bytes as d' => ?_
      constructor
      · rintro ⟨rfl, rfl, rfl⟩
        simp
      · rintro ⟨hlen, -, rfl, rfl⟩
        obtain rfl := List.length_eq_zero_iff.1 hlen
        simp
  | succ n ih =>
      refine (hx.bind fun a => ih.map fun as => a :: as).congr fun d bytes as d'' => ?_
      constructor
      · rintro ⟨first, last, a, d', rfl, ⟨ha, rfl, rfl⟩, as', ⟨rfl, has, rfl, rfl⟩, rfl⟩
        exact ⟨rfl, List.forall_mem_cons.2 ⟨ha, has⟩, rfl, rfl⟩
      · rintro ⟨hlen, hall, rfl, rfl⟩
        obtain ⟨a, as', rfl⟩ := List.exists_of_length_succ as hlen
        obtain ⟨ha, has⟩ := List.forall_mem_cons.1 hall
        exact ⟨encode a, as'.flatMap encode, a, d'', rfl, ⟨ha, rfl, rfl⟩, as',
          ⟨Nat.succ.inj hlen, has, rfl, rfl⟩, rfl⟩

end Accepts

end Decode
