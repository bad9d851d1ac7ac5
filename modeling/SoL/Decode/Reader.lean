import Mathlib.Tactic

/-!
# Readers of a byte stream

A reader takes bytes from a stream, builds up a store and may stop with an
error; what it has put into the store by then stays. `Reads E x n f` says that
`x` reads exactly `n` bytes and leaves the store alone: with enough bytes it
returns `f` of them, and otherwise it stops with an error of `E`, at the end of
the stream. The rules compose such readers: one after the other (`Reads.bind`)
and a number of times (`Reads.many`).
-/

namespace Decode

/-- The bytes left to read, and what has been built up so far. -/
structure Source (β δ : Type) where
  rest : List β
  store : δ

abbrev Reader (ε β δ : Type) := EStateM ε (Source β δ)

variable {ε β δ α γ : Type}

/-- Read `n` bytes. A short read takes what is left and stops. -/
def take (n : ℕ) (e : ε) : Reader ε β δ (List β) := fun s =>
  if n ≤ s.rest.length then .ok (s.rest.take n) { s with rest := s.rest.drop n }
  else .error e { s with rest := [] }

/-- Read `n` items one after the other. -/
def many (x : Reader ε β δ α) : ℕ → Reader ε β δ (List α)
  | 0 => pure []
  | n + 1 => do
      let a ← x
      let as ← many x n
      pure (a :: as)

/-- The items of `k` bytes each at the front of a stream. -/
def items (k : ℕ) (f : List β → α) : ℕ → List β → List α
  | 0, _ => []
  | n + 1, bytes => f bytes :: items k f n (bytes.drop k)

theorem bind_of_ok {x : Reader ε β δ α} {g : α → Reader ε β δ γ} {s t : Source β δ} {a : α}
    (h : x s = .ok a t) : (x >>= g) s = g a t := by
  simp only [bind, EStateM.bind, h]

theorem bind_of_error {x : Reader ε β δ α} {g : α → Reader ε β δ γ} {s t : Source β δ} {e : ε}
    (h : x s = .error e t) : (x >>= g) s = .error e t := by
  simp only [bind, EStateM.bind, h]

structure Reads (E : ε → Prop) (x : Reader ε β δ α) (n : ℕ) (f : List β → α) : Prop where
  ok : ∀ s, n ≤ s.rest.length → x s = .ok (f s.rest) { s with rest := s.rest.drop n }
  error : ∀ s, s.rest.length < n → ∃ e, E e ∧ x s = .error e { s with rest := [] }

namespace Reads

variable {E : ε → Prop} {x : Reader ε β δ α} {n m : ℕ} {f : List β → α}

theorem pure (a : α) : Reads E (Pure.pure a : Reader ε β δ α) 0 fun _ => a where
  ok := fun _ _ => rfl
  error := fun _ h => absurd h (Nat.not_lt_zero _)

theorem take {e : ε} (he : E e) (n : ℕ) :
    Reads E (Decode.take n e : Reader ε β δ (List β)) n fun bytes => bytes.take n where
  ok := fun _ h => if_pos h
  error := fun _ h => ⟨e, he, if_neg h.not_ge⟩

theorem bind {g : α → Reader ε β δ γ} {h : α → List β → γ} (hx : Reads E x n f)
    (hg : ∀ a, Reads E (g a) m (h a)) :
    Reads E (x >>= g) (n + m) fun bytes => h (f bytes) (bytes.drop n) where
  ok := by
    intro s hs
    have hn : n ≤ s.rest.length := (Nat.le_add_right n m).trans hs
    have hm : m ≤ (s.rest.drop n).length := by
      rw [List.length_drop]
      exact Nat.le_sub_of_add_le' hs
    rw [bind_of_ok (hx.ok s hn), (hg _).ok _ hm, List.drop_drop]
  error := by
    intro s hs
    rcases Nat.lt_or_ge s.rest.length n with hlt | hge
    · obtain ⟨e, he, herror⟩ := hx.error s hlt
      exact ⟨e, he, bind_of_error herror⟩
    · have hlt : (s.rest.drop n).length < m := by
        rw [List.length_drop]
        exact Nat.sub_lt_left_of_lt_add hge hs
      obtain ⟨e, he, herror⟩ := (hg (f s.rest)).error { s with rest := s.rest.drop n } hlt
      exact ⟨e, he, (bind_of_ok (hx.ok s hge)).trans herror⟩

theorem congr {g : List β → α} (hx : Reads E x n f) (h : ∀ bytes, f bytes = g bytes) :
    Reads E x n g := funext h ▸ hx

theorem map (hx : Reads E x n f) (g : α → γ) :
    Reads E (do let a ← x; Pure.pure (g a)) n fun bytes => g (f bytes) :=
  hx.bind fun a => Reads.pure (g a)

theorem many (hx : Reads E x n f) (k : ℕ) :
    Reads E (Decode.many x k) (n * k) fun bytes => items n f k bytes := by
  induction k with
  | zero => exact Reads.pure []
  | succ k ih =>
      have hstep := hx.bind fun a => ih.map fun as => a :: as
      rw [Nat.mul_succ, Nat.add_comm (n * k)]
      exact hstep

end Reads

theorem length_items (k : ℕ) (f : List β → α) (n : ℕ) (bytes : List β) :
    (items k f n bytes).length = n := by
  induction n generalizing bytes with
  | zero => rfl
  | succ n ih => simp [items, ih]

theorem forall_mem_items_iff {k n : ℕ} {f : List β → α} {bytes : List β} {P : α → Prop} :
    (∀ a ∈ items k f n bytes, P a) ↔ ∀ i < n, P (f (bytes.drop (k * i))) := by
  induction n generalizing bytes with
  | zero => simp [items]
  | succ n ih =>
      simp only [items, List.forall_mem_cons, ih, List.drop_drop]
      constructor
      · rintro ⟨hfirst, hrest⟩ i hi
        cases i with
        | zero => simpa using hfirst
        | succ i =>
            rw [Nat.mul_succ, Nat.add_comm]
            exact hrest i (Nat.lt_of_succ_lt_succ hi)
      · intro h
        refine ⟨by simpa using h 0 (Nat.succ_pos n), fun i hi => ?_⟩
        have := h (i + 1) (Nat.succ_lt_succ hi)
        rwa [Nat.mul_succ, Nat.add_comm] at this

end Decode
