import Mathlib.Data.Nat.Notation
import Mathlib.Logic.Basic

/-!
# Labelled machines and their runs

A labelled machine is a partial step function: the label names the party that
moves and carries every choice the environment makes, so a run is a list of
labels and an interleaving is the order of that list. `exec` runs a list of
labels, `along P` says that every step taken by a run meets the step condition
`P`, and `always Q` says that every state visited meets the state condition
`Q`.

The rules are the ones a safety proof needs: an invariant that is kept by the
steps meeting a condition holds at the end of every run along that condition
(`exec_invariant`), and a state condition that is decided step by step holds
in every visited state exactly when every step meets the deciding condition
(`always_iff_along`). A progress proof gives a variant, which bounds the labels of
some of the parties in every run that does not reach the goal
(`countP_le_of_variant`).
-/

namespace Transition

/-- A labelled machine. `step s a = none` means that `a` is not enabled in
`s`. -/
structure Machine (σ α : Type*) where
  initial : σ → Prop
  step : σ → α → Option σ

namespace Machine

variable {σ α : Type*} (M : Machine σ α)

/-- Run the labels of a list one after the other; `none` as soon as one of
them is not enabled. -/
def exec : σ → List α → Option σ
  | s, [] => some s
  | s, a :: as => (M.step s a).bind fun t => exec t as

/-- Every step taken by the run of `as` from `s` meets `P`. -/
def along (P : σ → α → Prop) : σ → List α → Prop
  | _, [] => True
  | s, a :: as => ∀ t, M.step s a = some t → P s a ∧ along P t as

/-- Every state visited by the run of `as` from `s`, both ends included, meets
`Q`. -/
def always (Q : σ → Prop) : σ → List α → Prop
  | s, [] => Q s
  | s, a :: as => Q s ∧ ∀ t, M.step s a = some t → always Q t as

/-- The run is concrete, so a decidable step condition is decided along it. -/
instance decidableAlong (P : σ → α → Prop) [∀ s a, Decidable (P s a)] :
    ∀ s as, Decidable (M.along P s as)
  | _, [] => isTrue trivial
  | s, a :: as =>
      match h : M.step s a with
      | none => isTrue fun t ht => by simp [h] at ht
      | some t =>
          haveI := decidableAlong P t as
          decidable_of_iff (P s a ∧ M.along P t as) (by simp [along, h])

instance decidableAlways (Q : σ → Prop) [DecidablePred Q] :
    ∀ s as, Decidable (M.always Q s as)
  | s, [] => inferInstanceAs (Decidable (Q s))
  | s, a :: as =>
      match h : M.step s a with
      | none => decidable_of_iff (Q s) (by simp [always, h])
      | some t =>
          haveI := decidableAlways Q t as
          decidable_of_iff (Q s ∧ M.always Q t as) (by simp [always, h])

@[simp] theorem exec_nil (s : σ) : M.exec s [] = some s := rfl

theorem exec_cons (s : σ) (a : α) (as : List α) :
    M.exec s (a :: as) = (M.step s a).bind fun t => M.exec t as := rfl

theorem exec_cons_eq_some_iff (s : σ) (a : α) (as : List α) (u : σ) :
    M.exec s (a :: as) = some u ↔
      ∃ t, M.step s a = some t ∧ M.exec t as = some u := by
  rw [exec_cons, Option.bind_eq_some_iff]

/-- A step condition along a run restricts to the second part of the run. -/
theorem along_append_right {P : σ → α → Prop} {s t : σ} {as bs : List α}
    (h : M.along P s (as ++ bs)) (ht : M.exec s as = some t) :
    M.along P t bs := by
  induction as generalizing s with
  | nil =>
      obtain rfl : s = t := by simpa using ht
      exact h
  | cons a as ih =>
      obtain ⟨r, hr, hrt⟩ := (M.exec_cons_eq_some_iff s a as t).1 ht
      exact ih (h r hr).2 hrt

theorem along_append_left {P : σ → α → Prop} {s : σ} {as bs : List α}
    (h : M.along P s (as ++ bs)) : M.along P s as := by
  induction as generalizing s with
  | nil => trivial
  | cons a as ih =>
      intro t ht
      exact ⟨(h t ht).1, ih (h t ht).2⟩

theorem along_and {P R : σ → α → Prop} {s : σ} {as : List α} (hP : M.along P s as)
    (hR : M.along R s as) : M.along (fun s a => P s a ∧ R s a) s as := by
  induction as generalizing s with
  | nil => trivial
  | cons a as ih =>
      intro t ht
      exact ⟨⟨(hP t ht).1, (hR t ht).1⟩, ih (hP t ht).2 (hR t ht).2⟩

/-- The first state that a run visits. -/
theorem always_head {Q : σ → Prop} {s : σ} {as : List α} (h : M.always Q s as) : Q s := by
  cases as with
  | nil => exact h
  | cons a as => exact h.1

/-- The last state that a run visits. -/
theorem always_last {Q : σ → Prop} {s t : σ} {as : List α} (h : M.always Q s as)
    (ht : M.exec s as = some t) : Q t := by
  induction as generalizing s with
  | nil =>
      obtain rfl : s = t := by simpa using ht
      exact h
  | cons a as ih =>
      obtain ⟨r, hr, hrt⟩ := (M.exec_cons_eq_some_iff s a as t).1 ht
      exact ih (h.2 r hr) hrt

/-- An invariant of the steps along `P` holds in every state visited along
`P`. -/
theorem always_of_invariant {I : σ → Prop} {P : σ → α → Prop}
    (hstep : ∀ s a t, I s → P s a → M.step s a = some t → I t)
    {s : σ} {as : List α} (hs : I s) (hP : M.along P s as) : M.always I s as := by
  induction as generalizing s with
  | nil => exact hs
  | cons a as ih =>
      refine ⟨hs, fun t ht => ?_⟩
      have hPt := hP t ht
      exact ih (hstep s a t hs hPt.1 ht) hPt.2

theorem always_mono {Q R : σ → Prop} (hQR : ∀ s, Q s → R s) {s : σ} {as : List α}
    (h : M.always Q s as) : M.always R s as := by
  induction as generalizing s with
  | nil => exact hQR s h
  | cons a as ih => exact ⟨hQR s h.1, fun t ht => ih (h.2 t ht)⟩

/-- A condition on the labels alone is a step condition along every run of
them. -/
theorem along_of_forall_mem {P : α → Prop} {as : List α} (h : ∀ a ∈ as, P a) (s : σ) :
    M.along (fun _ a => P a) s as := by
  induction as generalizing s with
  | nil => trivial
  | cons a as ih =>
      intro t _
      exact ⟨h a List.mem_cons_self, ih (fun b hb => h b (List.mem_cons_of_mem a hb)) t⟩

/-- The invariant rule: what every step along `P` keeps holds at the end of
every run along `P`. -/
theorem exec_invariant {I : σ → Prop} {P : σ → α → Prop}
    (hstep : ∀ s a t, I s → P s a → M.step s a = some t → I t)
    {s t : σ} {as : List α} (hs : I s) (hP : M.along P s as)
    (hexec : M.exec s as = some t) : I t :=
  M.always_last (M.always_of_invariant hstep hs hP) hexec

/-- The invariant rule without a condition on the steps. -/
theorem exec_invariant_of_step {I : σ → Prop}
    (hstep : ∀ s a t, I s → M.step s a = some t → I t)
    {s t : σ} {as : List α} (hs : I s) (hexec : M.exec s as = some t) : I t := by
  have hfree : M.along (fun _ _ => True) s as := M.along_of_forall_mem (fun _ _ => trivial) s
  exact M.exec_invariant (fun s a t hI _ ht => hstep s a t hI ht) hs hfree hexec

/-- The invariant rule for a stretch of a run that stays in `Q`. -/
theorem exec_invariant_of_always {I Q : σ → Prop}
    (hstep : ∀ s a t, I s → Q s → Q t → M.step s a = some t → I t)
    {s t : σ} {as : List α} (hs : I s) (hQ : M.always Q s as)
    (hexec : M.exec s as = some t) : I t := by
  induction as generalizing s with
  | nil =>
      obtain rfl : s = t := by simpa using hexec
      exact hs
  | cons a as ih =>
      obtain ⟨r, hr, hrt⟩ := (M.exec_cons_eq_some_iff s a as t).1 hexec
      have hQr := hQ.2 r hr
      exact ih (hstep s a r hs hQ.1 (M.always_head hQr) hr) hQr hrt

/-- The simulation rule: where every step along `P` is answered by a step of
another machine with the same label, every run along `P` is answered by a run. -/
theorem exec_simulates {τ : Type*} (N : Machine τ α) {R : σ → τ → Prop} {P : σ → α → Prop}
    (hstep : ∀ s a t u, R s u → P s a → M.step s a = some t → ∃ v, N.step u a = some v ∧ R t v)
    {s t : σ} {u : τ} {as : List α} (hs : R s u) (hP : M.along P s as)
    (hexec : M.exec s as = some t) : ∃ v, N.exec u as = some v ∧ R t v := by
  induction as generalizing s u with
  | nil =>
      obtain rfl : s = t := by simpa using hexec
      exact ⟨u, rfl, hs⟩
  | cons a as ih =>
      obtain ⟨r, hr, hrt⟩ := (M.exec_cons_eq_some_iff s a as t).1 hexec
      have hPr := hP r hr
      obtain ⟨q, hq, hR⟩ := hstep s a r u hs hPr.1 hr
      obtain ⟨v, hv, hRv⟩ := ih hR hPr.2 hrt
      exact ⟨v, (N.exec_cons_eq_some_iff u a as v).2 ⟨q, hq, hv⟩, hRv⟩

/-- An invariant turns a step condition into any condition that follows from
it in the states of the invariant. -/
theorem along_of_invariant {I : σ → Prop} {P R : σ → α → Prop}
    (hstep : ∀ s a t, I s → P s a → M.step s a = some t → I t)
    (hR : ∀ s a t, I s → P s a → M.step s a = some t → R s a)
    {s : σ} {as : List α} (hs : I s) (hP : M.along P s as) :
    M.along R s as := by
  induction as generalizing s with
  | nil => trivial
  | cons a as ih =>
      intro t ht
      have hPt := hP t ht
      exact ⟨hR s a t hs hPt.1 ht, ih (hstep s a t hs hPt.1 ht) hPt.2⟩

/-- A state condition that holds at the start and that each step decides by
`P` holds in every visited state exactly when every step meets `P`. The
invariant `I` is available to the deciding step. -/
theorem always_iff_along {I Q : σ → Prop} {P : σ → α → Prop}
    (hstep : ∀ s a t, I s → M.step s a = some t → I t)
    (hdecide : ∀ s a t, I s → Q s → M.step s a = some t → (Q t ↔ P s a))
    {s : σ} (as : List α) (hs : I s) (hQ : Q s) :
    M.always Q s as ↔ M.along P s as := by
  induction as generalizing s with
  | nil => exact ⟨fun _ => trivial, fun _ => hQ⟩
  | cons a as ih =>
      constructor
      · intro h t ht
        have hQt : Q t := M.always_head (h.2 t ht)
        exact ⟨(hdecide s a t hs hQ ht).1 hQt,
          (ih (hstep s a t hs ht) hQt).1 (h.2 t ht)⟩
      · intro h
        refine ⟨hQ, fun t ht => ?_⟩
        have hQt : Q t := (hdecide s a t hs hQ ht).2 (h t ht).1
        exact (ih (hstep s a t hs ht) hQt).2 (h t ht).2

/-- The variant rule: as long as the goal `G` has not been reached, no step raises `f` and
every step by a label of `p` lowers it. Then a run that does not reach the goal has no more
such labels than `f` says at its start. -/
theorem countP_le_of_variant {I G : σ → Prop} {P : α → Prop} {p : α → Bool} {f : σ → ℕ}
    (hstep : ∀ s a t, I s → P a → M.step s a = some t →
      I t ∧ (G s → G t) ∧ (¬ G t → f t + (if p a then 1 else 0) ≤ f s))
    {s t : σ} {as : List α} (hs : I s) (hP : ∀ a ∈ as, P a) (hexec : M.exec s as = some t) :
    I t ∧ (G s → G t) ∧ (¬ G t → as.countP p + f t ≤ f s) := by
  induction as generalizing s with
  | nil =>
      obtain rfl : s = t := by simpa using hexec
      exact ⟨hs, id, by simp⟩
  | cons a as ih =>
      obtain ⟨r, hr, hrt⟩ := (M.exec_cons_eq_some_iff s a as t).1 hexec
      obtain ⟨hIr, hGr, hle⟩ := hstep s a r hs (hP a List.mem_cons_self) hr
      obtain ⟨hIt, hGt, hrest⟩ := ih hIr (fun b hb => hP b (List.mem_cons_of_mem a hb)) hrt
      refine ⟨hIt, fun h => hGt (hGr h), fun hnot => ?_⟩
      have hfirst := hle fun h => hnot (hGt h)
      have hlast := hrest hnot
      rw [List.countP_cons]
      omega

/-- Where every step by a label of `P` keeps `I` and lowers `f`, a run of such labels is no
longer than `f` at its start, and keeps `I`. -/
theorem length_le_of_variant {I : σ → Prop} {P : α → Prop} {f : σ → ℕ}
    (hstep : ∀ s a t, I s → P a → M.step s a = some t → I t ∧ f t < f s)
    {s t : σ} {as : List α} (hs : I s) (hP : ∀ a ∈ as, P a) (hexec : M.exec s as = some t) :
    I t ∧ as.length + f t ≤ f s := by
  obtain ⟨hIt, -, hcount⟩ := M.countP_le_of_variant (G := fun _ => False) (p := fun _ => true)
    (fun s a t hI hPa ht => ⟨(hstep s a t hI hPa ht).1, id, fun _ => (hstep s a t hI hPa ht).2⟩)
    hs hP hexec
  refine ⟨hIt, ?_⟩
  have hlength := hcount not_false
  rwa [List.countP_true] at hlength

/-- The counter rule: where a step by a label of `p` adds one to `f` and every other step
leaves it as it is, a run adds the number of such labels. -/
theorem exec_countP {p : α → Bool} {f : σ → ℕ}
    (hstep : ∀ s a t, M.step s a = some t → f t = f s + (if p a then 1 else 0))
    {s t : σ} {as : List α} (hexec : M.exec s as = some t) : f t = f s + as.countP p := by
  induction as generalizing s with
  | nil =>
      obtain rfl : s = t := by simpa using hexec
      simp
  | cons a as ih =>
      obtain ⟨r, hr, hrt⟩ := (M.exec_cons_eq_some_iff s a as t).1 hexec
      have hfirst := hstep s a r hr
      have hrest := ih hrt
      rw [List.countP_cons]
      omega

/-- The variant rule with credit: every step by a label of `p` lowers `f`, a step by a label
of `q` may raise it by `c`, and no other step raises it. Then the labels of `p` in a run are
paid for by `f` at its start and by the labels of `q`. -/
theorem countP_le_of_credit {I : σ → Prop} {P : α → Prop} {p q : α → Bool} {f : σ → ℕ} {c : ℕ}
    (hstep : ∀ s a t, I s → P a → M.step s a = some t →
      I t ∧ f t + (if p a then 1 else 0) ≤ f s + (if q a then c else 0))
    {s t : σ} {as : List α} (hs : I s) (hP : ∀ a ∈ as, P a) (hexec : M.exec s as = some t) :
    I t ∧ as.countP p + f t ≤ f s + c * as.countP q := by
  induction as generalizing s with
  | nil =>
      obtain rfl : s = t := by simpa using hexec
      exact ⟨hs, by simp⟩
  | cons a as ih =>
      obtain ⟨r, hr, hrt⟩ := (M.exec_cons_eq_some_iff s a as t).1 hexec
      obtain ⟨hIr, hfirst⟩ := hstep s a r hs (hP a List.mem_cons_self) hr
      obtain ⟨hIt, hrest⟩ := ih hIr (fun b hb => hP b (List.mem_cons_of_mem a hb)) hrt
      have hcredit : c * (a :: as).countP q = c * as.countP q + (if q a then c else 0) := by
        rw [List.countP_cons, Nat.mul_add]
        split <;> simp
      refine ⟨hIt, ?_⟩
      rw [List.countP_cons, hcredit]
      omega

end Machine

end Transition
