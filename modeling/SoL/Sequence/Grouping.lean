import Mathlib.Tactic

/-!
# Chunks made of whole lines

`Grouping lines chunks` says that the chunks are the concatenations of
consecutive groups of the lines: reading the chunks in order gives every line
once, in order, and no line is split over two chunks. The rules are the two
ways in which a writer extends the sequence: a line joins the last chunk, or a
new empty chunk is opened after it.

A reader that has only the first chunks has the first lines (`split`). An empty
line leaves no trace in a chunk, so statements about what a reader sees are made
of the lines that are not empty (`nonempty`).
-/

namespace Sequence

variable {α : Type*}

/-- The chunks are concatenations of consecutive groups of `lines`. -/
def Grouping (lines chunks : List (List α)) : Prop :=
  ∃ groups : List (List (List α)),
    groups.flatten = lines ∧ groups.map List.flatten = chunks

namespace Grouping

theorem single : Grouping ([] : List (List α)) [[]] := ⟨[[]], rfl, rfl⟩

theorem nil : Grouping ([] : List (List α)) [] := ⟨[], rfl, rfl⟩

/-- All lines in one chunk. -/
theorem flatten (lines : List (List α)) : Grouping lines [lines.flatten] :=
  ⟨[lines], by simp, rfl⟩

theorem append {lines lines' chunks chunks' : List (List α)} (h : Grouping lines chunks)
    (h' : Grouping lines' chunks') : Grouping (lines ++ lines') (chunks ++ chunks') := by
  obtain ⟨groups, rfl, rfl⟩ := h
  obtain ⟨groups', rfl, rfl⟩ := h'
  exact ⟨groups ++ groups', by simp, by simp⟩

/-- Of some of the chunks, the lines that they consist of. -/
theorem sublist {lines chunks chunks' : List (List α)} (h : Grouping lines chunks)
    (hsub : chunks'.Sublist chunks) :
    ∃ lines' : List (List α), lines'.Sublist lines ∧ Grouping lines' chunks' := by
  obtain ⟨groups, rfl, rfl⟩ := h
  obtain ⟨groups', hgroups, rfl⟩ := List.sublist_map_iff.1 hsub
  exact ⟨groups'.flatten, hgroups.flatten, groups', rfl, rfl⟩

/-- The chunks hold the elements of the lines, in order. -/
theorem flatten_eq {lines chunks : List (List α)} (h : Grouping lines chunks) :
    chunks.flatten = lines.flatten := by
  obtain ⟨groups, rfl, rfl⟩ := h
  exact List.flatten_flatten.symm

/-- A line that joins the last chunk. -/
theorem extend {lines chunks : List (List α)} {chunk : List α}
    (h : Grouping lines (chunks ++ [chunk])) (line : List α) :
    Grouping (lines ++ [line]) (chunks ++ [chunk ++ line]) := by
  obtain ⟨groups, rfl, hmap⟩ := h
  obtain ⟨first, last, rfl, rfl, hlast⟩ := List.map_eq_append_iff.1 hmap
  obtain ⟨group, rfl, rfl⟩ := List.map_eq_singleton_iff.1 hlast
  exact ⟨first ++ [group ++ [line]], by simp, by simp⟩

/-- A chunk opened at the end. -/
theorem opened {lines chunks : List (List α)} (h : Grouping lines chunks) :
    Grouping lines (chunks ++ [[]]) := by
  obtain ⟨groups, rfl, rfl⟩ := h
  exact ⟨groups ++ [[]], by simp, by simp⟩

/-- The first chunks are a grouping of the first lines. -/
theorem split {lines first last : List (List α)} (h : Grouping lines (first ++ last)) :
    ∃ seen unseen, lines = seen ++ unseen ∧ Grouping seen first := by
  obtain ⟨groups, rfl, hmap⟩ := h
  obtain ⟨done, rest, rfl, rfl, -⟩ := List.map_eq_append_iff.1 hmap
  exact ⟨done.flatten, rest.flatten, List.flatten_append, done, rfl, rfl⟩

/-- The chunks of some chunks are made of whole lines. -/
theorem trans {lines chunks files : List (List α)} (h : Grouping lines chunks)
    (h' : Grouping chunks files) : Grouping lines files := by
  obtain ⟨groups, rfl, rfl⟩ := h'
  induction groups generalizing lines with
  | nil =>
      obtain ⟨parts, rfl, hparts⟩ := h
      obtain rfl : parts = [] := by simpa using hparts
      exact nil
  | cons group groups ih =>
      obtain ⟨parts, rfl, hparts⟩ := h
      rw [List.flatten_cons] at hparts
      obtain ⟨first, last, rfl, rfl, hlast⟩ := List.map_eq_append_iff.1 hparts
      have hrest := ih ⟨last, rfl, hlast⟩
      have hfirst := flatten first.flatten
      rw [List.flatten_flatten] at hfirst
      rw [List.flatten_append, List.map_cons]
      exact hfirst.append hrest

/-- Every line stands in one chunk as a whole. -/
theorem exists_infix {lines chunks : List (List α)} (h : Grouping lines chunks)
    {line : List α} (hline : line ∈ lines) : ∃ chunk ∈ chunks, line <:+: chunk := by
  obtain ⟨groups, rfl, rfl⟩ := h
  obtain ⟨group, hgroup, hmem⟩ := List.mem_flatten.1 hline
  exact ⟨group.flatten, List.mem_map_of_mem hgroup, List.infix_of_mem_flatten hmem⟩

end Grouping

/-- The lines that are not empty. -/
def nonempty (lines : List (List α)) : List (List α) := lines.filter fun l => !l.isEmpty

@[simp] theorem nonempty_append (xs ys : List (List α)) :
    nonempty (xs ++ ys) = nonempty xs ++ nonempty ys := List.filter_append xs ys

@[simp] theorem flatten_nonempty (xs : List (List α)) : (nonempty xs).flatten = xs.flatten :=
  List.flatten_filter_not_isEmpty

theorem mem_nonempty {xs : List (List α)} {l : List α} :
    l ∈ nonempty xs ↔ l ∈ xs ∧ l ≠ [] := by
  simp [nonempty]

/-- Chunks do not show empty lines. -/
theorem Grouping.nonempty {lines chunks : List (List α)} (h : Grouping lines chunks) :
    Grouping (Sequence.nonempty lines) chunks := by
  obtain ⟨groups, rfl, rfl⟩ := h
  refine ⟨groups.map Sequence.nonempty, List.filter_flatten.symm, ?_⟩
  rw [List.map_map]
  exact List.map_congr_left fun group _ => flatten_nonempty group

/-- Of two beginnings of one sequence of lines, the one with no more bytes comes
first, once empty lines are left out. -/
theorem nonempty_prefix_of_length_le {xs ys zs : List (List α)} (hx : xs <+: zs)
    (hy : ys <+: zs) (hlen : xs.flatten.length ≤ ys.flatten.length) :
    nonempty xs <+: nonempty ys := by
  rcases List.prefix_or_prefix_of_prefix hx hy with ⟨rest, rfl⟩ | ⟨rest, rfl⟩
  · rw [nonempty_append]
    exact List.prefix_append _ _
  · rw [List.flatten_append, List.length_append] at hlen
    have hbytes : (nonempty rest).flatten = [] := by
      rw [flatten_nonempty, ← List.length_eq_zero_iff]
      omega
    have hrest : nonempty rest = [] := by
      refine List.eq_nil_iff_forall_not_mem.2 fun l hl => ?_
      exact (mem_nonempty.1 hl).2 (List.flatten_eq_nil_iff.1 hbytes l hl)
    rw [nonempty_append, hrest, List.append_nil]

end Sequence
