import SoL.Base.TimeZone.Data

/-!
# The binary search for a type is a linear scan

`scanLocaltime` is what `findLocaltime` is for: the type of the last transition
that is not after the time searched, or the first type when every transition is
after it. When the keys are strictly increasing, the transitions that are not
after the time searched come first, and the binary search stops at the last of
them or right behind it (`findLocaltime_append`).
-/

namespace SoL

namespace Base

namespace TimeZone

open Container

namespace Comp

variable {comp : Comp} {lhs rhs : Transition}

/-- The time that a comparison looks at. -/
def key (comp : Comp) (t : Transition) : ℤ :=
  if comp.compareGmt then t.gmttime else t.localtime

theorem lt_iff : comp.lt lhs rhs = true ↔ comp.key lhs < comp.key rhs := by
  cases hgmt : comp.compareGmt <;> simp [lt, key, hgmt]

theorem lt_eq_false_iff : comp.lt lhs rhs = false ↔ comp.key rhs ≤ comp.key lhs := by
  rw [Bool.eq_false_iff, ne_eq, lt_iff, not_lt]

theorem equal_iff : comp.equal lhs rhs = true ↔ comp.key lhs = comp.key rhs := by
  cases hgmt : comp.compareGmt <;> simp [equal, key, hgmt]

end Comp

/-- The type of the last transition that is not after `sentry`, or the first
type. -/
def scanLocaltime (data : Data) (sentry : Transition) (comp : Comp) : Option Localtime :=
  match (data.transitions.filter fun entry => comp.key entry ≤ comp.key sentry).getLast? with
  | some entry => data.localtimes[entry.localtimeIdx]?
  | none => data.localtimes[0]?

/-- The keys are strictly increasing. -/
def Increasing (comp : Comp) (transitions : List Transition) : Prop :=
  transitions.Pairwise fun lhs rhs => comp.key lhs < comp.key rhs

instance (comp : Comp) (transitions : List Transition) :
    Decidable (Increasing comp transitions) :=
  inferInstanceAs (Decidable (transitions.Pairwise _))

section

variable {data : Data} {sentry : Transition} {comp : Comp} {before after : List Transition}

/-- Every transition is after the time searched. -/
theorem findLocaltime_of_after (hafter : ∀ entry ∈ data.transitions,
    comp.key sentry < comp.key entry) :
    findLocaltime data sentry comp = access data.localtimes 0 .localtimes := by
  unfold findLocaltime
  split
  case h_1 => rfl
  case h_2 front rest htrans =>
      have hlt : comp.lt sentry front = true := Comp.lt_iff.2 (hafter front (by simp [htrans]))
      rw [if_pos hlt]

/-- The last transition of `before` is the one that is found. -/
theorem findLocaltime_append {last : Transition}
    (htrans : data.transitions = before ++ [last] ++ after)
    (hincreasing : Increasing comp (before ++ [last]))
    (hlast : comp.key last ≤ comp.key sentry)
    (hafter : ∀ entry ∈ after, comp.key sentry < comp.key entry) :
    findLocaltime data sentry comp = access data.localtimes last.localtimeIdx .localtimes := by
  have hbefore : ∀ entry ∈ before, comp.key entry < comp.key last := by
    intro entry hentry
    exact (List.pairwise_append.1 hincreasing).2.2 entry hentry last List.mem_cons_self
  obtain ⟨front, rest, hfront⟩ : ∃ front rest, data.transitions = front :: rest := by
    rw [htrans]
    exact List.exists_cons_of_ne_nil (by simp)
  have hfrontMem : front ∈ before ++ [last] := by
    have hhead : (before ++ [last] ++ after).head? = some front := by rw [← htrans, hfront]; rfl
    rw [List.head?_append_of_ne_nil _ (by simp)] at hhead
    exact List.mem_of_mem_head? hhead
  have hnotBefore : comp.lt sentry front = false := by
    rw [Comp.lt_eq_false_iff]
    obtain hmem | hmem := List.mem_append.1 hfrontMem
    · exact (hbefore front hmem).le.trans hlast
    · obtain rfl := List.mem_singleton.1 hmem
      exact hlast
  have hafterTest : ∀ entry ∈ after, comp.lt entry sentry = false := by
    intro entry hentry
    exact Comp.lt_eq_false_iff.2 (hafter entry hentry).le
  unfold findLocaltime
  rw [hfront]
  simp only [hnotBefore, Bool.false_eq_true, if_false]
  rw [← hfront]
  by_cases hhit : comp.key last = comp.key sentry
  · -- an exact hit: the search stops at `last`
    have hpass : ∀ entry ∈ before, comp.lt entry sentry = true := fun entry hentry =>
      Comp.lt_iff.2 (hhit ▸ hbefore entry hentry)
    have hfail : ∀ entry ∈ last :: after, comp.lt entry sentry = false := by
      exact List.forall_mem_cons.2 ⟨Comp.lt_eq_false_iff.2 hhit.ge, hafterTest⟩
    have hbound := lowerBound_append hpass hfail
    have hlist : before ++ last :: after = data.transitions := by simp [htrans]
    have hget : data.transitions[before.length]? = some last := by simp [← hlist]
    rw [hlist] at hbound
    simp only [hbound, hget, Comp.equal_iff.2 hhit.symm, if_true]
  · -- otherwise it stops right behind `last`
    have hpass : ∀ entry ∈ before ++ [last], comp.lt entry sentry = true := by
      intro entry hentry
      obtain hmem | hmem := List.mem_append.1 hentry
      · exact Comp.lt_iff.2 ((hbefore entry hmem).trans_le hlast)
      · obtain rfl := List.mem_singleton.1 hmem
        exact Comp.lt_iff.2 (lt_of_le_of_ne hlast hhit)
    have hbound := lowerBound_append hpass hafterTest
    have hback : access data.transitions before.length .transitions = .ok last := by
      simp [access, htrans]
    rw [← htrans, List.length_append, List.length_singleton] at hbound
    simp only [hbound]
    split
    case h_1 entry hentry =>
        have hmem : entry ∈ after := by
          rw [htrans, List.getElem?_append_right (by simp)] at hentry
          exact List.mem_of_getElem? hentry
        have hequal : comp.equal sentry entry = false := by
          rw [Bool.eq_false_iff, ne_eq, Comp.equal_iff]
          exact (hafter entry hmem).ne
        simp only [hequal, Bool.false_eq_true, if_false, Nat.succ_ne_zero, Nat.add_sub_cancel,
          hback]
        rfl
    case h_2 hnone =>
        have hlen : data.transitions.length - 1 = before.length := by
          have hle := List.getElem?_eq_none_iff.1 hnone
          rw [htrans] at hle ⊢
          simp only [List.length_append, List.length_singleton] at hle ⊢
          omega
        rw [hlen, hback]
        rfl

/-- A time cuts the transitions into those that are not after it and those that
are. -/
theorem Increasing.exists_append {transitions : List Transition}
    (h : Increasing comp transitions) (time : ℤ) :
    ∃ before after, transitions = before ++ after ∧ (∀ entry ∈ before, comp.key entry ≤ time) ∧
      ∀ entry ∈ after, time < comp.key entry := by
  induction transitions with
  | nil => exact ⟨[], [], rfl, by simp, by simp⟩
  | cons first rest ih =>
      obtain ⟨hfirst, hrest⟩ := List.pairwise_cons.1 h
      by_cases hlt : time < comp.key first
      · refine ⟨[], first :: rest, rfl, by simp, List.forall_mem_cons.2 ⟨hlt, ?_⟩⟩
        exact fun entry hentry => hlt.trans (hfirst entry hentry)
      · obtain ⟨before, after, rfl, hbefore, hafter⟩ := ih hrest
        exact ⟨first :: before, after, rfl,
          List.forall_mem_cons.2 ⟨not_lt.1 hlt, hbefore⟩, hafter⟩

theorem filter_append_eq {time : ℤ} (hbefore : ∀ entry ∈ before, comp.key entry ≤ time)
    (hafter : ∀ entry ∈ after, time < comp.key entry) :
    (before ++ after).filter (fun entry => comp.key entry ≤ time) = before := by
  have hkeep : before.filter (fun entry => comp.key entry ≤ time) = before :=
    List.filter_eq_self.2 fun entry hentry => by simpa using hbefore entry hentry
  have hdrop : after.filter (fun entry => comp.key entry ≤ time) = [] :=
    List.filter_eq_nil_iff.2 fun entry hentry => by simpa using hafter entry hentry
  rw [List.filter_append, hkeep, hdrop, List.append_nil]

/-- The binary search finds the type that the scan finds, and its assertion never
fails. -/
theorem findLocaltime_eq_scanLocaltime (data : Data) (sentry : Transition) (comp : Comp)
    (hnonempty : data.localtimes ≠ []) (hincreasing : Increasing comp data.transitions)
    (hindex : ∀ entry ∈ data.transitions, entry.localtimeIdx < data.localtimes.length) :
    findLocaltime data sentry comp ≠ .error .assertion ∧
      ∃ type, findLocaltime data sentry comp = .ok type ∧
        scanLocaltime data sentry comp = some type := by
  suffices hfind : ∃ type, findLocaltime data sentry comp = .ok type ∧
      scanLocaltime data sentry comp = some type by
    refine ⟨fun herror => ?_, hfind⟩
    obtain ⟨type, hok, -⟩ := hfind
    simp [hok] at herror
  obtain ⟨before, after, htrans, hbefore, hafter⟩ :=
    hincreasing.exists_append (comp.key sentry)
  have hfilter := filter_append_eq hbefore hafter
  rw [← htrans] at hfilter
  unfold scanLocaltime
  rw [hfilter]
  cases before using List.reverseRecOn with
  | nil =>
      have hfirst : 0 < data.localtimes.length := List.length_pos_of_ne_nil hnonempty
      rw [List.nil_append] at htrans
      rw [findLocaltime_of_after (htrans ▸ hafter)]
      exact ⟨data.localtimes[0], by simp [access, hfirst], by simp [hfirst]⟩
  | append_singleton before last =>
      have hlast : last.localtimeIdx < data.localtimes.length :=
        hindex last (by simp [htrans])
      rw [htrans] at hincreasing
      rw [findLocaltime_append htrans (List.pairwise_append.1 hincreasing).1
        (hbefore last (by simp)) hafter]
      exact ⟨data.localtimes[last.localtimeIdx], by simp [access, hlast], by simp [hlast]⟩

end

/-- Daylight saving time between two transitions. -/
def oneSummer (offset shift : ℤ) : Data where
  transitions := [⟨100000, 100000 + offset + shift, 1⟩, ⟨900000, 900000 + offset, 0⟩]
  localtimes := [⟨offset, false, 0⟩, ⟨offset + shift, true, 4⟩]
  abbreviation := [67, 69, 84, 0, 67, 69, 83, 84, 0]

theorem findLocaltime_eq_scanLocaltime_oneSummer :
    (oneSummer 3600 3600).localtimes ≠ [] ∧ Increasing ⟨true⟩ (oneSummer 3600 3600).transitions ∧
      (∀ entry ∈ (oneSummer 3600 3600).transitions,
        entry.localtimeIdx < (oneSummer 3600 3600).localtimes.length) ∧
      scanLocaltime (oneSummer 3600 3600) ⟨200000, 0, 0⟩ ⟨true⟩ = some ⟨7200, true, 4⟩ ∧
      ∃ type, findLocaltime (oneSummer 3600 3600) ⟨200000, 0, 0⟩ ⟨true⟩ = .ok type ∧
        scanLocaltime (oneSummer 3600 3600) ⟨200000, 0, 0⟩ ⟨true⟩ = some type := by
  have hnonempty : (oneSummer 3600 3600).localtimes ≠ [] := by decide
  have hincreasing : Increasing ⟨true⟩ (oneSummer 3600 3600).transitions := by decide
  have hindex : ∀ entry ∈ (oneSummer 3600 3600).transitions,
      entry.localtimeIdx < (oneSummer 3600 3600).localtimes.length := by decide
  exact ⟨hnonempty, hincreasing, hindex, by decide,
    (findLocaltime_eq_scanLocaltime (oneSummer 3600 3600) ⟨200000, 0, 0⟩ ⟨true⟩ hnonempty
      hincreasing hindex).2⟩

end TimeZone

end Base

end SoL
