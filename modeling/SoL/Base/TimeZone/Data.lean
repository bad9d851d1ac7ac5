import SoL.Container.LowerBound

/-!
# Time zones and their lookups

`Data` is what a `TimeZone` has loaded: the transitions, the types of local time
and the text of the abbreviations. Every access to one of them is checked, and a
failed check is a `Fault`. `gmtime_r` and `timegm` are parameters, as are the
fields that they fill in. `time_t` is unbounded.

`Loaded` is the invariant of `Data` that the lookups rely on. It does not ask
for the transitions to be in order: the binary search stays in range on any
list, and it stops at the first transition only if that one is not before the
time searched.
-/

namespace SoL

namespace Base

namespace TimeZone

open Container

structure Transition where
  gmttime : ℤ
  localtime : ℤ
  localtimeIdx : ℕ
  deriving DecidableEq

structure Localtime where
  gmtOffset : ℤ
  isDst : Bool
  arrbIdx : ℕ
  deriving DecidableEq

structure Comp where
  compareGmt : Bool

namespace Comp

def lt (comp : Comp) (lhs rhs : Transition) : Bool :=
  if comp.compareGmt then lhs.gmttime < rhs.gmttime else lhs.localtime < rhs.localtime

def equal (comp : Comp) (lhs rhs : Transition) : Bool :=
  if comp.compareGmt then lhs.gmttime == rhs.gmttime else lhs.localtime == rhs.localtime

/-- Two transitions that are not before each other have equal keys. -/
theorem equal_of_not_lt {comp : Comp} {lhs rhs : Transition} (hlt : comp.lt lhs rhs = false)
    (hgt : comp.lt rhs lhs = false) : comp.equal lhs rhs = true := by
  obtain ⟨gmt⟩ := comp
  cases gmt with
  | true =>
      have hle : rhs.gmttime ≤ lhs.gmttime := by simpa [lt] using hlt
      have hge : lhs.gmttime ≤ rhs.gmttime := by simpa [lt] using hgt
      simpa [equal] using le_antisymm hge hle
  | false =>
      have hle : rhs.localtime ≤ lhs.localtime := by simpa [lt] using hlt
      have hge : lhs.localtime ≤ rhs.localtime := by simpa [lt] using hgt
      simpa [equal] using le_antisymm hge hle

end Comp

/-- `TimeZone::Data`. -/
structure Data where
  transitions : List Transition
  localtimes : List Localtime
  abbreviation : List UInt8
  deriving DecidableEq

/-- What is accessed out of range, or the assertion or the array bound that
fails. -/
inductive Fault
  | transitions
  | localtimes
  | abbreviation
  | assertion
  | arrayBound
  deriving DecidableEq

/-- `struct tm`; `tm_zone` is a position in `abbreviation`. -/
structure Tm where
  sec : ℤ
  min : ℤ
  hour : ℤ
  mday : ℤ
  mon : ℤ
  year : ℤ
  wday : ℤ
  yday : ℤ
  isdst : ℤ
  gmtoff : ℤ
  zone : Option ℕ
  deriving DecidableEq

/-- `operator[]` of a vector. -/
def access {α : Type*} (l : List α) (i : ℕ) (f : Fault) : Except Fault α :=
  match l[i]? with
  | some a => .ok a
  | none => .error f

def findLocaltime (data : Data) (sentry : Transition) (comp : Comp) :
    Except Fault Localtime :=
  match data.transitions with
  | [] => access data.localtimes 0 .localtimes
  | front :: _ =>
      if comp.lt sentry front then access data.localtimes 0 .localtimes
      else
        let transI := lowerBound data.transitions fun entry => comp.lt entry sentry
        match data.transitions[transI]? with
        | some entry =>
            if comp.equal sentry entry then access data.localtimes entry.localtimeIdx .localtimes
            else if transI = 0 then .error .assertion
            else do
              let before ← access data.transitions (transI - 1) .transitions
              access data.localtimes before.localtimeIdx .localtimes
        | none => do
            let back ← access data.transitions (data.transitions.length - 1) .transitions
            access data.localtimes back.localtimeIdx .localtimes

/-- `toLocalTime` on loaded data. -/
def toLocalTime (gmtime : ℤ → Tm) (data : Data) (seconds : ℤ) : Except Fault Tm := do
  let found ← findLocaltime data ⟨seconds, 0, 0⟩ ⟨true⟩
  if found.arrbIdx ≤ data.abbreviation.length then
    return { gmtime (seconds + found.gmtOffset) with
      isdst := if found.isDst then 1 else 0
      gmtoff := found.gmtOffset
      zone := some found.arrbIdx }
  else throw .abbreviation

/-- `fromLocalTime` on loaded data. -/
def fromLocalTime (gmtime : ℤ → Tm) (timegm : Tm → ℤ) (data : Data) (localTm : Tm) :
    Except Fault ℤ := do
  let seconds := timegm localTm
  let found ← findLocaltime data ⟨0, seconds, 0⟩ ⟨false⟩
  if localTm.isdst ≠ 0 then
    let tryTm ← toLocalTime gmtime data (seconds - found.gmtOffset)
    if tryTm.isdst = 0 ∧ tryTm.hour = localTm.hour ∧ tryTm.min = localTm.min then
      return seconds - 3600 - found.gmtOffset
    else return seconds - found.gmtOffset
  else return seconds - found.gmtOffset

/-- The invariant of loaded data that every lookup relies on. -/
structure Loaded (data : Data) : Prop where
  nonempty : data.localtimes ≠ []
  index : ∀ entry ∈ data.transitions, entry.localtimeIdx < data.localtimes.length
  abbreviation : ∀ type ∈ data.localtimes, type.arrbIdx ≤ data.abbreviation.length

theorem access_eq_ok {α : Type*} {l : List α} {i : ℕ} (h : i < l.length) (f : Fault) :
    ∃ a ∈ l, access l i f = .ok a :=
  ⟨l[i], List.getElem_mem h, by simp [access, h]⟩

/-- An access to a transition and then to its type. -/
theorem access_bind_eq_ok {data : Data} (h : Loaded data) {i : ℕ}
    (hi : i < data.transitions.length) :
    ∃ type ∈ data.localtimes,
      (do let entry ← access data.transitions i .transitions
          access data.localtimes entry.localtimeIdx .localtimes) = .ok type := by
  obtain ⟨entry, hentry, haccess⟩ := access_eq_ok hi .transitions
  rw [haccess]
  exact access_eq_ok (h.index entry hentry) .localtimes

/-- In loaded data every search finds a type. -/
theorem findLocaltime_eq_ok {data : Data} (h : Loaded data) (sentry : Transition)
    (comp : Comp) : ∃ type ∈ data.localtimes, findLocaltime data sentry comp = .ok type := by
  have hfirst := access_eq_ok (List.length_pos_iff.2 h.nonempty) .localtimes
  unfold findLocaltime
  split
  case h_1 => exact hfirst
  case h_2 front rest htrans =>
      cases hlt : comp.lt sentry front with
      | true => exact hfirst
      | false =>
          simp only [Bool.false_eq_true, if_false]
          have hbound := lowerBound_le data.transitions fun entry => comp.lt entry sentry
          split
          case h_1 entry hentry =>
              cases hequal : comp.equal sentry entry with
              | true => exact access_eq_ok (h.index entry (List.mem_of_getElem? hentry)) _
              | false =>
                  simp only [Bool.false_eq_true, if_false]
                  split
                  case isTrue hzero =>
                      -- the search has not moved, so the first transition has the key searched
                      rw [htrans] at hzero hentry
                      rw [hzero] at hentry
                      obtain rfl : front = entry := by simpa using hentry
                      have hge := test_head_eq_false hzero
                      simp [Comp.equal_of_not_lt hlt hge] at hequal
                  case isFalse hpos =>
                      exact access_bind_eq_ok h (by omega)
          case h_2 =>
              refine access_bind_eq_ok h ?_
              rw [htrans]
              exact Nat.lt_succ_self _

theorem toLocalTime_eq_ok {data : Data} (h : Loaded data) (gmtime : ℤ → Tm) (seconds : ℤ) :
    ∃ tm, toLocalTime gmtime data seconds = .ok tm := by
  obtain ⟨type, htype, hfind⟩ := findLocaltime_eq_ok h ⟨seconds, 0, 0⟩ ⟨true⟩
  unfold toLocalTime
  rw [hfind]
  exact ⟨_, if_pos (h.abbreviation type htype)⟩

theorem fromLocalTime_eq_ok {data : Data} (h : Loaded data) (gmtime : ℤ → Tm)
    (timegm : Tm → ℤ) (localTm : Tm) :
    ∃ seconds, fromLocalTime gmtime timegm data localTm = .ok seconds := by
  obtain ⟨type, htype, hfind⟩ := findLocaltime_eq_ok h ⟨0, timegm localTm, 0⟩ ⟨false⟩
  obtain ⟨tryTm, htry⟩ := toLocalTime_eq_ok h gmtime (timegm localTm - type.gmtOffset)
  unfold fromLocalTime
  simp only [hfind]
  by_cases hdst : localTm.isdst ≠ 0
  · by_cases hsame : tryTm.isdst = 0 ∧ tryTm.hour = localTm.hour ∧ tryTm.min = localTm.min
    · exact ⟨_, (if_pos hdst).trans (by rw [htry]; exact if_pos hsame)⟩
    · exact ⟨_, (if_pos hdst).trans (by rw [htry]; exact if_neg hsame)⟩
  · exact ⟨_, if_neg hdst⟩

end TimeZone

end Base

end SoL
