import SoL.Base.TimeZone.Lookup

/-!
# Local time and back

`toLocalTime` looks a time up among the transitions by `gmttime`, and
`fromLocalTime` looks the local time up by `localtime`. The two find the same type
except in the interval that is repeated when the offset goes down: there the
second search is one transition ahead, and `fromLocalTime` takes an hour off
whatever the offset went down by. So a time comes back exactly when it is not in
an interval that is repeated by another amount than one hour (`roundTrips_iff`).
-/

namespace SoL

namespace Base

namespace TimeZone

/-- The type in effect after the first `k` transitions. -/
def typeAfter (data : Data) : ℕ → Option Localtime
  | 0 => data.localtimes[0]?
  | k + 1 => data.transitions[k]?.bind fun entry => data.localtimes[entry.localtimeIdx]?

/-- Transition number `k` with the types before and after it. -/
structure Change (data : Data) (k : ℕ) (entry : Transition) (old new : Localtime) : Prop where
  index : data.transitions[k]? = some entry
  before : typeAfter data k = some old
  after : data.localtimes[entry.localtimeIdx]? = some new

/-- Zones as they occur: the transitions are in order and further apart than the
offset ever moves, and the offset goes down only at the end of daylight saving
time. -/
structure Regular (data : Data) : Prop where
  loaded : Loaded data
  gmttime : Increasing ⟨true⟩ data.transitions
  localtime : Increasing ⟨false⟩ data.transitions
  localtime_eq : ∀ {k entry old new}, Change data k entry old new →
    entry.localtime = entry.gmttime + new.gmtOffset
  spaced : ∀ {k entry next}, data.transitions[k]? = some entry →
    data.transitions[k + 1]? = some next → ∀ {j change old new}, Change data j change old new →
      |new.gmtOffset - old.gmtOffset| < next.gmttime - entry.gmttime
  decrease : ∀ {k entry old new}, Change data k entry old new → new.gmtOffset < old.gmtOffset →
    old.isDst = true ∧ new.isDst = false

/-- `timegm` inverts `gmtime_r`, whatever the fields say that it does not read. -/
def Inverts (gmtime : ℤ → Tm) (timegm : Tm → ℤ) : Prop :=
  ∀ seconds isdst gmtoff zone, timegm { gmtime seconds with
    isdst := isdst
    gmtoff := gmtoff
    zone := zone } = seconds

def RoundTrips (gmtime : ℤ → Tm) (timegm : Tm → ℤ) (data : Data) (seconds : ℤ) : Prop :=
  ∃ tm, toLocalTime gmtime data seconds = .ok tm ∧
    fromLocalTime gmtime timegm data tm = .ok seconds

/-- The broken-down time in a zone of this type. -/
def localTm (gmtime : ℤ → Tm) (type : Localtime) (time : ℤ) : Tm :=
  { gmtime (time + type.gmtOffset) with
    isdst := if type.isDst then 1 else 0
    gmtoff := type.gmtOffset
    zone := some type.arrbIdx }

/-- The first `k` transitions are those that are not after `time`. -/
def Position (comp : Comp) (transitions : List Transition) (time : ℤ) (k : ℕ) : Prop :=
  k ≤ transitions.length ∧
    ∀ {j entry}, transitions[j]? = some entry → (comp.key entry ≤ time ↔ j < k)

section

variable {data : Data} {comp : Comp} {sentry : Transition} {k : ℕ} {type : Localtime} {time : ℤ}
  {gmtime : ℤ → Tm} {timegm : Tm → ℤ}

theorem Increasing.lt {transitions : List Transition} (h : Increasing comp transitions) {i j : ℕ}
    {lhs rhs : Transition} (hlhs : transitions[i]? = some lhs) (hrhs : transitions[j]? = some rhs)
    (hij : i < j) : comp.key lhs < comp.key rhs := by
  obtain ⟨hi, rfl⟩ := List.getElem?_eq_some_iff.1 hlhs
  obtain ⟨hj, rfl⟩ := List.getElem?_eq_some_iff.1 hrhs
  exact List.pairwise_iff_getElem.1 h i j hi hj hij

theorem Increasing.exists_position {transitions : List Transition}
    (h : Increasing comp transitions) (time : ℤ) : ∃ k, Position comp transitions time k := by
  obtain ⟨before, after, rfl, hbefore, hafter⟩ := h.exists_append time
  refine ⟨before.length, by simp, fun {j entry} hentry => ?_⟩
  rcases Nat.lt_or_ge j before.length with hlt | hge
  · rw [List.getElem?_append_left hlt] at hentry
    exact iff_of_true (hbefore entry (List.mem_of_getElem? hentry)) hlt
  · rw [List.getElem?_append_right hge] at hentry
    refine iff_of_false (not_le.2 (hafter entry (List.mem_of_getElem? hentry))) (not_lt.2 hge)

theorem Position.lt {transitions : List Transition} (h : Position comp transitions time k)
    {entry : Transition} (hentry : transitions[k]? = some entry) : time < comp.key entry := by
  by_contra hle
  exact absurd ((h.2 hentry).1 (not_lt.1 hle)) (lt_irrefl k)

/-- The first transition after `time` and the last one that is not decide the
position. -/
theorem Increasing.position {transitions : List Transition} (h : Increasing comp transitions)
    (hk : k ≤ transitions.length)
    (hbefore : ∀ {j entry}, j + 1 = k → transitions[j]? = some entry → comp.key entry ≤ time)
    (hafter : ∀ {entry}, transitions[k]? = some entry → time < comp.key entry) :
    Position comp transitions time k := by
  refine ⟨hk, fun {j entry} hentry => ⟨fun hle => ?_, fun hlt => ?_⟩⟩
  · by_contra hge
    have hj := (List.getElem?_eq_some_iff.1 hentry).1
    have hget : transitions[k]? = some transitions[k] := List.getElem?_eq_getElem (by omega)
    have htime := hafter hget
    rcases Nat.lt_or_ge k j with hkj | hjk
    · exact absurd (h.lt hget hentry hkj) (by omega)
    · obtain rfl : j = k := by omega
      exact absurd (hafter hentry) (not_lt.2 hle)
  · have hget : transitions[k - 1]? = some transitions[k - 1] :=
      List.getElem?_eq_getElem (by omega)
    have htime := hbefore (by omega) hget
    rcases Nat.lt_or_ge j (k - 1) with hjk | hkj
    · exact (h.lt hentry hget hjk).le.trans htime
    · exact hbefore (by omega) hentry

theorem Loaded.exists_typeAfter (h : Loaded data) (hk : k ≤ data.transitions.length) :
    ∃ type ∈ data.localtimes, typeAfter data k = some type := by
  cases k with
  | zero =>
      have hpos := List.length_pos_of_ne_nil h.nonempty
      exact ⟨data.localtimes[0], List.getElem_mem hpos, by simp [typeAfter, hpos]⟩
  | succ k =>
      have hlt : k < data.transitions.length := hk
      have hindex := h.index data.transitions[k] (List.getElem_mem hlt)
      exact ⟨data.localtimes[data.transitions[k].localtimeIdx], List.getElem_mem hindex,
        by simp [typeAfter, hlt, hindex]⟩

/-- The search finds the type in effect at the position of the time searched. -/
theorem findLocaltime_of_position (hincreasing : Increasing comp data.transitions)
    (hposition : Position comp data.transitions (comp.key sentry) k)
    (htype : typeAfter data k = some type) : findLocaltime data sentry comp = .ok type := by
  have hafter : ∀ entry ∈ data.transitions.drop k, comp.key sentry < comp.key entry := by
    intro entry hentry
    obtain ⟨j, hj⟩ := List.mem_iff_getElem?.1 hentry
    rw [List.getElem?_drop] at hj
    exact not_le.1 fun hle => absurd ((hposition.2 hj).1 hle) (by omega)
  cases k with
  | zero =>
      rw [findLocaltime_of_after (by simpa using hafter)]
      have hget : data.localtimes[0]? = some type := htype
      simp [access, hget]
  | succ k =>
      have hk : k < data.transitions.length := hposition.1
      have hget : data.transitions[k]? = some data.transitions[k] := List.getElem?_eq_getElem hk
      have htake : data.transitions = data.transitions.take k ++ [data.transitions[k]] ++
          data.transitions.drop (k + 1) := by
        rw [List.take_append_getElem hk, List.take_append_drop]
      have hfirst : Increasing comp (data.transitions.take k ++ [data.transitions[k]]) := by
        rw [List.take_append_getElem hk]
        exact hincreasing.sublist (List.take_sublist _ _)
      rw [findLocaltime_append htake hfirst ((hposition.2 hget).2 (Nat.lt_succ_self k)) hafter]
      have hlocal : data.localtimes[data.transitions[k].localtimeIdx]? = some type := by
        simpa [typeAfter, hget] using htype
      simp [access, hlocal]

theorem toLocalTime_of_position (h : Regular data) (gmtime : ℤ → Tm)
    (hposition : Position ⟨true⟩ data.transitions time k) (htype : typeAfter data k = some type) :
    toLocalTime gmtime data time = .ok (localTm gmtime type time) := by
  obtain ⟨found, hfound, hafter⟩ := h.loaded.exists_typeAfter hposition.1
  obtain rfl : type = found := Option.some.inj (htype.symm.trans hafter)
  have hfind : findLocaltime data ⟨time, 0, 0⟩ ⟨true⟩ = .ok type :=
    findLocaltime_of_position h.gmttime hposition htype
  unfold toLocalTime
  rw [hfind]
  exact if_pos (h.loaded.abbreviation type hfound)

/-- The times of a transition are not after a time and the local time that belongs
to it together. -/
theorem Regular.localtime_le_iff (h : Regular data) {entry : Transition} {old new : Localtime}
    (hchange : Change data k entry old new) :
    entry.localtime ≤ time + new.gmtOffset ↔ entry.gmttime ≤ time := by
  rw [h.localtime_eq hchange]
  omega

theorem Regular.exists_change (h : Regular data) {entry : Transition}
    (hentry : data.transitions[k]? = some entry) : ∃ old new, Change data k entry old new := by
  have hk := (List.getElem?_eq_some_iff.1 hentry).1
  obtain ⟨old, -, hold⟩ := h.loaded.exists_typeAfter hk.le
  have hindex := h.loaded.index entry (List.mem_of_getElem? hentry)
  exact ⟨old, data.localtimes[entry.localtimeIdx], hentry, hold, by simp [hindex]⟩

theorem Change.typeAfter_succ {entry : Transition} {old new : Localtime}
    (h : Change data k entry old new) : typeAfter data (k + 1) = some new := by
  simp [typeAfter, h.index, h.after]

/-- A time in an interval that is repeated is right before the transition that
repeats it. -/
theorem Regular.eq_position (h : Regular data) {j : ℕ} {entry : Transition}
    {old new : Localtime} (hposition : Position ⟨true⟩ data.transitions time k)
    (hchange : Change data j entry old new)
    (hge : entry.gmttime - (old.gmtOffset - new.gmtOffset) ≤ time) (hlt : time < entry.gmttime) :
    j = k := by
  have hkj : k ≤ j := by
    by_contra hjk
    exact absurd ((hposition.2 hchange.index).2 (not_le.1 hjk)) (not_le.2 hlt)
  by_contra hne
  have hj := (List.getElem?_eq_some_iff.1 hchange.index).1
  have hget : data.transitions[j - 1]? = some data.transitions[j - 1] :=
    List.getElem?_eq_getElem (by omega)
  -- the transition before `entry` is after `time` too, and further away than the interval
  have hafter : ¬ Comp.key ⟨true⟩ data.transitions[j - 1] ≤ time := fun hle =>
    absurd ((hposition.2 hget).1 hle) (by omega)
  have hindex : data.transitions[j - 1 + 1]? = some entry := by
    rw [Nat.sub_add_cancel (by omega)]
    exact hchange.index
  have hspaced := h.spaced hget hindex hchange
  rw [abs_lt] at hspaced
  have hkey : time < data.transitions[j - 1].gmttime := not_le.1 hafter
  omega

/-- Outside the repeated intervals both searches find the same type. -/
theorem Regular.position_of_lt (h : Regular data)
    (hposition : Position ⟨true⟩ data.transitions time k) (htype : typeAfter data k = some type)
    (hlt : ∀ {entry}, data.transitions[k]? = some entry → time + type.gmtOffset < entry.localtime) :
    Position ⟨false⟩ data.transitions (time + type.gmtOffset) k := by
  refine h.localtime.position hposition.1 (fun {j entry} hj hentry => ?_) hlt
  obtain ⟨old, new, hchange⟩ := h.exists_change hentry
  subst hj
  obtain rfl : type = new := Option.some.inj (htype.symm.trans hchange.typeAfter_succ)
  exact (h.localtime_le_iff hchange).2 ((hposition.2 hentry).2 (Nat.lt_succ_self j))

/-- Inside one the search by local time is one transition ahead. -/
theorem Regular.position_of_ge (h : Regular data) {entry : Transition} {old new : Localtime}
    (hposition : Position ⟨true⟩ data.transitions time k) (hchange : Change data k entry old new)
    (hge : entry.localtime ≤ time + old.gmtOffset) :
    Position ⟨false⟩ data.transitions (time + old.gmtOffset) (k + 1) ∧
      Position ⟨true⟩ data.transitions (time + (old.gmtOffset - new.gmtOffset)) (k + 1) := by
  have hk : k + 1 ≤ data.transitions.length := (List.getElem?_eq_some_iff.1 hchange.index).1
  have hlt : time < entry.gmttime := hposition.lt hchange.index
  have hlocal := h.localtime_eq hchange
  have hdecrease := h.decrease hchange (by omega)
  constructor
  · refine h.localtime.position hk (fun {j before} hj hbefore => ?_) fun {next} hnext => ?_
    · obtain rfl : j = k := by omega
      rw [hchange.index] at hbefore
      obtain rfl := Option.some.inj hbefore
      exact hge
    · obtain ⟨mid, after, hafter⟩ := h.exists_change hnext
      obtain rfl : new = mid := Option.some.inj (hchange.typeAfter_succ.symm.trans hafter.before)
      -- the offset cannot go down twice in a row
      have hup : new.gmtOffset ≤ after.gmtOffset := by
        by_contra hdown
        simp [(h.decrease hafter (not_le.1 hdown)).1] at hdecrease
      have hspaced := h.spaced hchange.index hnext hchange
      rw [abs_lt] at hspaced
      have hnextLocal := h.localtime_eq hafter
      change time + old.gmtOffset < next.localtime
      omega
  · refine h.gmttime.position hk (fun {j before} hj hbefore => ?_) fun {next} hnext => ?_
    · obtain rfl : j = k := by omega
      rw [hchange.index] at hbefore
      obtain rfl := Option.some.inj hbefore
      change entry.gmttime ≤ _
      omega
    · have hspaced := h.spaced hchange.index hnext hchange
      rw [abs_lt] at hspaced
      change _ < next.gmttime
      omega

theorem fromLocalTime_of_lt (h : Regular data) (hinverts : Inverts gmtime timegm)
    (hposition : Position ⟨true⟩ data.transitions time k) (htype : typeAfter data k = some type)
    (hlt : ∀ {entry}, data.transitions[k]? = some entry → time + type.gmtOffset < entry.localtime) :
    fromLocalTime gmtime timegm data (localTm gmtime type time) = .ok time := by
  have hseconds : timegm (localTm gmtime type time) = time + type.gmtOffset := hinverts _ _ _ _
  have hfind : findLocaltime data ⟨0, time + type.gmtOffset, 0⟩ ⟨false⟩ = .ok type :=
    findLocaltime_of_position h.localtime (h.position_of_lt hposition htype hlt) htype
  have htry := toLocalTime_of_position h gmtime hposition htype
  have hback : time + type.gmtOffset - type.gmtOffset = time := add_sub_cancel_right _ _
  unfold fromLocalTime
  simp only [hseconds, hfind]
  by_cases hdst : (localTm gmtime type time).isdst ≠ 0
  · refine (if_pos hdst).trans ?_
    rw [hback, htry]
    exact if_neg fun hsame => hdst hsame.1
  · refine (if_neg hdst).trans ?_
    rw [hback]
    rfl

/-- In a repeated interval an hour is taken off, and not what the offset goes down
by. -/
theorem fromLocalTime_of_ge (h : Regular data) (hinverts : Inverts gmtime timegm)
    {entry : Transition} {old new : Localtime}
    (hposition : Position ⟨true⟩ data.transitions time k) (hchange : Change data k entry old new)
    (hge : entry.localtime ≤ time + old.gmtOffset) :
    fromLocalTime gmtime timegm data (localTm gmtime old time) =
      .ok (time + (old.gmtOffset - new.gmtOffset) - 3600) := by
  have hlt : time < entry.gmttime := hposition.lt hchange.index
  have hlocal := h.localtime_eq hchange
  obtain ⟨hold, hnew⟩ := h.decrease hchange (by omega)
  obtain ⟨hlocalPosition, hgmtPosition⟩ := h.position_of_ge hposition hchange hge
  have hseconds : timegm (localTm gmtime old time) = time + old.gmtOffset := hinverts _ _ _ _
  have hfind : findLocaltime data ⟨0, time + old.gmtOffset, 0⟩ ⟨false⟩ = .ok new :=
    findLocaltime_of_position h.localtime hlocalPosition hchange.typeAfter_succ
  have htry := toLocalTime_of_position h gmtime hgmtPosition hchange.typeAfter_succ
  have hsame : localTm gmtime new (time + (old.gmtOffset - new.gmtOffset)) =
      { localTm gmtime old time with
        isdst := 0
        gmtoff := new.gmtOffset
        zone := some new.arrbIdx } := by
    have hlocalTime : time + (old.gmtOffset - new.gmtOffset) + new.gmtOffset =
        time + old.gmtOffset := by ring
    simp [localTm, hlocalTime, hnew]
  have hshift : time + old.gmtOffset - new.gmtOffset =
      time + (old.gmtOffset - new.gmtOffset) := by ring
  have hdst : (localTm gmtime old time).isdst ≠ 0 := by simp [localTm, hold]
  unfold fromLocalTime
  simp only [hseconds, hfind]
  refine (if_pos hdst).trans ?_
  rw [hshift, htry, hsame]
  refine (if_pos ⟨rfl, rfl, rfl⟩).trans ?_
  have hresult : time + old.gmtOffset - 3600 - new.gmtOffset =
      time + (old.gmtOffset - new.gmtOffset) - 3600 := by ring
  rw [hresult]
  rfl

/-- A time comes back exactly when every interval that it is repeated in is one hour
long. -/
theorem roundTrips_iff (gmtime : ℤ → Tm) (timegm : Tm → ℤ) (data : Data) (h : Regular data)
    (hinverts : Inverts gmtime timegm) (time : ℤ) :
    RoundTrips gmtime timegm data time ↔
      ∀ k entry old new, Change data k entry old new →
        entry.gmttime - (old.gmtOffset - new.gmtOffset) ≤ time → time < entry.gmttime →
          old.gmtOffset - new.gmtOffset = 3600 := by
  obtain ⟨k, hposition⟩ := h.gmttime.exists_position time
  obtain ⟨type, -, htype⟩ := h.loaded.exists_typeAfter hposition.1
  have hto := toLocalTime_of_position h gmtime hposition htype
  have hround : RoundTrips gmtime timegm data time ↔
      fromLocalTime gmtime timegm data (localTm gmtime type time) = .ok time := by
    constructor
    · rintro ⟨tm, htm, hfrom⟩
      obtain rfl := Except.ok.inj (hto.symm.trans htm)
      exact hfrom
    · intro hfrom
      exact ⟨_, hto, hfrom⟩
  rw [hround]
  by_cases hrepeated : ∃ entry, data.transitions[k]? = some entry ∧
      entry.localtime ≤ time + type.gmtOffset
  · obtain ⟨entry, hentry, hge⟩ := hrepeated
    obtain ⟨old, new, hchange⟩ := h.exists_change hentry
    obtain rfl : type = old := Option.some.inj (htype.symm.trans hchange.before)
    rw [fromLocalTime_of_ge h hinverts hposition hchange hge, Except.ok.injEq]
    have hlocal := h.localtime_eq hchange
    have hlt : time < entry.gmttime := hposition.lt hentry
    constructor
    · intro hhour j entry' old' new' hchange' hge' hlt'
      obtain rfl := h.eq_position hposition hchange' hge' hlt'
      obtain rfl := Option.some.inj (hentry.symm.trans hchange'.index)
      obtain rfl := Option.some.inj (hchange.before.symm.trans hchange'.before)
      obtain rfl := Option.some.inj (hchange.after.symm.trans hchange'.after)
      omega
    · intro hhour
      have := hhour k entry type new hchange (by omega) hlt
      omega
  · have hlt : ∀ {entry}, data.transitions[k]? = some entry →
        time + type.gmtOffset < entry.localtime := fun {entry} hentry =>
      not_le.1 fun hge => hrepeated ⟨entry, hentry, hge⟩
    refine iff_of_true (fromLocalTime_of_lt h hinverts hposition htype hlt) ?_
    intro j entry old new hchange hge hlt'
    obtain rfl := h.eq_position hposition hchange hge hlt'
    obtain rfl : type = old := Option.some.inj (htype.symm.trans hchange.before)
    have hafter := hlt hchange.index
    rw [h.localtime_eq hchange] at hafter
    omega

end

/-- `gmtime_r` in January 1970, and beyond it with the day of the month going on. -/
def januaryGmtime (seconds : ℤ) : Tm where
  sec := seconds % 60
  min := seconds / 60 % 60
  hour := seconds / 3600 % 24
  mday := seconds / 86400 + 1
  mon := 0
  year := 70
  wday := (4 + seconds / 86400) % 7
  yday := seconds / 86400
  isdst := 0
  gmtoff := 0
  zone := none

/-- `timegm` in January 1970, with any day of the month. -/
def januaryTimegm (tm : Tm) : ℤ := (tm.mday - 1) * 86400 + tm.hour * 3600 + tm.min * 60 + tm.sec

theorem inverts_january : Inverts januaryGmtime januaryTimegm := by
  intro seconds isdst gmtoff zone
  simp only [januaryTimegm, januaryGmtime]
  omega

theorem change_oneSummer {offset shift : ℤ} {k : ℕ} {entry : Transition} {old new : Localtime}
    (h : Change (oneSummer offset shift) k entry old new) :
    (k = 0 ∧ entry = ⟨100000, 100000 + offset + shift, 1⟩ ∧ old = ⟨offset, false, 0⟩ ∧
        new = ⟨offset + shift, true, 4⟩) ∨
      k = 1 ∧ entry = ⟨900000, 900000 + offset, 0⟩ ∧ old = ⟨offset + shift, true, 4⟩ ∧
        new = ⟨offset, false, 0⟩ := by
  obtain ⟨hindex, hbefore, hafter⟩ := h
  rcases k with _ | _ | k
  · obtain rfl : _ = entry := by simpa [oneSummer] using hindex
    obtain rfl : _ = old := by simpa [oneSummer, typeAfter] using hbefore
    obtain rfl : _ = new := by simpa [oneSummer] using hafter
    exact .inl ⟨rfl, rfl, rfl, rfl⟩
  · obtain rfl : _ = entry := by simpa [oneSummer] using hindex
    obtain rfl : _ = old := by simpa [oneSummer, typeAfter] using hbefore
    obtain rfl : _ = new := by simpa [oneSummer] using hafter
    exact .inr ⟨rfl, rfl, rfl, rfl⟩
  · simp [oneSummer] at hindex

theorem regular_oneSummer {offset shift : ℤ} (hpos : 0 < shift) (hlt : shift < 86400) :
    Regular (oneSummer offset shift) where
  loaded := ⟨by simp [oneSummer], by simp [oneSummer], by simp [oneSummer]⟩
  gmttime := by simp [Increasing, oneSummer, Comp.key]
  localtime := by
    simp only [Increasing, oneSummer, Comp.key, List.pairwise_pair, Bool.false_eq_true, if_false]
    omega
  localtime_eq := by
    intro k entry old new hchange
    obtain ⟨-, rfl, -, rfl⟩ | ⟨-, rfl, -, rfl⟩ := change_oneSummer hchange
    · ring
    · ring
  spaced := by
    intro k entry next hentry hnext j change old new hchange
    cases k with
    | zero =>
        obtain rfl : _ = entry := by simpa [oneSummer] using hentry
        obtain rfl : _ = next := by simpa [oneSummer] using hnext
        obtain ⟨-, -, rfl, rfl⟩ | ⟨-, -, rfl, rfl⟩ := change_oneSummer hchange
        · rw [abs_lt]
          constructor <;> simp only <;> omega
        · rw [abs_lt]
          constructor <;> simp only <;> omega
    | succ k => simp [oneSummer] at hnext
  decrease := by
    intro k entry old new hchange hdown
    obtain ⟨-, -, rfl, rfl⟩ | ⟨-, -, rfl, rfl⟩ := change_oneSummer hchange
    · simp only at hdown
      omega
    · exact ⟨rfl, rfl⟩

/-- Central Europe, within the hour that is repeated. -/
theorem roundTrips_iff_oneSummer :
    Regular (oneSummer 3600 3600) ∧ Inverts januaryGmtime januaryTimegm ∧
      RoundTrips januaryGmtime januaryTimegm (oneSummer 3600 3600) 898200 := by
  have hregular : Regular (oneSummer 3600 3600) := regular_oneSummer (by omega) (by omega)
  refine ⟨hregular, inverts_january, ?_⟩
  rw [roundTrips_iff _ _ _ hregular inverts_january]
  intro k entry old new hchange hge hlt
  obtain ⟨-, rfl, rfl, rfl⟩ | ⟨-, rfl, rfl, rfl⟩ := change_oneSummer hchange
  · simp only at hge hlt
    omega
  · rfl

/-- Lord Howe Island, where daylight saving time is half an hour: a time within the
half hour that is repeated comes back half an hour early. -/
theorem not_roundTrips_oneSummer :
    Regular (oneSummer 37800 1800) ∧ Inverts januaryGmtime januaryTimegm ∧
      (∃ tm, toLocalTime januaryGmtime (oneSummer 37800 1800) 899000 = .ok tm ∧
        fromLocalTime januaryGmtime januaryTimegm (oneSummer 37800 1800) tm = .ok 897200) ∧
      ¬ RoundTrips januaryGmtime januaryTimegm (oneSummer 37800 1800) 899000 := by
  have hregular : Regular (oneSummer 37800 1800) := regular_oneSummer (by omega) (by omega)
  have hchange : Change (oneSummer 37800 1800) 1 ⟨900000, 937800, 0⟩ ⟨39600, true, 4⟩
      ⟨37800, false, 0⟩ := ⟨rfl, rfl, rfl⟩
  have hposition : Position ⟨true⟩ (oneSummer 37800 1800).transitions 899000 1 := by
    refine hregular.gmttime.position (by simp [oneSummer]) (fun {j entry} hj hentry => ?_)
      fun {entry} hentry => ?_
    · obtain rfl : j = 0 := by omega
      obtain rfl : _ = entry := by simpa [oneSummer] using hentry
      simp [Comp.key]
    · obtain rfl : _ = entry := by simpa [oneSummer] using hentry
      simp [Comp.key]
  have hto : toLocalTime januaryGmtime (oneSummer 37800 1800) 899000 =
      .ok (localTm januaryGmtime ⟨39600, true, 4⟩ 899000) :=
    toLocalTime_of_position hregular _ hposition hchange.before
  have hfrom : fromLocalTime januaryGmtime januaryTimegm (oneSummer 37800 1800)
      (localTm januaryGmtime ⟨39600, true, 4⟩ 899000) = .ok 897200 :=
    fromLocalTime_of_ge hregular inverts_january hposition hchange (by simp)
  refine ⟨hregular, inverts_january, ⟨_, hto, hfrom⟩, ?_⟩
  rintro ⟨tm, htm, hback⟩
  obtain rfl := Except.ok.inj (hto.symm.trans htm)
  simp [hfrom] at hback

end TimeZone

end Base

end SoL
