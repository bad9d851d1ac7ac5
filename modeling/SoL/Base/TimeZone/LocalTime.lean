import SoL.Base.TimeZone.RoundTrip
import Mathlib.Order.Bounds.Basic

/-!
# From a local time to a time

A reading of the local clock is shown at one time, at two if it is repeated, and at none if
it is skipped when the offset goes up. Without `tm_isdst`, `fromLocalTime` gives the last
time that shows the reading, and a skipped reading is taken as if the offset had not gone up
yet: the time that it gives shows the reading moved on by what is skipped
(`fromLocalTime_isGreatest`).
-/

namespace SoL

namespace Base

namespace TimeZone

/-- At `time` the local clock shows so many seconds. -/
def Shows (gmtime : ℤ → Tm) (data : Data) (time seconds : ℤ) : Prop :=
  ∃ isdst gmtoff zone, toLocalTime gmtime data time = .ok { gmtime seconds with
    isdst := isdst
    gmtoff := gmtoff
    zone := zone }

/-- The local clock is put forward over `seconds`. -/
def Skipped (data : Data) (seconds : ℤ) (old new : Localtime) : Prop :=
  ∃ k entry, Change data k entry old new ∧ entry.gmttime + old.gmtOffset ≤ seconds ∧
    seconds < entry.gmttime + new.gmtOffset

section

variable {data : Data} {comp : Comp} {j k : ℕ} {type : Localtime} {time seconds : ℤ}
  {gmtime : ℤ → Tm} {timegm : Tm → ℤ}

theorem Position.eq {transitions : List Transition} (hj : Position comp transitions time j)
    (hk : Position comp transitions time k) : j = k := by
  have hle : ∀ {a b : ℕ}, Position comp transitions time a → Position comp transitions time b →
      a ≤ b := by
    intro a b ha hb
    by_contra hlt
    have hb' : b < transitions.length := (not_le.1 hlt).trans_le ha.1
    have hget : transitions[b]? = some transitions[b] := List.getElem?_eq_getElem hb'
    exact absurd ((ha.2 hget).2 (not_le.1 hlt)) (not_le.2 (hb.lt hget))
  exact le_antisymm (hle hj hk) (hle hk hj)

/-- What the local clock shows, by the type in effect. -/
theorem shows_iff (h : Regular data) (hinverts : Inverts gmtime timegm)
    (hposition : Position ⟨true⟩ data.transitions time k) (htype : typeAfter data k = some type) :
    Shows gmtime data time seconds ↔ time + type.gmtOffset = seconds := by
  have hto := toLocalTime_of_position h gmtime hposition htype
  constructor
  · rintro ⟨isdst, gmtoff, zone, hshows⟩
    have htm : localTm gmtime type time = { gmtime seconds with
        isdst := isdst
        gmtoff := gmtoff
        zone := zone } := Except.ok.inj (hto.symm.trans hshows)
    have hsame := congrArg timegm htm
    rw [hinverts] at hsame
    exact (hinverts _ _ _ _).symm.trans hsame
  · rintro rfl
    exact ⟨_, _, _, hto⟩

/-- A time that shows a reading, against the time that the search by local time gives: it is
this time, or it is earlier, in the interval that is repeated. -/
theorem Regular.position_of_shows (h : Regular data) (hinverts : Inverts gmtime timegm)
    (hlocal : Position ⟨false⟩ data.transitions seconds k) (htype : typeAfter data k = some type)
    (hshows : Shows gmtime data time seconds) :
    time ≤ seconds - type.gmtOffset ∧
      Position ⟨true⟩ data.transitions (seconds - type.gmtOffset) k := by
  obtain ⟨j, hposition⟩ := h.gmttime.exists_position time
  obtain ⟨first, -, hfirst⟩ := h.loaded.exists_typeAfter hposition.1
  obtain rfl := (shows_iff h hinverts hposition hfirst).1 hshows
  by_cases hrepeated : ∃ entry, data.transitions[j]? = some entry ∧
      entry.localtime ≤ time + first.gmtOffset
  · obtain ⟨entry, hentry, hge⟩ := hrepeated
    obtain ⟨old, new, hchange⟩ := h.exists_change hentry
    obtain rfl : first = old := Option.some.inj (hfirst.symm.trans hchange.before)
    obtain ⟨hahead, hlater⟩ := h.position_of_ge hposition hchange hge
    obtain rfl := hahead.eq hlocal
    obtain rfl : new = type := Option.some.inj (hchange.typeAfter_succ.symm.trans htype)
    have hlt : time < entry.gmttime := hposition.lt hentry
    rw [h.localtime_eq hchange] at hge
    refine ⟨by omega, ?_⟩
    rwa [← add_sub_assoc] at hlater
  · have hlt : ∀ {entry}, data.transitions[j]? = some entry →
        time + first.gmtOffset < entry.localtime := fun {entry} hentry =>
      not_le.1 fun hge => hrepeated ⟨entry, hentry, hge⟩
    obtain rfl := (h.position_of_lt hposition hfirst hlt).eq hlocal
    obtain rfl : first = type := Option.some.inj (hfirst.symm.trans htype)
    rw [add_sub_cancel_right]
    exact ⟨le_rfl, hposition⟩

/-- The time that the search by local time gives is before the transition that it stopped
at, unless the reading is skipped there. -/
theorem Regular.position_or_skipped (h : Regular data)
    (hlocal : Position ⟨false⟩ data.transitions seconds k) (htype : typeAfter data k = some type) :
    Position ⟨true⟩ data.transitions (seconds - type.gmtOffset) k ∨
      ∃ entry new, Change data k entry type new ∧ entry.gmttime + type.gmtOffset ≤ seconds ∧
        seconds < entry.gmttime + new.gmtOffset ∧
        Position ⟨true⟩ data.transitions (seconds - type.gmtOffset) (k + 1) := by
  have hbefore : ∀ {i entry}, i + 1 = k → data.transitions[i]? = some entry →
      entry.gmttime ≤ seconds - type.gmtOffset := by
    intro i entry hi hentry
    obtain ⟨old, new, hchange⟩ := h.exists_change hentry
    subst hi
    obtain rfl : type = new := Option.some.inj (htype.symm.trans hchange.typeAfter_succ)
    have hle : entry.localtime ≤ seconds := (hlocal.2 hentry).2 (Nat.lt_succ_self i)
    rw [h.localtime_eq hchange] at hle
    omega
  by_cases hskipped : ∃ entry, data.transitions[k]? = some entry ∧
      entry.gmttime ≤ seconds - type.gmtOffset
  · obtain ⟨entry, hentry, hge⟩ := hskipped
    obtain ⟨old, new, hchange⟩ := h.exists_change hentry
    obtain rfl : type = old := Option.some.inj (htype.symm.trans hchange.before)
    have hlt : seconds < entry.localtime := hlocal.lt hentry
    rw [h.localtime_eq hchange] at hlt
    refine .inr ⟨entry, new, hchange, by omega, hlt, ?_⟩
    refine h.gmttime.position (List.getElem?_eq_some_iff.1 hentry).1
      (fun {i before} hi hget => ?_) fun {next} hnext => ?_
    · obtain rfl : i = k := by omega
      obtain rfl := Option.some.inj (hentry.symm.trans hget)
      exact hge
    · -- the next transition is further away than the offset goes up by
      have hspaced := h.spaced hentry hnext hchange
      rw [abs_lt] at hspaced
      change seconds - type.gmtOffset < next.gmttime
      omega
  · refine .inl (h.gmttime.position hlocal.1 hbefore fun {entry} hentry => ?_)
    exact not_le.1 fun hge => hskipped ⟨entry, hentry, hge⟩

theorem fromLocalTime_of_isdst {tm : Tm} (h : Regular data) (hdst : tm.isdst = 0)
    (gmtime : ℤ → Tm) (hlocal : Position ⟨false⟩ data.transitions (timegm tm) k)
    (htype : typeAfter data k = some type) :
    fromLocalTime gmtime timegm data tm = .ok (timegm tm - type.gmtOffset) := by
  have hfind : findLocaltime data ⟨0, timegm tm, 0⟩ ⟨false⟩ = .ok type :=
    findLocaltime_of_position h.localtime hlocal htype
  have hnot : ¬ tm.isdst ≠ 0 := not_not.2 hdst
  unfold fromLocalTime
  simp only [hfind]
  exact if_neg hnot

/-- A reading of the local clock gives the last time that shows it. If no time does, the
reading is skipped, and the time that it gives shows the reading moved on by what is
skipped. -/
theorem fromLocalTime_isGreatest (gmtime : ℤ → Tm) (timegm : Tm → ℤ) (data : Data)
    (h : Regular data) (hinverts : Inverts gmtime timegm) (tm : Tm) (hdst : tm.isdst = 0) :
    ∃ t, fromLocalTime gmtime timegm data tm = .ok t ∧
      (IsGreatest {x | Shows gmtime data x (timegm tm)} t ∨
        (∀ x, ¬ Shows gmtime data x (timegm tm)) ∧
          ∃ old new, Skipped data (timegm tm) old new ∧
            Shows gmtime data t (timegm tm + (new.gmtOffset - old.gmtOffset))) := by
  obtain ⟨k, hlocal⟩ := h.localtime.exists_position (timegm tm)
  obtain ⟨type, -, htype⟩ := h.loaded.exists_typeAfter hlocal.1
  refine ⟨_, fromLocalTime_of_isdst h hdst gmtime hlocal htype, ?_⟩
  obtain hposition | ⟨entry, new, hchange, hge, hlt, hposition⟩ :=
    h.position_or_skipped hlocal htype
  · refine .inl ⟨(shows_iff h hinverts hposition htype).2 (sub_add_cancel _ _), fun x hx => ?_⟩
    exact (h.position_of_shows hinverts hlocal htype hx).1
  · refine .inr ⟨fun x hx => ?_, type, new, ⟨k, entry, hchange, hge, hlt⟩, ?_⟩
    · have hsame := (h.position_of_shows hinverts hlocal htype hx).2.eq hposition
      omega
    · rw [shows_iff h hinverts hposition hchange.typeAfter_succ]
      ring

end

/-- Central Europe, in the hour that is skipped. -/
theorem fromLocalTime_isGreatest_oneSummer :
    ∃ t, fromLocalTime januaryGmtime januaryTimegm (oneSummer 3600 3600) (januaryGmtime 105000) =
        .ok t ∧
      (IsGreatest {x | Shows januaryGmtime (oneSummer 3600 3600) x
          (januaryTimegm (januaryGmtime 105000))} t ∨
        (∀ x, ¬ Shows januaryGmtime (oneSummer 3600 3600) x
          (januaryTimegm (januaryGmtime 105000))) ∧
          ∃ old new, Skipped (oneSummer 3600 3600) (januaryTimegm (januaryGmtime 105000)) old new ∧
            Shows januaryGmtime (oneSummer 3600 3600) t
              (januaryTimegm (januaryGmtime 105000) + (new.gmtOffset - old.gmtOffset))) :=
  fromLocalTime_isGreatest _ _ _ (regular_oneSummer (by omega) (by omega)) inverts_january _ rfl

end TimeZone

end Base

end SoL
