import SoL.Base.TimeZone.File

/-!
# Malformed zone files

`safe` is what a caller of `TimeZone` relies on: reading accesses nothing out of
range, and a zone that says it is valid can be used for every lookup. Since
`readTimeZoneFile` never reports a failure, this holds for well-formed contents
only, and `WellFormed` says which these are in terms of the bytes of the file
(`safe_iff`). A file that stops within the types is among them when at least one
type is complete and the complete ones have no abbreviation.
-/

namespace SoL

namespace Base

namespace TimeZone

open Decode

/-- Reading is in range, and a valid zone can be used for every lookup. -/
def safe (contents : Option (List UInt8)) : Prop :=
  ∃ tz, ofFile contents = .ok tz ∧ (tz.valid = false ∨ ∃ data, tz.data = some data ∧
    Loaded data ∧ ∀ gmtime timegm, (∀ seconds, ∃ tm, toLocalTime gmtime data seconds = .ok tm) ∧
      ∀ tm, ∃ seconds, fromLocalTime gmtime timegm data tm = .ok seconds)

/-- The errors that `readTimeZoneFile` catches. -/
def caught (e : Stop) : Prop := ∃ error, e = .threw error

theorem reads_readBytes (n : ℕ) :
    Reads caught (readBytes n) n fun bytes => bytes.take n := by
  have hpos : ¬ (n : ℤ) < 0 := by omega
  rw [readBytes, if_neg hpos, Int.toNat_natCast]
  exact Reads.take ⟨_, rfl⟩ n

theorem reads_readInt32 : Reads caught readInt32 4 fun bytes => int32 (bytes.take 4) :=
  (Reads.take ⟨_, rfl⟩ 4).map int32

/-- The byte at a position, as `readUInt8` finds it there. -/
theorem getD_take_one_drop (bytes : List UInt8) (k : ℕ) :
    ((bytes.drop k).take 1).getD 0 0 = bytes.getD k 0 := by
  simp [List.getD_eq_getElem?_getD, List.getElem?_drop]

theorem getD_drop (bytes : List UInt8) (k i : ℕ) :
    (bytes.drop k).getD i 0 = bytes.getD (k + i) 0 := by
  simp [List.getD_eq_getElem?_getD, List.getElem?_drop]

theorem reads_readUInt8 : Reads caught readUInt8 1 fun bytes => (bytes.getD 0 0).toNat := by
  have h : Reads caught readUInt8 1 fun bytes => ((bytes.take 1).getD 0 0).toNat :=
    (Reads.take ⟨.badUInt8Data, rfl⟩ 1).map fun bytes : List UInt8 => (bytes.getD 0 0).toNat
  exact h.congr fun bytes => congrArg UInt8.toNat (getD_take_one_drop bytes 0)

/-- The entry of a type at the front of the bytes. -/
def typeOf (bytes : List UInt8) : Localtime where
  gmtOffset := int32 (bytes.take 4)
  isDst := (bytes.getD 4 0).toNat != 0
  arrbIdx := (bytes.getD 5 0).toNat

theorem reads_readType : Reads caught readType 6 typeOf := by
  have h := reads_readInt32.bind fun gmtoff => reads_readUInt8.bind fun isdst =>
    reads_readUInt8.map fun abbrind => (⟨gmtoff, isdst != 0, abbrind⟩ : Localtime)
  refine h.congr fun bytes => ?_
  simp [typeOf, List.getD_eq_getElem?_getD, List.getElem?_drop]

/-- The counts of the header, from the byte after the magic number on. -/
def countsOf (bytes : List UInt8) : Counts where
  timecnt := int32 ((bytes.drop 28).take 4)
  typecnt := int32 ((bytes.drop 32).take 4)
  charcnt := int32 ((bytes.drop 36).take 4)

theorem reads_readCounts : Reads caught readCounts 40 countsOf := by
  have h := (reads_readBytes 1).bind fun _ => (reads_readBytes 15).bind fun _ =>
    reads_readInt32.bind fun _ => reads_readInt32.bind fun _ => reads_readInt32.bind fun _ =>
    reads_readInt32.bind fun timecnt => reads_readInt32.bind fun typecnt =>
    reads_readInt32.map fun charcnt => (⟨timecnt, typecnt, charcnt⟩ : Counts)
  refine h.congr fun bytes => ?_
  simp [countsOf, List.drop_drop]

theorem readHead_of_eq {s : Source UInt8 Data} (h : s.rest.take 4 = magic) :
    readHead s = .ok () { s with rest := s.rest.drop 4 } := by
  have hlen : 4 ≤ s.rest.length := by
    have := congrArg List.length h
    simp only [List.length_take, magic, List.length_cons, List.length_nil] at this
    omega
  have hread : readBytes 4 s = .ok (s.rest.take 4) { s with rest := s.rest.drop 4 } :=
    (reads_readBytes 4).ok s hlen
  rw [readHead, bind_of_ok hread, h]
  rfl

theorem readHead_of_ne {s : Source UInt8 Data} (h : s.rest.take 4 ≠ magic) :
    ∃ e t, readHead s = .error (.threw e) t ∧ t.store = s.store := by
  rcases Nat.lt_or_ge s.rest.length 4 with hlt | hge
  · obtain ⟨e, ⟨error, rfl⟩, herror⟩ := (reads_readBytes 4).error s hlt
    exact ⟨error, _, bind_of_error herror, rfl⟩
  · have hread : readBytes 4 s = .ok (s.rest.take 4) { s with rest := s.rest.drop 4 } :=
      (reads_readBytes 4).ok s hge
    refine ⟨.badHead, { s with rest := s.rest.drop 4 }, ?_, rfl⟩
    rw [readHead, bind_of_ok hread, if_pos h]
    rfl

/-- Data with more types. -/
def withTypes (data : Data) (types : List Localtime) : Data :=
  { data with localtimes := data.localtimes ++ types }

theorem withTypes_withTypes (data : Data) (type : Localtime) (types : List Localtime) :
    withTypes (withTypes data [type]) types = withTypes data (type :: types) := by
  simp [withTypes]

/-- One round of the loop of `readTypes`. -/
theorem readTypes_succ (n : ℕ) {s : Source UInt8 Data} (h : 6 ≤ s.rest.length) :
    readTypes (n + 1) s =
      readTypes n ⟨s.rest.drop 6, withTypes s.store [typeOf s.rest]⟩ := by
  have hpush : pushLocaltime (typeOf s.rest) { s with rest := s.rest.drop 6 } =
      .ok () ⟨s.rest.drop 6, withTypes s.store [typeOf s.rest]⟩ := rfl
  rw [readTypes, bind_of_ok (reads_readType.ok s h), bind_of_ok hpush]

theorem readTypes_of_le {n : ℕ} {s : Source UInt8 Data} (h : 6 * n ≤ s.rest.length) :
    readTypes n s =
      .ok () ⟨s.rest.drop (6 * n), withTypes s.store (items 6 typeOf n s.rest)⟩ := by
  induction n generalizing s with
  | zero => simp [readTypes, items, withTypes]; rfl
  | succ n ih =>
      have hfirst : 6 ≤ s.rest.length := by omega
      have hrest : 6 * n ≤ (s.rest.drop 6).length := by
        rw [List.length_drop]
        omega
      rw [readTypes_succ n hfirst, ih hrest, withTypes_withTypes, List.drop_drop, Nat.mul_succ,
        Nat.add_comm]
      rfl

/-- When the bytes run out, the types that were complete are loaded. -/
theorem readTypes_of_lt {n : ℕ} {s : Source UInt8 Data} (h : s.rest.length < 6 * n) :
    ∃ e, readTypes n s =
      .error (.threw e) ⟨[], withTypes s.store (items 6 typeOf (s.rest.length / 6) s.rest)⟩ := by
  induction n generalizing s with
  | zero => exact absurd h (Nat.not_lt_zero _)
  | succ n ih =>
      rcases Nat.lt_or_ge s.rest.length 6 with hlt | hge
      · obtain ⟨e, ⟨error, rfl⟩, herror⟩ := reads_readType.error s hlt
        refine ⟨error, ?_⟩
        rw [readTypes, bind_of_error herror, Nat.div_eq_of_lt hlt]
        simp [items, withTypes]
      · have hrest : (s.rest.drop 6).length < 6 * n := by
          rw [List.length_drop]
          omega
        obtain ⟨e, herror⟩ := ih (s := ⟨s.rest.drop 6, withTypes s.store [typeOf s.rest]⟩) hrest
        refine ⟨e, ?_⟩
        have hdiv : s.rest.length / 6 = (s.rest.drop 6).length / 6 + 1 := by
          rw [List.length_drop]
          omega
        rw [readTypes_succ n hge, herror, withTypes_withTypes, hdiv]
        rfl

/-- One round of the loop of `addTransitions`. -/
theorem addTransitions_cons (gmttime : ℤ) {localIdx : ℕ} (times : List (ℤ × ℕ))
    {s : Source UInt8 Data} (h : localIdx < s.store.localtimes.length) :
    ∃ entry : Transition, entry.localtimeIdx = localIdx ∧
      addTransitions ((gmttime, localIdx) :: times) s = addTransitions times { s with
        store := { s.store with transitions := s.store.transitions ++ [entry] } } := by
  refine ⟨⟨gmttime, gmttime + s.store.localtimes[localIdx].gmtOffset, localIdx⟩, rfl, ?_⟩
  simp only [addTransitions, List.getElem?_eq_getElem h]

theorem addTransitions_of_lt {times : List (ℤ × ℕ)} {s : Source UInt8 Data}
    (h : ∀ x ∈ times, x.2 < s.store.localtimes.length) :
    ∃ added, addTransitions times s = .ok () { s with
        store := { s.store with transitions := s.store.transitions ++ added } } ∧
      ∀ entry ∈ added, entry.localtimeIdx < s.store.localtimes.length := by
  induction times generalizing s with
  | nil => exact ⟨[], by simp [addTransitions]; rfl, by simp⟩
  | cons x times ih =>
      have hlt : x.2 < s.store.localtimes.length := h x List.mem_cons_self
      obtain ⟨entry, hentry, hstep⟩ := addTransitions_cons x.1 times hlt
      obtain ⟨added, hadded, hindex⟩ := ih (s := { s with
        store := { s.store with transitions := s.store.transitions ++ [entry] } })
        fun x hx => h x (List.mem_cons_of_mem _ hx)
      refine ⟨entry :: added, (hstep.trans hadded).trans (by simp), ?_⟩
      exact List.forall_mem_cons.2 ⟨hentry ▸ hlt, hindex⟩

theorem addTransitions_of_not_lt {times : List (ℤ × ℕ)} {s : Source UInt8 Data}
    (h : ¬ ∀ x ∈ times, x.2 < s.store.localtimes.length) :
    ∃ t, addTransitions times s = .error (.fault .localtimes) t := by
  induction times generalizing s with
  | nil => exact absurd (by simp) h
  | cons x times ih =>
      by_cases hlt : x.2 < s.store.localtimes.length
      · obtain ⟨entry, -, hstep⟩ := addTransitions_cons x.1 times hlt
        obtain ⟨t, ht⟩ := ih (s := { s with
          store := { s.store with transitions := s.store.transitions ++ [entry] } })
          fun hall => h (List.forall_mem_cons.2 ⟨hlt, hall⟩)
        exact ⟨t, hstep.trans ht⟩
      · refine ⟨s, ?_⟩
        simp only [addTransitions, List.getElem?_eq_none (not_lt.1 hlt)]

/-- Reading ends, normally or with an error that is caught, with this data. -/
def Ends (r : EStateM.Result Stop (Source UInt8 Data) Unit) (data : Data) : Prop :=
  (∃ s, r = .ok () s ∧ s.store = data) ∨ ∃ e s, r = .error (.threw e) s ∧ s.store = data

/-- Reading is undefined. -/
def Faults (r : EStateM.Result Stop (Source UInt8 Data) Unit) : Prop :=
  ∃ f s, r = .error (.fault f) s

theorem ends_of_error {α : Type} {x : FileReader α} {g : α → FileReader Unit}
    {s t : Source UInt8 Data} {e : LogicError} {data : Data} (h : x s = .error (.threw e) t)
    (hstore : t.store = data) : Ends ((x >>= g) s) data := .inr ⟨e, t, bind_of_error h, hstore⟩

theorem withTypes_empty (types : List Localtime) : withTypes .empty types = ⟨[], types, []⟩ := by
  simp [withTypes, Data.empty]

theorem readBody_of_lt {typecnt : ℤ} {bytes : List UInt8}
    (h : bytes.length < 6 * typecnt.toNat) (times : List (ℤ × ℕ)) (charcnt : ℤ) :
    Ends (readBody times typecnt charcnt ⟨bytes, .empty⟩)
      ⟨[], items 6 typeOf (bytes.length / 6) bytes, []⟩ := by
  obtain ⟨e, herror⟩ := readTypes_of_lt (s := ⟨bytes, .empty⟩) h
  exact ends_of_error herror (withTypes_empty _)

theorem readAbbreviation_of_neg {charcnt : ℤ} (h : charcnt < 0) (s : Source UInt8 Data) :
    Faults (readAbbreviation charcnt s) := by
  refine ⟨.arrayBound, s, ?_⟩
  rw [readAbbreviation, readBytes, if_pos h]
  rfl

theorem readAbbreviation_of_nonneg {charcnt : ℤ} (h : 0 ≤ charcnt) (s : Source UInt8 Data) :
    Ends (readAbbreviation charcnt s) { s.store with
      abbreviation := if charcnt.toNat ≤ s.rest.length then s.rest.take charcnt.toNat
        else s.store.abbreviation } := by
  obtain ⟨n, rfl⟩ := Int.eq_ofNat_of_zero_le h
  rw [Int.toNat_natCast]
  by_cases hn : n ≤ s.rest.length
  · rw [if_pos hn]
    exact .inl ⟨_, bind_of_ok ((reads_readBytes n).ok s hn), rfl⟩
  · rw [if_neg hn]
    obtain ⟨e, ⟨error, rfl⟩, herror⟩ := (reads_readBytes n).error s (not_le.1 hn)
    exact ends_of_error herror rfl

section Complete

variable {times : List (ℤ × ℕ)} {typecnt charcnt : ℤ} {bytes : List UInt8}
  (htypes : 6 * typecnt.toNat ≤ bytes.length)

include htypes

theorem readBody_eq (times : List (ℤ × ℕ)) (charcnt : ℤ) :
    readBody times typecnt charcnt ⟨bytes, .empty⟩ =
      (do addTransitions times; readAbbreviation charcnt : FileReader Unit)
        ⟨bytes.drop (6 * typecnt.toNat),
          ⟨[], items 6 typeOf typecnt.toNat bytes, []⟩⟩ := by
  rw [← withTypes_empty]
  exact bind_of_ok (readTypes_of_le (s := ⟨bytes, .empty⟩) htypes)

theorem readBody_of_index (h : ¬ ∀ x ∈ times, x.2 < typecnt.toNat) :
    Faults (readBody times typecnt charcnt ⟨bytes, .empty⟩) := by
  rw [readBody_eq htypes]
  have hnot : ¬ ∀ x ∈ times, x.2 < (items 6 typeOf typecnt.toNat bytes).length := by
    rwa [length_items]
  obtain ⟨t, ht⟩ := addTransitions_of_not_lt
    (s := ⟨bytes.drop (6 * typecnt.toNat), ⟨[], _, []⟩⟩) hnot
  exact ⟨_, t, bind_of_error ht⟩

theorem readBody_of_indices (hindices : ∀ x ∈ times, x.2 < typecnt.toNat) :
    ∃ added : List Transition, (∀ entry ∈ added, entry.localtimeIdx < typecnt.toNat) ∧
      readBody times typecnt charcnt ⟨bytes, .empty⟩ =
        readAbbreviation charcnt ⟨bytes.drop (6 * typecnt.toNat),
          ⟨added, items 6 typeOf typecnt.toNat bytes, []⟩⟩ := by
  rw [readBody_eq htypes]
  have hlt : ∀ x ∈ times, x.2 < (items 6 typeOf typecnt.toNat bytes).length := by
    rwa [length_items]
  obtain ⟨added, hadded, hindex⟩ := addTransitions_of_lt
    (s := ⟨bytes.drop (6 * typecnt.toNat), ⟨[], _, []⟩⟩) hlt
  rw [length_items] at hindex
  exact ⟨added, hindex, bind_of_ok hadded⟩

end Complete

/-- The times and the indices of their types at the front of the bytes. -/
def timesOf (n : ℕ) (bytes : List UInt8) : List (ℤ × ℕ) :=
  (items 4 (fun bytes => int32 (bytes.take 4)) n bytes).zip
    (items 1 (fun bytes => (bytes.getD 0 0).toNat) n (bytes.drop (4 * n)))

theorem reads_readTimes (n : ℕ) : Reads caught (readTimes n) (5 * n) (timesOf n) := by
  have h := (reads_readInt32.many n).bind fun trans =>
    (reads_readUInt8.many n).map fun localtimes => trans.zip localtimes
  have hn : 4 * n + 1 * n = 5 * n := by ring
  exact hn ▸ h

theorem forall_timesOf_iff {bytes : List UInt8} {n : ℕ} {P : ℕ → Prop} :
    (∀ x ∈ timesOf n bytes, P x.2) ↔ ∀ i < n, P (bytes.getD (4 * n + i) 0).toNat := by
  have hsnd : (timesOf n bytes).map Prod.snd =
      items 1 (fun bytes => (bytes.getD 0 0).toNat) n (bytes.drop (4 * n)) :=
    List.map_snd_zip (by simp [length_items])
  rw [← List.forall_mem_map (f := Prod.snd) (P := P), hsnd, forall_mem_items_iff]
  simp [List.getD_eq_getElem?_getD, List.getElem?_drop, List.drop_drop]

/-- The four bytes at a position as an `int32_t`. -/
def int32At (bytes : List UInt8) (offset : ℕ) : ℤ := int32 ((bytes.drop offset).take 4)

def timecnt (bytes : List UInt8) : ℤ := int32At bytes 32

def typecnt (bytes : List UInt8) : ℤ := int32At bytes 36

def charcnt (bytes : List UInt8) : ℤ := int32At bytes 40

/-- The bytes from the first type on. -/
def typeBytes (bytes : List UInt8) : List UInt8 :=
  bytes.drop (44 + 5 * (timecnt bytes).toNat)

theorem readCounts_of_le {bytes : List UInt8} (h : 44 ≤ bytes.length) :
    readCounts ⟨bytes.drop 4, .empty⟩ =
      .ok ⟨timecnt bytes, typecnt bytes, charcnt bytes⟩ ⟨bytes.drop 44, .empty⟩ := by
  have hlen : 40 ≤ (bytes.drop 4).length := by
    rw [List.length_drop]
    omega
  rw [reads_readCounts.ok _ hlen]
  simp [countsOf, timecnt, typecnt, charcnt, int32At, List.drop_drop]

theorem reserve_of_nonneg {n : ℤ} (h : 0 ≤ n) (s : Source UInt8 Data) :
    reserve n s = .ok () s := by
  rw [reserve, if_neg (not_lt.2 h)]
  rfl

theorem reserve_of_neg {n : ℤ} (h : n < 0) (s : Source UInt8 Data) :
    reserve n s = .error (.threw .vectorReserve) s := by
  rw [reserve, if_pos h]
  rfl

/-- With the header and the times in place, reading goes on with the types. -/
theorem readZone_eq {bytes : List UInt8} (hhead : bytes.take 4 = magic)
    (htime : 0 ≤ timecnt bytes) (hlen : 44 + 5 * (timecnt bytes).toNat ≤ bytes.length) :
    readZone ⟨bytes, .empty⟩ =
      readBody (timesOf (timecnt bytes).toNat (bytes.drop 44)) (typecnt bytes) (charcnt bytes)
        ⟨typeBytes bytes, .empty⟩ := by
  have hlong : 44 ≤ bytes.length := by omega
  have htimes := (reads_readTimes (timecnt bytes).toNat).ok ⟨bytes.drop 44, .empty⟩
    (by simp only [List.length_drop]; omega)
  rw [readZone, bind_of_ok (readHead_of_eq hhead), bind_of_ok (readCounts_of_le hlong),
    bind_of_ok (reserve_of_nonneg htime _), bind_of_ok htimes]
  simp only [List.drop_drop, typeBytes]

/-- Without them nothing is loaded. -/
theorem readZone_of_not {bytes : List UInt8} (h : ¬ (bytes.take 4 = magic ∧ 0 ≤ timecnt bytes ∧
    44 + 5 * (timecnt bytes).toNat ≤ bytes.length)) :
    Ends (readZone ⟨bytes, .empty⟩) .empty := by
  by_cases hhead : bytes.take 4 = magic
  · rw [readZone, bind_of_ok (readHead_of_eq hhead)]
    rcases Nat.lt_or_ge bytes.length 44 with hshort | hlong
    · have hlt : (bytes.drop 4).length < 40 := by
        rw [List.length_drop]
        omega
      obtain ⟨e, ⟨error, rfl⟩, herror⟩ := reads_readCounts.error ⟨bytes.drop 4, .empty⟩ hlt
      exact ends_of_error herror rfl
    rw [bind_of_ok (readCounts_of_le hlong)]
    dsimp only
    rcases lt_or_ge (timecnt bytes) 0 with hneg | hpos
    · exact ends_of_error (reserve_of_neg hneg _) rfl
    rw [bind_of_ok (reserve_of_nonneg hpos _)]
    have hlt : (bytes.drop 44).length < 5 * (timecnt bytes).toNat := by
      rw [List.length_drop]
      by_contra hge
      exact h ⟨hhead, hpos, by omega⟩
    obtain ⟨e, ⟨error, rfl⟩, herror⟩ :=
      (reads_readTimes (timecnt bytes).toNat).error ⟨bytes.drop 44, .empty⟩ hlt
    exact ends_of_error herror rfl
  · obtain ⟨e, t, herror, hstore⟩ := readHead_of_ne (s := ⟨bytes, .empty⟩) hhead
    exact ends_of_error herror hstore

/-- How many types are complete in the file, up to `typecnt`. -/
def loadedTypes (bytes : List UInt8) : ℕ :=
  min (typecnt bytes).toNat ((typeBytes bytes).length / 6)

/-- All types are in the file. -/
def allTypes (bytes : List UInt8) : Prop :=
  6 * (typecnt bytes).toNat ≤ (typeBytes bytes).length

/-- The length of the abbreviations when they are in the file, and 0 when they
are not. -/
def abbreviationSize (bytes : List UInt8) : ℕ :=
  if 6 * (typecnt bytes).toNat + (charcnt bytes).toNat ≤ (typeBytes bytes).length then
    (charcnt bytes).toNat
  else 0

/-- The contents that are read into data fit for every lookup: the header and
the times are complete, at least one type is, and if all are, then `charcnt` is
not negative and the indices are below `typecnt`. The types that are complete
point into the abbreviations. -/
structure WellFormed (bytes : List UInt8) : Prop where
  head : bytes.take 4 = magic
  timecnt_nonneg : 0 ≤ timecnt bytes
  times : 44 + 5 * (timecnt bytes).toNat ≤ bytes.length
  types : 0 < loadedTypes bytes
  charcnt_nonneg : allTypes bytes → 0 ≤ charcnt bytes
  indices : allTypes bytes → ∀ i < (timecnt bytes).toNat,
    (bytes.getD (44 + 4 * (timecnt bytes).toNat + i) 0).toNat < (typecnt bytes).toNat
  abbrinds : ∀ i < loadedTypes bytes,
    ((typeBytes bytes).getD (6 * i + 5) 0).toNat ≤ abbreviationSize bytes

theorem safe_iff_loaded {contents : Option (List UInt8)} {data : Data}
    (h : ofFile contents = .ok ⟨some data⟩) : safe contents ↔ Loaded data := by
  constructor
  · rintro ⟨tz, htz, hsafe⟩
    obtain rfl : ⟨some data⟩ = tz := Except.ok.inj (h.symm.trans htz)
    rcases hsafe with hinvalid | ⟨data', hdata, hloaded, -⟩
    · simp [valid] at hinvalid
    · obtain rfl : data = data' := Option.some.inj hdata
      exact hloaded
  · intro hloaded
    exact ⟨_, h, .inr ⟨data, rfl, hloaded, fun gmtime timegm =>
      ⟨toLocalTime_eq_ok hloaded gmtime, fromLocalTime_eq_ok hloaded gmtime timegm⟩⟩⟩

/-- However reading ends, the zone holds what has been loaded. -/
theorem ofFile_of_ends {bytes : List UInt8} {data : Data}
    (h : Ends (readZone ⟨bytes, .empty⟩) data) : ofFile (some bytes) = .ok ⟨some data⟩ := by
  rcases h with ⟨s, hread, rfl⟩ | ⟨e, s, hread, rfl⟩ <;>
    simp only [ofFile, readTimeZoneFile, hread] <;> rfl

theorem not_safe_of_faults {bytes : List UInt8} (h : Faults (readZone ⟨bytes, .empty⟩)) :
    ¬ safe (some bytes) := by
  obtain ⟨f, s, hread⟩ := h
  rintro ⟨tz, htz, -⟩
  simp only [ofFile, readTimeZoneFile, hread] at htz
  cases htz

theorem loaded_iff {added : List Transition} {n : ℕ} {bytes abbreviation : List UInt8}
    (h : ∀ entry ∈ added, entry.localtimeIdx < n) :
    Loaded ⟨added, items 6 typeOf n bytes, abbreviation⟩ ↔
      0 < n ∧ ∀ i < n, (bytes.getD (6 * i + 5) 0).toNat ≤ abbreviation.length := by
  have habbrind : (∀ type ∈ items 6 typeOf n bytes, type.arrbIdx ≤ abbreviation.length) ↔
      ∀ i < n, (bytes.getD (6 * i + 5) 0).toNat ≤ abbreviation.length := by
    rw [forall_mem_items_iff]
    simp [typeOf, List.getD_eq_getElem?_getD, List.getElem?_drop]
  have hnonempty : items 6 typeOf n bytes ≠ [] ↔ 0 < n := by
    rw [← List.length_pos_iff, length_items]
  constructor
  · intro hloaded
    exact ⟨hnonempty.1 hloaded.nonempty, habbrind.1 hloaded.abbreviation⟩
  · rintro ⟨hn, habbr⟩
    refine ⟨hnonempty.2 hn, ?_, habbrind.2 habbr⟩
    simpa [length_items] using h

theorem not_loaded_empty : ¬ Loaded .empty := fun h => h.nonempty rfl

theorem length_abbreviation {bytes : List UInt8}
    (h : 6 * (typecnt bytes).toNat ≤ (typeBytes bytes).length) :
    (if (charcnt bytes).toNat ≤ ((typeBytes bytes).drop (6 * (typecnt bytes).toNat)).length then
      ((typeBytes bytes).drop (6 * (typecnt bytes).toNat)).take (charcnt bytes).toNat
      else []).length = abbreviationSize bytes := by
  unfold abbreviationSize
  rw [List.length_drop]
  split
  case isTrue hle =>
      rw [if_pos (by omega), List.length_take, List.length_drop, min_eq_left hle]
  case isFalse hnot => rw [if_neg (by omega), List.length_nil]

section Started

variable {bytes : List UInt8} (hhead : bytes.take 4 = magic) (htime : 0 ≤ timecnt bytes)
  (hlen : 44 + 5 * (timecnt bytes).toNat ≤ bytes.length)

include hhead htime hlen

/-- The file stops within the types. -/
theorem safe_iff_of_not_allTypes (h : ¬ allTypes bytes) :
    safe (some bytes) ↔ WellFormed bytes := by
  have hlt : (typeBytes bytes).length < 6 * (typecnt bytes).toNat := not_le.1 h
  have hloaded : loadedTypes bytes = (typeBytes bytes).length / 6 := by
    unfold loadedTypes
    omega
  have hsize : abbreviationSize bytes = 0 := if_neg (by omega)
  have hends := readBody_of_lt hlt (timesOf (timecnt bytes).toNat (bytes.drop 44))
    (charcnt bytes)
  rw [← readZone_eq hhead htime hlen] at hends
  rw [safe_iff_loaded (ofFile_of_ends hends), loaded_iff (List.forall_mem_nil _)]
  refine ⟨fun ⟨htypes, habbrinds⟩ => ?_, fun hwf => ?_⟩
  · exact ⟨hhead, htime, hlen, hloaded ▸ htypes, fun hall => absurd hall h,
      fun hall => absurd hall h, by rw [hloaded, hsize]; exact habbrinds⟩
  · have habbrinds := hwf.abbrinds
    rw [hloaded, hsize] at habbrinds
    exact ⟨hloaded ▸ hwf.types, habbrinds⟩

/-- The file holds all types. -/
theorem safe_iff_of_allTypes (h : allTypes bytes) : safe (some bytes) ↔ WellFormed bytes := by
  have htypes : 6 * (typecnt bytes).toNat ≤ (typeBytes bytes).length := h
  have hloaded : loadedTypes bytes = (typecnt bytes).toNat := by
    unfold loadedTypes
    omega
  have hiff : (∀ x ∈ timesOf (timecnt bytes).toNat (bytes.drop 44), x.2 < (typecnt bytes).toNat) ↔
      ∀ i < (timecnt bytes).toNat,
        (bytes.getD (44 + 4 * (timecnt bytes).toNat + i) 0).toNat < (typecnt bytes).toNat := by
    rw [forall_timesOf_iff (P := fun index => index < (typecnt bytes).toNat)]
    simp only [getD_drop, ← add_assoc]
  by_cases hindices : ∀ x ∈ timesOf (timecnt bytes).toNat (bytes.drop 44),
      x.2 < (typecnt bytes).toNat
  · obtain ⟨added, hadded, hbody⟩ := readBody_of_indices htypes hindices
    rw [← readZone_eq hhead htime hlen] at hbody
    rcases lt_or_ge (charcnt bytes) 0 with hneg | hnonneg
    · refine iff_of_false (not_safe_of_faults ?_) fun hwf => ?_
      · rw [hbody]
        exact readAbbreviation_of_neg hneg _
      · exact absurd (hwf.charcnt_nonneg h) (not_le.2 hneg)
    · have hends := readAbbreviation_of_nonneg hnonneg
        ⟨(typeBytes bytes).drop (6 * (typecnt bytes).toNat),
          ⟨added, items 6 typeOf (typecnt bytes).toNat (typeBytes bytes), []⟩⟩
      rw [← hbody] at hends
      rw [safe_iff_loaded (ofFile_of_ends hends), loaded_iff hadded, length_abbreviation htypes,
        ← hloaded]
      exact ⟨fun ⟨hpos, habbrinds⟩ => ⟨hhead, htime, hlen, hpos, fun _ => hnonneg,
        fun _ => hiff.1 hindices, habbrinds⟩, fun hwf => ⟨hwf.types, hwf.abbrinds⟩⟩
  · refine iff_of_false (not_safe_of_faults ?_) fun hwf => ?_
    · rw [readZone_eq hhead htime hlen]
      exact readBody_of_index htypes hindices
    · exact hindices (hiff.2 (hwf.indices h))

end Started

/-- Reading a zone file and every later lookup are in range exactly for a file
that can be opened and whose contents are well formed. -/
theorem safe_iff (contents : Option (List UInt8)) :
    safe contents ↔ ∃ bytes, contents = some bytes ∧ WellFormed bytes := by
  cases contents with
  | none =>
      rw [safe_iff_loaded rfl]
      exact iff_of_false not_loaded_empty (by simp)
  | some bytes =>
      have hbytes : safe (some bytes) ↔ WellFormed bytes := by
        by_cases hstart : bytes.take 4 = magic ∧ 0 ≤ timecnt bytes ∧
            44 + 5 * (timecnt bytes).toNat ≤ bytes.length
        · obtain ⟨hhead, htime, hlen⟩ := hstart
          by_cases hall : allTypes bytes
          · exact safe_iff_of_allTypes hhead htime hlen hall
          · exact safe_iff_of_not_allTypes hhead htime hlen hall
        · rw [safe_iff_loaded (ofFile_of_ends (readZone_of_not hstart))]
          exact iff_of_false not_loaded_empty fun hwf =>
            hstart ⟨hwf.head, hwf.timecnt_nonneg, hwf.times⟩
      simp [hbytes]

/-- Coordinated universal time: no transition, one type, and its name. -/
def universalTime : List UInt8 :=
  magic ++ List.replicate 32 0 ++ [0, 0, 0, 1] ++ [0, 0, 0, 4] ++ [0, 0, 0, 0, 0, 0] ++
    [85, 84, 67, 0]

example : WellFormed universalTime where
  head := by decide
  timecnt_nonneg := by decide
  times := by decide
  types := by decide
  charcnt_nonneg := fun _ => by decide
  indices := fun _ => by decide
  abbrinds := by decide

/-- An empty file makes a zone that says it is valid and has no type. -/
theorem not_safe_nil : ¬ safe (some []) := by
  rw [safe_iff_loaded rfl]
  exact not_loaded_empty

end TimeZone

end Base

end SoL
