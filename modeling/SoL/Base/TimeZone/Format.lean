import SoL.Arithmetic.CInt
import SoL.Base.TimeZone.Safety
import SoL.Decode.Grammar

/-!
# The format of zone files

`ZoneFile` is a zone file as its format has it, `encode` its bytes and `data` what it
means. `readTimeZoneFile` ends without a message exactly on the files that begin with
an encoding, and it returns what the encoding means (`readTimeZoneFile_iff`): no file of
the format is refused and nothing else passes in silence. What follows the
abbreviations is not looked at, and a negative `typecnt` stands for no type.
-/

namespace SoL

namespace Base

namespace TimeZone

open Decode Arithmetic

/-- The bytes of an `int32_t`, the most significant first. -/
def bytesOfInt32 (v : ℤ) : List UInt8 :=
  let n := (v % 4294967296).toNat
  [.ofNat (n / 16777216), .ofNat (n / 65536), .ofNat (n / 256), .ofNat n]

@[simp] theorem length_bytesOfInt32 (v : ℤ) : (bytesOfInt32 v).length = 4 := rfl

theorem bigEndian_four (a b c d : UInt8) :
    bigEndian [a, b, c, d] = ((a.toNat * 256 + b.toNat) * 256 + c.toNat) * 256 + d.toNat := by
  simp [bigEndian]

theorem bigEndian_bytesOfInt32 (v : ℤ) :
    bigEndian (bytesOfInt32 v) = (v % 4294967296).toNat := by
  have hn : (v % 4294967296).toNat < 4294967296 := by omega
  rw [bytesOfInt32, bigEndian_four]
  simp only [UInt8.toNat_ofNat', Nat.reducePow]
  generalize (v % 4294967296).toNat = n at hn ⊢
  omega

theorem int32_eq (bytes : List UInt8) :
    int32 bytes = if (bigEndian bytes : ℤ) % 4294967296 < 2147483648
      then (bigEndian bytes : ℤ) % 4294967296
      else (bigEndian bytes : ℤ) % 4294967296 - 4294967296 := by
  unfold int32
  generalize bigEndian bytes = n
  rw [Int.bmod_def]
  simp only [Nat.reducePow, Nat.cast_ofNat]
  norm_num

theorem inRange_int32 (bytes : List UInt8) : CInt.inRange (int32 bytes) := by
  rw [int32_eq]
  constructor <;> omega

theorem int32_bytesOfInt32 {v : ℤ} (h : CInt.inRange v) : int32 (bytesOfInt32 v) = v := by
  obtain ⟨hlow, hhigh⟩ := h
  rw [int32_eq, bigEndian_bytesOfInt32]
  omega

theorem bytesOfInt32_int32 {bytes : List UInt8} (h : bytes.length = 4) :
    bytesOfInt32 (int32 bytes) = bytes := by
  obtain ⟨a, b, c, d, rfl⟩ : ∃ a b c d, bytes = [a, b, c, d] := by
    match bytes, h with
    | [a, b, c, d], _ => exact ⟨a, b, c, d, rfl⟩
  have ha := a.toNat_lt
  have hb := b.toNat_lt
  have hc := c.toNat_lt
  have hd := d.toNat_lt
  have hmod : (int32 [a, b, c, d] % 4294967296).toNat = bigEndian [a, b, c, d] := by
    rw [int32_eq, bigEndian_four]
    omega
  have hn := bigEndian_four a b c d
  simp only [bytesOfInt32, hmod]
  generalize bigEndian [a, b, c, d] = n at hn ⊢
  refine congrArg₂ _ ?_ (congrArg₂ _ ?_ (congrArg₂ _ ?_ (congrArg₂ _ ?_ rfl)))
  all_goals
    refine UInt8.toNat.inj ?_
    rw [UInt8.toNat_ofNat']
    omega

/-- A type of local time in a file. -/
structure TypeEntry where
  gmtoff : ℤ
  isdst : UInt8
  abbrind : UInt8
  range : CInt.inRange gmtoff

namespace TypeEntry

def encode (e : TypeEntry) : List UInt8 := bytesOfInt32 e.gmtoff ++ [e.isdst, e.abbrind]

/-- Any byte but zero is a daylight saving time. -/
def localtime (e : TypeEntry) : Localtime := ⟨e.gmtoff, e.isdst.toNat != 0, e.abbrind.toNat⟩

theorem typeOf_encode (e : TypeEntry) : typeOf e.encode = e.localtime := by
  have htake : e.encode.take 4 = bytesOfInt32 e.gmtoff := rfl
  simp only [typeOf, htake, int32_bytesOfInt32 e.range, localtime]
  rfl

/-- Six bytes are an entry. -/
theorem exists_of_length {bytes : List UInt8} (h : bytes.length = 6) :
    ∃ e : TypeEntry, e.encode = bytes := by
  have hsplit : bytes = bytes.take 4 ++ [bytes[4], bytes[5]] := by
    match bytes, h with
    | [a, b, c, d, e, f], _ => rfl
  refine ⟨⟨int32 (bytes.take 4), bytes[4], bytes[5], inRange_int32 _⟩, ?_⟩
  rw [encode, bytesOfInt32_int32 (by rw [List.length_take]; omega)]
  exact hsplit.symm

end TypeEntry

/-- A zone file. `unused` are the version, the fifteen bytes after it and the counts
`isgmtcnt`, `isstdcnt` and `leapcnt`; the counts of the times and of the abbreviations
are the lengths of these. -/
structure ZoneFile where
  unused : List UInt8
  typecnt : ℤ
  times : List ℤ
  indices : List ℕ
  types : List TypeEntry
  abbreviation : List UInt8
  length_unused : unused.length = 28
  range_typecnt : CInt.inRange typecnt
  length_types : types.length = typecnt.toNat
  range_times : ∀ t ∈ times, CInt.inRange t
  length_times : CInt.inRange times.length
  byte_indices : ∀ i ∈ indices, i < 256
  length_indices : indices.length = times.length
  index : ∀ i ∈ indices, i < types.length
  length_abbreviation : CInt.inRange abbreviation.length

/-- The transition to a type at a time. -/
def transitionTo (localtimes : List Localtime) (time : ℤ × ℕ) : Transition :=
  ⟨time.1, time.1 + (localtimes[time.2]?).elim 0 Localtime.gmtOffset, time.2⟩

namespace ZoneFile

def counts (z : ZoneFile) : List UInt8 :=
  bytesOfInt32 z.times.length ++ (bytesOfInt32 z.typecnt ++ bytesOfInt32 z.abbreviation.length)

def encode (z : ZoneFile) : List UInt8 :=
  magic ++ ((z.unused ++ z.counts) ++ ((z.times.flatMap bytesOfInt32 ++
    z.indices.flatMap fun i => [UInt8.ofNat i]) ++
    (z.types.flatMap TypeEntry.encode ++ z.abbreviation)))

def data (z : ZoneFile) : Data where
  localtimes := z.types.map TypeEntry.localtime
  transitions := (z.times.zip z.indices).map (transitionTo (z.types.map TypeEntry.localtime))
  abbreviation := z.abbreviation

end ZoneFile

theorem accepts_readBytes (n : ℤ) :
    Accepts (readBytes n) fun d bytes a d' => (bytes.length : ℤ) = n ∧ a = bytes ∧ d' = d := by
  unfold readBytes
  split
  · next hneg =>
      refine (Accepts.throw _).congr fun d bytes a d' => ?_
      constructor
      · exact False.elim
      · rintro ⟨hlen, -, -⟩
        omega
  · next hpos =>
      refine (Accepts.take _ _).congr fun d bytes a d' => ?_
      have hlen : bytes.length = n.toNat ↔ (bytes.length : ℤ) = n := by omega
      rw [hlen]

theorem accepts_readInt32 :
    Accepts readInt32 fun d bytes v d' => CInt.inRange v ∧ bytes = bytesOfInt32 v ∧ d' = d := by
  refine ((Accepts.take 4 _).map int32).congr fun d bytes v d' => ?_
  constructor
  · rintro ⟨a, ⟨hlen, rfl, rfl⟩, hv⟩
    rw [hv]
    exact ⟨inRange_int32 a, (bytesOfInt32_int32 hlen).symm, rfl⟩
  · rintro ⟨hrange, rfl, rfl⟩
    exact ⟨bytesOfInt32 v, ⟨length_bytesOfInt32 v, rfl, rfl⟩, (int32_bytesOfInt32 hrange).symm⟩

theorem accepts_readUInt8 :
    Accepts readUInt8 fun d bytes v d' => v < 256 ∧ bytes = [UInt8.ofNat v] ∧ d' = d := by
  refine ((Accepts.take 1 _).map fun bytes : List UInt8 => (bytes.getD 0 0).toNat).congr
    fun d bytes v d' => ?_
  constructor
  · rintro ⟨a, ⟨hlen, rfl, rfl⟩, rfl⟩
    obtain ⟨b, rfl⟩ := List.length_eq_one_iff.1 hlen
    exact ⟨b.toNat_lt, by simp, rfl⟩
  · rintro ⟨hlt, rfl, rfl⟩
    refine ⟨[UInt8.ofNat v], ⟨rfl, rfl, rfl⟩, ?_⟩
    simp [Nat.mod_eq_of_lt hlt]

theorem accepts_readHead : Accepts readHead fun d bytes _ d' => bytes = magic ∧ d' = d := by
  have htest : ∀ head : List UInt8, Accepts
      (if head ≠ magic then throw (.threw .badHead) else pure () : FileReader Unit)
      fun d bytes _ d' => head = magic ∧ bytes = [] ∧ d' = d := by
    intro head
    split
    · next hne =>
        exact (Accepts.throw _).congr fun d bytes a d' => ⟨False.elim, fun h => hne h.1⟩
    · next heq =>
        refine (Accepts.pure ()).congr fun d bytes a d' => ?_
        simp [not_not.1 heq]
  refine ((accepts_readBytes 4).bind htest).congr fun d bytes a d'' => ?_
  constructor
  · rintro ⟨first, last, head, d', rfl, ⟨-, rfl, rfl⟩, rfl, rfl, rfl⟩
    exact ⟨List.append_nil _, rfl⟩
  · rintro ⟨rfl, rfl⟩
    exact ⟨magic, [], magic, d'', (List.append_nil _).symm, ⟨rfl, rfl, rfl⟩, rfl, rfl, rfl⟩

/-- Three integers after the part of the header that is not used. -/
theorem countsOf_encode {unused : List UInt8} (h : unused.length = 28) {timecnt typecnt charcnt : ℤ}
    (htime : CInt.inRange timecnt) (htype : CInt.inRange typecnt) (hchar : CInt.inRange charcnt) :
    countsOf (unused ++ (bytesOfInt32 timecnt ++ (bytesOfInt32 typecnt ++ bytesOfInt32 charcnt))) =
      ⟨timecnt, typecnt, charcnt⟩ := by
  have hdrop : ∀ k (rest : List UInt8), (unused ++ rest).drop (28 + k) = rest.drop k := by
    intro k rest
    rw [← h, List.drop_append]
    simp
  simp only [countsOf]
  rw [hdrop 0, hdrop 4, hdrop 8]
  have htake : ∀ (a : ℤ) (rest : List UInt8), (bytesOfInt32 a ++ rest).take 4 = bytesOfInt32 a :=
    fun _ _ => rfl
  have hskip : ∀ (a : ℤ) (k : ℕ) (rest : List UInt8),
      (bytesOfInt32 a ++ rest).drop (4 + k) = rest.drop k := by
    intro a k rest
    rw [Nat.add_comm]
    rfl
  rw [List.drop_zero, htake, hskip timecnt 0, List.drop_zero, htake, hskip timecnt 4,
    hskip typecnt 0, List.drop_zero, ← List.append_nil (bytesOfInt32 charcnt), htake,
    int32_bytesOfInt32 htime, int32_bytesOfInt32 htype, int32_bytesOfInt32 hchar]

theorem exists_unused {bytes : List UInt8} (h : bytes.length = 40) :
    ∃ unused, unused.length = 28 ∧ bytes = unused ++ (bytesOfInt32 (countsOf bytes).timecnt ++
      (bytesOfInt32 (countsOf bytes).typecnt ++ bytesOfInt32 (countsOf bytes).charcnt)) := by
  refine ⟨bytes.take 28, by rw [List.length_take, h]; rfl, ?_⟩
  have hfour : ∀ k, k + 4 ≤ 40 → ((bytes.drop k).take 4).length = 4 := by
    intro k hk
    rw [List.length_take, List.length_drop, h]
    omega
  have hlast : (bytes.drop 36).take 4 = bytes.drop 36 :=
    List.take_of_length_le (by rw [List.length_drop, h])
  have hsplit : ∀ k, (bytes.drop k).take 4 ++ bytes.drop (k + 4) = bytes.drop k := by
    intro k
    rw [← List.drop_drop]
    exact List.take_append_drop 4 (bytes.drop k)
  simp only [countsOf]
  rw [bytesOfInt32_int32 (hfour 28 (by omega)), bytesOfInt32_int32 (hfour 32 (by omega)),
    bytesOfInt32_int32 (hfour 36 (by omega)), hlast, hsplit 32, hsplit 28, List.take_append_drop]

theorem accepts_readCounts :
    Accepts readCounts fun d bytes c d' => (∃ unused : List UInt8, unused.length = 28 ∧
      bytes = unused ++ (bytesOfInt32 c.timecnt ++ (bytesOfInt32 c.typecnt ++
        bytesOfInt32 c.charcnt))) ∧ CInt.inRange c.timecnt ∧ CInt.inRange c.typecnt ∧
      CInt.inRange c.charcnt ∧ d' = d := by
  have hreads := Accepts.of_reads reads_readCounts fun bytes rest hlen => by
    simp only [countsOf]
    rw [List.drop_append_of_le_length (by omega), List.drop_append_of_le_length (by omega),
      List.drop_append_of_le_length (by omega), List.take_append_of_le_length,
      List.take_append_of_le_length, List.take_append_of_le_length]
    all_goals
      rw [List.length_drop]
      omega
  refine hreads.congr fun d bytes c d' => ?_
  constructor
  · rintro ⟨hlen, hc, rfl⟩
    rw [hc]
    refine ⟨exists_unused hlen, ?_, ?_, ?_, rfl⟩
    all_goals
      simp only [countsOf]
      exact inRange_int32 _
  · rintro ⟨⟨unused, hunused, rfl⟩, htime, htype, hchar, rfl⟩
    refine ⟨?_, (countsOf_encode hunused htime htype hchar).symm, rfl⟩
    simp [hunused]

theorem accepts_reserve (timecnt : ℤ) :
    Accepts (reserve timecnt) fun d bytes _ d' => 0 ≤ timecnt ∧ bytes = [] ∧ d' = d := by
  unfold reserve
  split
  · next hneg =>
      exact (Accepts.throw _).congr fun d bytes a d' =>
        ⟨False.elim, fun h => absurd h.1 hneg.not_ge⟩
  · next hpos =>
      refine (Accepts.pure ()).congr fun d bytes a d' => ?_
      simp [not_lt.1 hpos]

theorem accepts_readTimes (timecnt : ℕ) :
    Accepts (readTimes timecnt) fun d bytes times d' => ∃ trans : List ℤ, ∃ indices : List ℕ,
      times = trans.zip indices ∧ trans.length = timecnt ∧ indices.length = timecnt ∧
      (∀ t ∈ trans, CInt.inRange t) ∧ (∀ i ∈ indices, i < 256) ∧
      bytes = trans.flatMap bytesOfInt32 ++ indices.flatMap (fun i => [UInt8.ofNat i]) ∧
      d' = d := by
  refine ((accepts_readInt32.many timecnt).bind fun trans => (accepts_readUInt8.many timecnt).map
    fun indices => trans.zip indices).congr fun d bytes times d'' => ?_
  constructor
  · rintro ⟨first, last, trans, d', rfl, ⟨htrans, hrange, rfl, rfl⟩, indices,
      ⟨hindices, hbyte, rfl, rfl⟩, rfl⟩
    exact ⟨trans, indices, rfl, htrans, hindices, hrange, hbyte, rfl, rfl⟩
  · rintro ⟨trans, indices, rfl, htrans, hindices, hrange, hbyte, rfl, rfl⟩
    exact ⟨_, _, trans, d'', rfl, ⟨htrans, hrange, rfl, rfl⟩, indices,
      ⟨hindices, hbyte, rfl, rfl⟩, rfl⟩

theorem accepts_readType :
    Accepts readType fun d bytes type d' =>
      ∃ e : TypeEntry, type = e.localtime ∧ bytes = e.encode ∧ d' = d := by
  have hreads := Accepts.of_reads reads_readType fun bytes rest hlen => by
    simp only [typeOf]
    simp only [List.getD_eq_getElem?_getD]
    rw [List.take_append_of_le_length (by omega), List.getElem?_append_left (by omega),
      List.getElem?_append_left (by omega)]
  refine hreads.congr fun d bytes type d' => ?_
  constructor
  · rintro ⟨hlen, rfl, rfl⟩
    obtain ⟨e, rfl⟩ := TypeEntry.exists_of_length hlen
    exact ⟨e, e.typeOf_encode, rfl, rfl⟩
  · rintro ⟨e, rfl, rfl, rfl⟩
    exact ⟨rfl, e.typeOf_encode.symm, rfl⟩

theorem accepts_readTypes (n : ℕ) :
    Accepts (readTypes n) fun d bytes _ d' => ∃ types : List TypeEntry, types.length = n ∧
      bytes = types.flatMap TypeEntry.encode ∧
      d' = withTypes d (types.map TypeEntry.localtime) := by
  induction n with
  | zero =>
      refine (Accepts.pure ()).congr fun d bytes a d' => ?_
      constructor
      · rintro ⟨rfl, -, rfl⟩
        exact ⟨[], rfl, rfl, by simp [withTypes]⟩
      · rintro ⟨types, hlen, rfl, rfl⟩
        obtain rfl := List.length_eq_zero_iff.1 hlen
        simp [withTypes]
  | succ n ih =>
      have hpush : ∀ type, Accepts (pushLocaltime type)
          fun d bytes _ d' => bytes = [] ∧ d' = withTypes d [type] :=
        fun type => Accepts.modify fun d => withTypes d [type]
      refine (accepts_readType.bind fun type => (hpush type).bind fun _ => ih).congr
        fun d bytes a d' => ?_
      constructor
      · rintro ⟨first, last, type, d1, rfl, ⟨e, rfl, rfl, rfl⟩, second, third, -, d2, rfl,
          ⟨rfl, rfl⟩, types, rfl, rfl, rfl⟩
        refine ⟨e :: types, rfl, rfl, ?_⟩
        rw [withTypes_withTypes, List.map_cons]
      · rintro ⟨types, hlen, rfl, rfl⟩
        obtain ⟨e, types', rfl⟩ := List.exists_of_length_succ types hlen
        refine ⟨e.encode, types'.flatMap TypeEntry.encode, e.localtime, d, rfl, ⟨e, rfl, rfl, rfl⟩,
          [], types'.flatMap TypeEntry.encode, (), withTypes d [e.localtime], rfl, ⟨rfl, rfl⟩,
          types', Nat.succ.inj hlen, rfl, ?_⟩
        rw [withTypes_withTypes, List.map_cons]

/-- The transitions that are added to some data. -/
def withTransitions (data : Data) (times : List (ℤ × ℕ)) : Data :=
  { data with transitions := data.transitions ++ times.map (transitionTo data.localtimes) }

theorem accepts_addTransitions (times : List (ℤ × ℕ)) :
    Accepts (addTransitions times) fun d bytes _ d' =>
      (∀ x ∈ times, x.2 < d.localtimes.length) ∧ bytes = [] ∧ d' = withTransitions d times := by
  induction times with
  | nil =>
      refine (Accepts.pure ()).congr fun d bytes a d' => ?_
      simp [withTransitions]
  | cons time times ih =>
      obtain ⟨gmttime, localIdx⟩ := time
      intro s a t
      unfold addTransitions
      cases htype : s.store.localtimes[localIdx]? with
      | none =>
          have hge := List.getElem?_eq_none_iff.1 htype
          simp only
          constructor
          · intro h
            cases h
          · rintro ⟨bytes, -, hall, -, -⟩
            have hlt : localIdx < s.store.localtimes.length := hall _ List.mem_cons_self
            omega
      | some type =>
          obtain ⟨hlt, -⟩ := List.getElem?_eq_some_iff.1 htype
          have hentry : transitionTo s.store.localtimes (gmttime, localIdx) =
              ⟨gmttime, gmttime + type.gmtOffset, localIdx⟩ := by
            simp [transitionTo, htype]
          simp only
          rw [ih _ a t]
          refine exists_congr fun bytes => and_congr_right fun _ => ?_
          simp [withTransitions, hentry, hlt]

theorem accepts_readAbbreviation (charcnt : ℤ) :
    Accepts (readAbbreviation charcnt) fun d bytes _ d' =>
      (bytes.length : ℤ) = charcnt ∧ d' = { d with abbreviation := bytes } := by
  have hmodify : ∀ abbreviation : List UInt8, Accepts
      (modify fun s => { s with store := { s.store with abbreviation := abbreviation } } :
        FileReader Unit)
      fun d bytes _ d' => bytes = [] ∧ d' = { d with abbreviation := abbreviation } :=
    fun abbreviation => Accepts.modify fun d : Data => { d with abbreviation := abbreviation }
  refine ((accepts_readBytes charcnt).bind hmodify).congr fun d bytes a d'' => ?_
  constructor
  · rintro ⟨first, last, text, d', rfl, ⟨hlen, rfl, rfl⟩, rfl, rfl⟩
    rw [List.append_nil]
    exact ⟨hlen, rfl⟩
  · rintro ⟨hlen, rfl⟩
    exact ⟨bytes, [], bytes, d, (List.append_nil bytes).symm, ⟨hlen, rfl, rfl⟩, rfl, rfl⟩

theorem accepts_readBody (times : List (ℤ × ℕ)) (typecnt charcnt : ℤ) :
    Accepts (readBody times typecnt charcnt) fun d bytes _ d' =>
      ∃ types : List TypeEntry, ∃ abbreviation : List UInt8,
        types.length = typecnt.toNat ∧ (abbreviation.length : ℤ) = charcnt ∧
        (∀ x ∈ times, x.2 < (withTypes d (types.map TypeEntry.localtime)).localtimes.length) ∧
        bytes = types.flatMap TypeEntry.encode ++ abbreviation ∧
        d' = { withTransitions (withTypes d (types.map TypeEntry.localtime)) times with
          abbreviation := abbreviation } := by
  refine ((accepts_readTypes typecnt.toNat).bind fun _ => (accepts_addTransitions times).bind
    fun _ => accepts_readAbbreviation charcnt).congr fun d bytes a d' => ?_
  constructor
  · rintro ⟨first, last, -, d1, rfl, ⟨types, htypes, rfl, rfl⟩, second, abbreviation, -, d2, rfl,
      ⟨hindex, rfl, rfl⟩, hlen, rfl⟩
    exact ⟨types, abbreviation, htypes, hlen, hindex, rfl, rfl⟩
  · rintro ⟨types, abbreviation, htypes, hlen, hindex, rfl, rfl⟩
    exact ⟨types.flatMap TypeEntry.encode, abbreviation, (),
      withTypes d (types.map TypeEntry.localtime), rfl, ⟨types, htypes, rfl, rfl⟩, [],
      abbreviation, (), withTransitions (withTypes d (types.map TypeEntry.localtime)) times, rfl,
      ⟨hindex, rfl, rfl⟩, hlen, rfl⟩

theorem forall_mem_zip_iff {times : List ℤ} {indices : List ℕ} (h : indices.length = times.length)
    (n : ℕ) : (∀ x ∈ times.zip indices, x.2 < n) ↔ ∀ i ∈ indices, i < n := by
  have hmap : (times.zip indices).map Prod.snd = indices :=
    List.map_snd_zip h.le
  constructor
  · intro hall i hi
    rw [← hmap] at hi
    obtain ⟨x, hx, rfl⟩ := List.mem_map.1 hi
    exact hall x hx
  · intro hall x hx
    refine hall x.2 ?_
    rw [← hmap]
    exact List.mem_map_of_mem hx

/-- The reader of the whole file accepts the encodings. -/
theorem readZone_iff {bytes : List UInt8} {t : Source UInt8 Data} :
    readZone ⟨bytes, .empty⟩ = .ok () t ↔
      ∃ z : ZoneFile, bytes = z.encode ++ t.rest ∧ t.store = z.data := by
  have hzone := accepts_readHead.bind fun _ => accepts_readCounts.bind fun counts =>
    (accepts_reserve counts.timecnt).bind fun _ =>
    (accepts_readTimes counts.timecnt.toNat).bind fun times =>
    accepts_readBody times counts.typecnt counts.charcnt
  rw [readZone, hzone ⟨bytes, .empty⟩ () t]
  constructor
  · rintro ⟨_, hbytes, _, _, -, _, rfl, ⟨rfl, rfl⟩, _, _, ⟨timecnt, typecnt, charcnt⟩, _, rfl,
      ⟨⟨unused, hunused, rfl⟩, htime, htype, hchar, rfl⟩, _, _, -, _, rfl, ⟨hpos, rfl, rfl⟩, _, _,
      _, _, rfl, ⟨trans, indices, rfl, htrans, hindices, hrange, hbyte, rfl, rfl⟩, types,
      abbreviation, htypes, hlen, hindex, rfl, hstore⟩
    dsimp only at htime htype hchar hpos htrans hindices htypes hlen hindex hbytes hstore
    obtain rfl : timecnt = trans.length := by omega
    subst hlen
    have hsame : indices.length = trans.length := hindices.trans htrans.symm
    rw [forall_mem_zip_iff hsame, withTypes_empty, List.length_map] at hindex
    refine ⟨⟨unused, typecnt, trans, indices, types, abbreviation, hunused, htype, htypes, hrange,
      htime, hbyte, hsame, hindex, hchar⟩, ?_, ?_⟩
    · rw [hbytes]
      simp [ZoneFile.encode, ZoneFile.counts]
    · rw [hstore]
      simp [ZoneFile.data, withTransitions, withTypes_empty]
  · rintro ⟨z, rfl, hstore⟩
    have hindex : ∀ x ∈ z.times.zip z.indices,
        x.2 < (withTypes .empty (z.types.map TypeEntry.localtime)).localtimes.length := by
      rw [forall_mem_zip_iff z.length_indices, withTypes_empty, List.length_map]
      exact z.index
    refine ⟨z.encode, rfl, magic, _, (), .empty, rfl, ⟨rfl, rfl⟩, z.unused ++ z.counts, _,
      ⟨z.times.length, z.typecnt, z.abbreviation.length⟩, .empty, rfl,
      ⟨⟨z.unused, z.length_unused, rfl⟩, z.length_times, z.range_typecnt, z.length_abbreviation,
        rfl⟩, [], _, (), .empty, rfl, ⟨by simp, rfl, rfl⟩, _, _, z.times.zip z.indices, .empty,
      rfl, ⟨z.times, z.indices, rfl, by simp, by simp [z.length_indices], z.range_times,
        z.byte_indices, rfl, rfl⟩, z.types, z.abbreviation, z.length_types, rfl, hindex, rfl, ?_⟩
    rw [hstore]
    simp [ZoneFile.data, withTransitions, withTypes_empty]

/-- A file is read in silence exactly if it begins with an encoding, and then the result
is what the encoding means. -/
theorem readTimeZoneFile_iff (bytes : List UInt8) (data : Data) :
    readTimeZoneFile (some bytes) = .ok ⟨true, data, none⟩ ↔
      ∃ (z : ZoneFile) (rest : List UInt8), bytes = z.encode ++ rest ∧ data = z.data := by
  have hsilent : readTimeZoneFile (some bytes) = .ok ⟨true, data, none⟩ ↔
      ∃ rest, readZone ⟨bytes, .empty⟩ = .ok () ⟨rest, data⟩ := by
    simp only [readTimeZoneFile]
    cases hread : readZone ⟨bytes, .empty⟩ with
    | ok u s =>
        constructor
        · intro h
          cases h
          exact ⟨s.rest, rfl⟩
        · rintro ⟨rest, h⟩
          cases h
          rfl
    | error e s => cases e <;> simp
  rw [hsilent]
  constructor
  · rintro ⟨rest, hread⟩
    obtain ⟨z, hbytes, hstore⟩ := readZone_iff.1 hread
    exact ⟨z, rest, hbytes, hstore⟩
  · rintro ⟨z, rest, hbytes, hdata⟩
    exact ⟨rest, readZone_iff.2 ⟨z, hbytes, hdata⟩⟩

end TimeZone

end Base

end SoL
