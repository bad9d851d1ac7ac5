import SoL.Http.Headers

/-!
# Printing a header block and parsing it

A `Field` is printed as a line of its own. The parser takes the first byte of a
value without looking at it, so after an empty value it takes the line end for
the beginning of the value and goes on to the end of the next line; `entries`
are the keys and values that it reads off the printed fields. The byte after the
block is what moves `now_read_line_begin` behind the block, and without that byte
the end of the block stays in `content`.

What is printed comes back exactly when there is a field and a body, the entries are
short and say the same as the fields, and `int` can index the block up to the first
byte of the body (`parseHeaders_printHeaders_iff`).
-/

namespace SoL

namespace Http

structure Field where
  key : Bytes
  value : Bytes
  key_ne_nil : key ≠ []
  keyBytes : keyBytes key
  not_lineEnd : ∀ c ∈ value, ¬ lineEnd c
  length_le : value.length ≤ 255

def Field.entry (f : Field) : Bytes × Bytes := (f.key, f.value)

def lineBytes (e : Bytes × Bytes) : Bytes := e.1 ++ [colon, space] ++ e.2 ++ [CR, LF]

/-- The end of the request line, the fields, an empty line and the body. -/
def printHeaders (fields : List Field) (body : Bytes) : Bytes :=
  [LF] ++ fields.flatMap (fun f => lineBytes f.entry) ++ [CR, LF] ++ body

/-- Every key with its last value. -/
def lastValues (es : List (Bytes × Bytes)) : Headers := fun key => es.reverse.lookup key

/-- What the parser reads off printed fields: a field with an empty value gets the
line after it for its value. -/
def entries : List Field → List (Bytes × Bytes)
  | [] => []
  | [f] => [f.entry]
  | f :: g :: rest =>
      if f.value = [] then
        (f.key, [CR, LF] ++ (g.key ++ [colon, space] ++ g.value)) :: entries rest
      else f.entry :: entries (g :: rest)

/-- No value is empty at the end of the fields or grows over the limit, and no key
has another last value, when every empty value is joined with the next line. -/
structure Separate (fields : List Field) : Prop where
  short : ∀ e ∈ entries fields, e.2 ≠ [] ∧ e.2.length ≤ 256
  last : lastValues (entries fields) = lastValues (fields.map Field.entry)

section

variable {fields : List Field} {es : List (Bytes × Bytes)} {e : Bytes × Bytes}

theorem entries_of_ne_nil (h : ∀ f ∈ fields, f.value ≠ []) :
    entries fields = fields.map Field.entry := by
  fun_induction entries fields with
  | case1 => rfl
  | case2 f => rfl
  | case3 f g rest hempty ih => exact absurd hempty (h f List.mem_cons_self)
  | case4 f g rest hvalue ih =>
      rw [ih fun x hx => h x (List.mem_cons_of_mem f hx)]
      rfl

/-- Fields without empty values are separate. -/
theorem separate_of_ne_nil (h : ∀ f ∈ fields, f.value ≠ []) : Separate fields := by
  refine ⟨fun e he => ?_, by rw [entries_of_ne_nil h]⟩
  rw [entries_of_ne_nil h] at he
  obtain ⟨f, hf, rfl⟩ := List.mem_map.1 he
  exact ⟨h f hf, f.length_le.trans (by omega)⟩

/-- The entries are printed like the fields. -/
theorem flatMap_entries (fields : List Field) :
    (entries fields).flatMap lineBytes = fields.flatMap fun f => lineBytes f.entry := by
  fun_induction entries fields with
  | case1 => rfl
  | case2 f => simp
  | case3 f g rest hempty ih =>
      simp only [List.flatMap_cons, ih]
      simp [lineBytes, Field.entry, hempty]
  | case4 f g rest hvalue ih =>
      rw [List.flatMap_cons, ih]
      rfl

/-- An entry that is one line for the parser. -/
structure Plain (e : Bytes × Bytes) : Prop where
  key_ne_nil : e.1 ≠ []
  keyBytes : keyBytes e.1
  tail_ne : ∀ c ∈ e.2.tail, c ≠ CR

theorem Field.plain (f : Field) : Plain f.entry :=
  ⟨f.key_ne_nil, f.keyBytes, fun c hc hCR =>
    f.not_lineEnd c (List.mem_of_mem_tail hc) (.inr hCR)⟩

theorem plain_joined (f g : Field) :
    Plain (f.key, [CR, LF] ++ (g.key ++ [colon, space] ++ g.value)) := by
  refine ⟨f.key_ne_nil, f.keyBytes, fun c hc hCR => ?_⟩
  subst hCR
  have hmem : CR = LF ∨ CR ∈ g.key ∨ CR = colon ∨ CR = space ∨ CR ∈ g.value := by
    simpa using hc
  obtain h | h | h | h | h := hmem
  · exact absurd h (by decide)
  · exact (g.keyBytes CR h).2 (.inr rfl)
  · exact absurd h (by decide)
  · exact absurd h (by decide)
  · exact g.not_lineEnd CR h (.inr rfl)

theorem plain_of_mem_entries (he : e ∈ entries fields) : Plain e := by
  fun_induction entries fields with
  | case1 => simp at he
  | case2 f =>
      obtain rfl : e = f.entry := by simpa using he
      exact f.plain
  | case3 f g rest hempty ih =>
      obtain rfl | he := List.mem_cons.1 he
      · exact plain_joined f g
      · exact ih he
  | case4 f g rest hvalue ih =>
      obtain rfl | he := List.mem_cons.1 he
      · exact f.plain
      · exact ih he

/-- A plain entry with a value that is not too long is a line. -/
theorem Plain.exists_line (h : Plain e) (hvalue : e.2 ≠ []) (hlen : e.2.length ≤ 256) :
    ∃ l : Line, l.bytes = lineBytes e ∧ l.keyFirst ≠ LF ∧
      (l.keyFirst :: l.key, l.valueFirst :: l.value) = e := by
  obtain ⟨key, value⟩ := e
  obtain ⟨hkey, hbytes, htail⟩ := h
  cases key with
  | nil => simp at hkey
  | cons b key =>
      cases value with
      | nil => simp at hvalue
      | cons v value =>
          have hb : ¬ (b = LF ∨ b = CR) := (hbytes b List.mem_cons_self).2
          refine ⟨⟨b, key, v, value, fun hCR => hb (.inr hCR),
            fun c hc => hbytes c (List.mem_cons_of_mem b hc), htail, ?_⟩, ?_,
            fun hLF => hb (.inl hLF), rfl⟩
          · rw [List.length_cons] at hlen
            omega
          · simp [Line.bytes, lineBytes]

theorem lastValues_append (es : List (Bytes × Bytes)) (e : Bytes × Bytes) :
    lastValues (es ++ [e]) = Function.update (lastValues es) e.1 (some e.2) := by
  funext key
  obtain ⟨k, v⟩ := e
  by_cases h : key = k
  · subst h
    simp [lastValues]
  · have hne : (key == k) = false := by simpa using h
    simp [lastValues, List.lookup_cons, hne, Function.update_of_ne h]

end

namespace Scan

variable {str p q : Bytes} {i : ℕ} {s t : Scan}

/-- Too many bytes of a value end the loop. -/
theorem scan_value_long (str : Bytes) (hq : ∀ c ∈ q, c ≠ CR) (hs : s.hState = .h_value)
    (hfin : s.notFinish = true) (hlen : s.valueStart + 256 < (i : ℤ) + q.length)
    (hi : (i : ℤ) ≤ s.valueStart + 256) : ∃ t, scan str q i s = .error t := by
  induction q generalizing i with
  | nil =>
      rw [List.length_nil] at hlen
      omega
  | cons c q ih =>
      have hc : c ≠ CR := hq c List.mem_cons_self
      rw [scan_cons c hfin]
      by_cases hlong : (i : ℤ) - s.valueStart > 255
      · have hround : advance str i c s = .error s := by simp [advance, hs, hc, hlong]
        exact ⟨s, by rw [hround]⟩
      · have hround : advance str i c s = .going s := by simp [advance, hs, hc, hlong]
        rw [hround]
        rw [List.length_cons, Nat.cast_add, Nat.cast_one] at hlen
        refine ih (fun b hb => hq b (List.mem_cons_of_mem c hb)) ?_ ?_
        · rw [Nat.cast_add, Nat.cast_one]
          omega
        · rw [Nat.cast_add, Nat.cast_one]
          omega

/-- The rounds of a line up to the first byte of its value. -/
theorem scan_line_head (str : Bytes) (i : ℕ) {b : UInt8} (v : UInt8) {key : Bytes}
    (hkey : keyBytes (b :: key))
    (hs : s.hState = .h_LF ∨ s.hState = .h_start) (hfin : s.notFinish = true) :
    ∃ t, scan str (b :: key ++ [colon, space, v]) i s = .going t ∧ t.hState = .h_value ∧
      t.notFinish = true ∧ t.valueStart = (i + key.length + 3 : ℕ) := by
  have hb : ¬ (b = LF ∨ b = CR) := (hkey b List.mem_cons_self).2
  have hrest : keyBytes key := fun c hc => hkey c (List.mem_cons_of_mem b hc)
  have hfirst : ∃ t, advance str i b s = .going t ∧ t.hState = .h_key ∧ t.notFinish = true ∧
      t.keyStart = i := by
    obtain hs | hs := hs
    · have hCR : b ≠ CR := fun h => hb (.inr h)
      exact ⟨{ s with keyStart := i, hState := .h_key }, by simp [advance, hs, hCR], rfl, hfin, rfl⟩
    · exact ⟨{ s with hState := .h_key, keyStart := i, nowReadLineBegin := i },
        by simp [advance, hs, hb], rfl, hfin, rfl⟩
  obtain ⟨t, ht, htstate, htfin, htkey⟩ := hfirst
  have hpositive : ¬ ((i + 1 + key.length : ℕ) : ℤ) - t.keyStart ≤ 0 := by
    rw [htkey]
    omega
  rw [List.cons_append, scan_cons b hfin, ht]
  simp only
  rw [scan_append, scan_key hrest htstate htfin]
  simp only [scan_cons, htfin, advance, htstate, if_true, hpositive, if_false, scan_nil]
  refine ⟨_, rfl, rfl, rfl, ?_⟩
  push_cast
  omega

/-- A line with a value that is too long ends the loop. -/
theorem scan_line_long {e : Bytes × Bytes} (he : Plain e) (hlen : 256 < e.2.length)
    (hs : s.hState = .h_LF ∨ s.hState = .h_start) (hfin : s.notFinish = true) (r : Bytes) :
    ∃ t, scan str (lineBytes e ++ r) i s = .error t := by
  obtain ⟨key, value⟩ := e
  obtain ⟨hkey, hbytes, htail⟩ := he
  cases key with
  | nil => simp at hkey
  | cons b key =>
      cases value with
      | nil => simp at hlen
      | cons v value =>
          obtain ⟨t, ht, htstate, htfin, htstart⟩ :=
            scan_line_head str i v hbytes hs hfin
          have hsplit : lineBytes (b :: key, v :: value) ++ r =
              (b :: key ++ [colon, space, v]) ++ (value ++ ([CR, LF] ++ r)) := by
            simp [lineBytes]
          rw [List.length_cons] at hlen
          rw [hsplit, scan_append, ht]
          simp only
          rw [scan_append]
          obtain ⟨u, hu⟩ := scan_value_long str (q := value) htail htstate htfin
            (i := i + (b :: key ++ [colon, space, v]).length) (by simp [htstart]; omega)
            (by simp [htstart]; omega)
          exact ⟨u, by rw [hu]⟩

/-- The loop over printed entries that are not too long stores them one by one. -/
theorem scan_entries (str : Bytes) {a : Bytes} {es : List (Bytes × Bytes)}
    (hplain : ∀ e ∈ es, Plain e) (hshort : ∀ e ∈ es, e.2 ≠ [] ∧ e.2.length ≤ 256)
    (ha : a ++ es.flatMap lineBytes <+: str) (hes : es ≠ []) (ha_state : s.hState = .h_start)
    (hfin : s.notFinish = true) (hheaders : s.headers = lastValues []) :
    ∃ t, scan str (es.flatMap lineBytes) a.length s = .going t ∧ t.hState = .h_LF ∧
      t.notFinish = true ∧ t.headers = lastValues es := by
  induction es using List.reverseRecOn with
  | nil => exact absurd rfl hes
  | append_singleton es e ih =>
      have hmem : e ∈ es ++ [e] := by simp
      obtain ⟨l, hl, hLF, hentry⟩ :=
        (hplain e hmem).exists_line (hshort e hmem).1 (hshort e hmem).2
      have hlast : (es ++ [e]).flatMap lineBytes = es.flatMap lineBytes ++ l.bytes := by
        simp [hl]
      rw [hlast] at ha ⊢
      -- what the loop has stored before the last entry
      have hbefore : ∃ t, scan str (es.flatMap lineBytes) a.length s = .going t ∧
          (t.hState = .h_LF ∨ t.hState = .h_start ∧ l.keyFirst ≠ LF) ∧
          t.notFinish = true ∧ t.headers = lastValues es := by
        by_cases hnil : es = []
        · subst hnil
          exact ⟨s, rfl, .inr ⟨ha_state, hLF⟩, hfin, hheaders⟩
        · obtain ⟨t, ht, htstate, htfin, htheaders⟩ :=
            ih (fun x hx => hplain x (List.mem_append_left _ hx))
              (fun x hx => hshort x (List.mem_append_left _ hx))
              (.trans ⟨l.bytes, by simp⟩ ha) hnil
          exact ⟨t, ht, .inl htstate, htfin, htheaders⟩
      obtain ⟨t, ht, htstate, htfin, htheaders⟩ := hbefore
      rw [scan_append, ht]
      simp only
      rw [← List.append_assoc] at ha
      obtain ⟨u, hu, hustate, hufin, -, huheaders⟩ := scan_line l ha htstate htfin
      rw [List.length_append] at hu
      refine ⟨u, hu, hustate, hufin, ?_⟩
      rw [huheaders, htheaders, lastValues_append, ← hentry]

/-- A printed entry that is too long ends the loop. -/
theorem scan_entries_long (str : Bytes) {a r : Bytes} {es : List (Bytes × Bytes)}
    (hplain : ∀ e ∈ es, Plain e) (hne : ∀ e ∈ es, e.2 ≠ []) (hlong : ∃ e ∈ es, 256 < e.2.length)
    (ha : a ++ es.flatMap lineBytes <+: str) (hs : s.hState = .h_LF ∨ s.hState = .h_start)
    (hfin : s.notFinish = true) :
    ∃ t, scan str (es.flatMap lineBytes ++ r) a.length s = .error t := by
  induction es generalizing a s with
  | nil => simp at hlong
  | cons e es ih =>
      rw [List.flatMap_cons] at ha
      rw [List.flatMap_cons, List.append_assoc]
      by_cases he : 256 < e.2.length
      · exact scan_line_long (hplain e List.mem_cons_self) he hs hfin _
      obtain ⟨l, hl, hLF, -⟩ := (hplain e List.mem_cons_self).exists_line
        (hne e List.mem_cons_self) (by omega)
      rw [← hl, ← List.append_assoc] at ha
      obtain ⟨t, ht, htstate, htfin, -⟩ := scan_line l (.trans ⟨es.flatMap lineBytes, rfl⟩ ha)
        (hs.imp_right fun h => ⟨h, hLF⟩) hfin
      rw [← hl, scan_append, ht]
      have hrest := ih (fun x hx => hplain x (List.mem_cons_of_mem e hx))
        (fun x hx => hne x (List.mem_cons_of_mem e hx)) ?_ ha (.inl htstate) htfin
      · rwa [List.length_append] at hrest
      · obtain ⟨x, hx, hxlong⟩ := hlong
        obtain rfl | hx := List.mem_cons.1 hx
        · exact absurd hxlong he
        · exact ⟨x, hx, hxlong⟩

/-- The values that the loop has stored and is about to store are not empty, and
there is a header when a line has ended. -/
structure Stored (s : Scan) : Prop where
  bounds : s.hState = .h_CR → s.valueStart < s.valueEnd
  values : ∀ key, s.headers key ≠ some []
  header : s.hState ≠ .h_start → midLine s.hState = false → ∃ key, s.headers key ≠ none

theorem stored_enter : Stored (enter .h_start (lastValues [])) :=
  ⟨by simp [enter], by simp [enter, lastValues], by simp [enter]⟩

theorem substring_ne_nil {first last : ℤ} (h : first < last) :
    substring str first last ≠ some [] := by
  intro hsub
  unfold substring at hsub
  split at hsub
  · have hlen := congrArg List.length (Option.some.inj hsub)
    rw [List.length_take, List.length_drop, List.length_nil] at hlen
    omega
  · cases hsub

theorem stored_round {c : UInt8} (h : Stored s) (hround : Round str i c s t) : Stored t := by
  cases hround with
  | lead | key | value => exact h
  | first | keyEnd | colon | valueStart | next => exact ⟨by simp, h.values, by simp [midLine]⟩
  | valueEnd _ _ hlen => exact ⟨fun _ => hlen, h.values, by simp [midLine]⟩
  | store key value hstate _ _ hvalue =>
      have hne : value ≠ [] := by
        rintro rfl
        exact substring_ne_nil (h.bounds hstate) hvalue
      refine ⟨by simp, fun k => ?_, fun _ _ => ⟨key, by simp⟩⟩
      by_cases hk : k = key
      · subst hk
        simpa using hne
      · simpa [Function.update_of_ne hk] using h.values k
  | endCR hstate | endLF hstate | body hstate =>
      have hheader := h.header (by simp [hstate]) (by simp [hstate, midLine])
      exact ⟨by simp, h.values, fun _ _ => hheader⟩

end Scan

namespace RequestData

/-- A request at its header block. -/
def atHeaders (r : RequestData) (content : Bytes) : RequestData :=
  { r with content := content, hState := .h_start, headers := lastValues [] }

/-- The header block is parsed back into the fields that were printed, and the body
is left. -/
def ParsesBack (r : RequestData) (fields : List Field) (body : Bytes) : Prop :=
  ∃ r', (r.atHeaders (printHeaders fields body)).parseHeaders = some (.success, r') ∧
    r'.headers = lastValues (fields.map Field.entry) ∧ r'.content = body

section

variable {r r' : RequestData} {fields : List Field} {body content : Bytes}

theorem printHeaders_eq (fields : List Field) (body : Bytes) :
    printHeaders fields body =
      [LF] ++ ((entries fields).flatMap lineBytes ++ ([CR, LF] ++ body)) := by
  rw [flatMap_entries]
  simp [printHeaders]

/-- The end of the request line is skipped. -/
theorem scan_printHeaders (fields : List Field) (body : Bytes) :
    Scan.scan (printHeaders fields body) (printHeaders fields body) 0
        (Scan.enter .h_start (lastValues [])) =
      Scan.scan (printHeaders fields body)
        ((entries fields).flatMap lineBytes ++ ([CR, LF] ++ body)) [LF].length
        (Scan.enter .h_start (lastValues [])) := by
  have hlead : Scan.scan (printHeaders fields body) [LF] 0
      (Scan.enter .h_start (lastValues [])) = .going (Scan.enter .h_start (lastValues [])) :=
    Scan.scan_lead (by simp [lineEnd]) rfl rfl
  nth_rewrite 2 [printHeaders_eq]
  rw [Scan.scan_append, hlead]
  rfl

theorem entries_ne_nil (h : fields ≠ []) : entries fields ≠ [] := by
  fun_cases entries fields with
  | case1 => exact absurd rfl h
  | case2 f => simp
  | case3 f g rest hempty => simp
  | case4 f g rest hvalue => simp

/-- The block comes to its end behind the empty line, whatever comes then. -/
theorem scan_block (body : Bytes) (hfields : fields ≠ [])
    (hshort : ∀ e ∈ entries fields, e.2 ≠ [] ∧ e.2.length ≤ 256) :
    ∃ t, Scan.scan (printHeaders fields body) (printHeaders fields []) 0
        (Scan.enter .h_start (lastValues [])) = .going t ∧ t.hState = .h_end_LF ∧
      t.notFinish = true ∧ t.headers = lastValues (entries fields) := by
  have hlead : Scan.scan (printHeaders fields body) [LF] 0
      (Scan.enter .h_start (lastValues [])) = .going (Scan.enter .h_start (lastValues [])) :=
    Scan.scan_lead (by simp [lineEnd]) rfl rfl
  obtain ⟨t, ht, htstate, htfin, htheaders⟩ := Scan.scan_entries (printHeaders fields body)
    (a := [LF]) (fun e he => plain_of_mem_entries he) hshort
    ⟨[CR, LF] ++ body, by rw [printHeaders_eq]; simp⟩ (entries_ne_nil hfields)
    (s := Scan.enter .h_start (lastValues [])) rfl rfl rfl
  rw [printHeaders_eq fields [], Scan.scan_append, hlead]
  simp only [Nat.zero_add]
  rw [Scan.scan_append, ht]
  simp only [List.append_nil, Scan.scan_cons, Scan.advance, htstate, htfin, if_true, Scan.scan_nil]
  exact ⟨_, rfl, rfl, rfl, htheaders⟩

/-- Without a body the end of the last line stays with the empty line. -/
theorem parseHeaders_printHeaders_nil (hfields : fields ≠ [])
    (hshort : ∀ e ∈ entries fields, e.2 ≠ [] ∧ e.2.length ≤ 256)
    (hlen : (printHeaders fields []).length < 2 ^ 31) :
    (r.atHeaders (printHeaders fields [])).parseHeaders = some (.success, { r with
      content := [LF, CR, LF]
      hState := .h_end_LF
      headers := lastValues (entries fields) }) := by
  obtain ⟨t, ht, htstate, htfin, htheaders⟩ := scan_block [] hfields hshort
  have hleaves := Scan.leaves_scan_enter (printHeaders fields []) (lastValues [])
  simp only [ht, Scan.Leaves, htfin, Scan.Reads, htstate, Bool.true_eq_false, false_and, or_false,
    true_and] at hleaves
  obtain ⟨a, -, -, hdrop⟩ := hleaves
  rw [parseHeaders_eq hlen]
  simp only [atHeaders, ht, htstate, htheaders, hdrop, if_true]

/-- The first byte of the body is the last that the loop looks at. -/
theorem scan_first_byte (fields : List Field) (b : UInt8) (body : Bytes) {t : Scan}
    (htstate : t.hState = .h_end_LF) (htfin : t.notFinish = true) :
    Scan.scan (printHeaders fields (b :: body)) [b] (printHeaders fields []).length t =
      .going { t with
        hState := .h_end_LF
        notFinish := false
        keyStart := (printHeaders fields []).length
        nowReadLineBegin := (printHeaders fields []).length } := by
  simp only [Scan.scan_cons, Scan.advance, htstate, htfin, Scan.scan_nil]

/-- With short entries, a field and a body, the parser comes to the body and has stored
the entries. -/
theorem parseHeaders_printHeaders (hfields : fields ≠ []) (hbody : body ≠ [])
    (hshort : ∀ e ∈ entries fields, e.2 ≠ [] ∧ e.2.length ≤ 256)
    (hlen : (printHeaders fields []).length + 1 < 2 ^ 31) :
    (r.atHeaders (printHeaders fields body)).parseHeaders = some (.success,
      { r with content := body, hState := .h_end_LF, headers := lastValues (entries fields) }) := by
  obtain ⟨b, rest, rfl⟩ := List.exists_cons_of_ne_nil hbody
  have hsplit : printHeaders fields (b :: rest) = printHeaders fields [] ++ [b] ++ rest := by
    simp [printHeaders]
  have hdrop : (printHeaders fields (b :: rest)).drop (printHeaders fields []).length =
      b :: rest := by
    rw [hsplit, List.append_assoc]
    exact List.drop_left
  obtain ⟨t, ht, htstate, htfin, htheaders⟩ := scan_block (b :: rest) hfields hshort
  -- the loop leaves before the rest of the body
  have hloop : Scan.loop (printHeaders fields (b :: rest)) (printHeaders fields (b :: rest)) 0
      (Scan.enter .h_start (lastValues [])) = .going { t with
        hState := .h_end_LF
        notFinish := false
        keyStart := (printHeaders fields []).length
        nowReadLineBegin := (printHeaders fields []).length } := by
    nth_rewrite 2 [hsplit]
    rw [Scan.loop_append, Scan.loop_enter_eq_scan _ _ (by simpa using hlen), Scan.scan_append, ht]
    simp only [Nat.zero_add, scan_first_byte fields b rest htstate htfin]
    exact Scan.loop_finished rfl
  simp only [parseHeaders, atHeaders, hloop, if_true, hdrop, htheaders]

/-- A call that succeeds has come through its loop to the end of a block. -/
theorem exists_loop_of_success (h : (r.atHeaders content).parseHeaders = some (.success, r')) :
    ∃ s, Scan.loop content content 0 (Scan.enter .h_start (lastValues [])) = .going s ∧
      s.hState = .h_end_LF ∧ r'.headers = s.headers ∧
      r'.content = content.drop s.nowReadLineBegin := by
  simp only [parseHeaders, atHeaders] at h
  cases hloop : Scan.loop content content 0 (Scan.enter .h_start (lastValues [])) with
  | outOfRange => simp [hloop] at h
  | error s => simp [hloop] at h
  | going s =>
      simp only [hloop] at h
      split at h
      · rename_i hstate
        obtain ⟨-, rfl⟩ := Prod.mk.inj (Option.some.inj h)
        exact ⟨s, rfl, hstate, rfl, rfl⟩
      · cases h

/-- A call that succeeds has stored a header and no empty value, and it leaves a byte
in `content`. -/
theorem stored_of_success (h : (r.atHeaders content).parseHeaders = some (.success, r')) :
    (∀ key, r'.headers key ≠ some []) ∧ (∃ key, r'.headers key ≠ none) ∧ r'.content ≠ [] := by
  obtain ⟨s, hloop, hstate, hheaders, hcontent⟩ := exists_loop_of_success h
  have hscan := Scan.scan_of_loop hloop
  have hstored := Scan.scan_invariant Scan.stored_round Scan.stored_enter hscan
  have hleaves := Scan.leaves_scan_enter content (lastValues [])
  rw [hscan] at hleaves
  rw [hheaders, hcontent]
  refine ⟨hstored.values, hstored.header (by simp [hstate]) (by simp [hstate, Scan.midLine]), ?_⟩
  obtain ⟨-, hreads⟩ | ⟨-, -, hbegin⟩ := hleaves
  · simp only [Scan.Reads, hstate] at hreads
    obtain ⟨a, -, -, hdrop⟩ := hreads
    simp [hdrop]
  · simpa using hbegin

/-- A call that succeeds has moved its index behind the first byte of the body. -/
theorem length_lt_of_success (hfields : fields ≠ []) (hbody : body ≠ [])
    (hshort : ∀ e ∈ entries fields, e.2 ≠ [] ∧ e.2.length ≤ 256)
    (h : (r.atHeaders (printHeaders fields body)).parseHeaders = some (.success, r')) :
    (printHeaders fields []).length + 1 < 2 ^ 31 := by
  obtain ⟨b, rest, rfl⟩ := List.exists_cons_of_ne_nil hbody
  obtain ⟨s, hs, -⟩ := exists_loop_of_success h
  have hsplit : printHeaders fields (b :: rest) = printHeaders fields [] ++ b :: rest := by
    simp [printHeaders]
  nth_rewrite 2 [hsplit] at hs
  rw [Scan.loop_append] at hs
  obtain ⟨t, ht, -, htfin, -⟩ := scan_block (b :: rest) hfields hshort
  cases hblock : Scan.loop (printHeaders fields (b :: rest)) (printHeaders fields []) 0
      (Scan.enter .h_start (lastValues [])) with
  | outOfRange => simp [hblock] at hs
  | error u => simp [hblock] at hs
  | going u =>
      obtain rfl := Scanned.going.inj (ht.symm.trans (Scan.scan_of_loop hblock))
      simp only [hblock, Nat.zero_add] at hs
      exact Scan.lt_of_loop hs htfin

/-- A value that is empty among the entries belongs to the last field. -/
theorem exists_last_of_mem_entries {e : Bytes × Bytes} (he : e ∈ entries fields)
    (hvalue : e.2 = []) : ∃ fs f, fields = fs ++ [f] ∧ f.value = [] := by
  fun_induction entries fields with
  | case1 => simp at he
  | case2 f =>
      obtain rfl : e = f.entry := by simpa using he
      exact ⟨[], f, rfl, hvalue⟩
  | case3 f g rest hempty ih =>
      obtain rfl | he := List.mem_cons.1 he
      · simp at hvalue
      · obtain ⟨fs, x, rfl, hx⟩ := ih he
        exact ⟨f :: g :: fs, x, rfl, hx⟩
  | case4 f g rest hne ih =>
      obtain rfl | he := List.mem_cons.1 he
      · exact absurd hvalue hne
      · obtain ⟨fs, x, hfs, hx⟩ := ih he
        exact ⟨f :: fs, x, by rw [hfs]; rfl, hx⟩

theorem ParsesBack.separate (h : r.ParsesBack fields body) :
    fields ≠ [] ∧ body ≠ [] ∧ Separate fields ∧ (printHeaders fields []).length + 1 < 2 ^ 31 := by
  obtain ⟨r', hparse, hheaders, hcontent⟩ := h
  obtain ⟨hvalues, ⟨key, hkey⟩, hleft⟩ := stored_of_success hparse
  have hfields : fields ≠ [] := by
    rintro rfl
    rw [hheaders] at hkey
    exact hkey rfl
  have hbody : body ≠ [] := hcontent ▸ hleft
  have hne : ∀ e ∈ entries fields, e.2 ≠ [] := by
    intro e he hempty
    obtain ⟨fs, f, rfl, hf⟩ := exists_last_of_mem_entries he hempty
    apply hvalues f.key
    rw [hheaders, List.map_append, List.map_singleton, lastValues_append]
    simp [Field.entry, hf]
  have hshort : ∀ e ∈ entries fields, e.2 ≠ [] ∧ e.2.length ≤ 256 := by
    by_contra hlong
    push Not at hlong
    obtain ⟨e, he, hlen⟩ := hlong
    obtain ⟨t, ht⟩ := Scan.scan_entries_long (printHeaders fields body) (a := [LF])
      (r := [CR, LF] ++ body) (fun e he => plain_of_mem_entries he) hne
      ⟨e, he, hlen (hne e he)⟩ ⟨[CR, LF] ++ body, by rw [printHeaders_eq]; simp⟩
      (s := Scan.enter .h_start (lastValues [])) (.inr rfl) rfl
    obtain ⟨s, hs, -⟩ := exists_loop_of_success hparse
    rw [← scan_printHeaders, Scan.scan_of_loop hs] at ht
    cases ht
  have hlen := length_lt_of_success hfields hbody hshort hparse
  refine ⟨hfields, hbody, ⟨hshort, ?_⟩, hlen⟩
  rw [parseHeaders_printHeaders hfields hbody hshort hlen] at hparse
  obtain ⟨-, rfl⟩ := Prod.mk.inj (Option.some.inj hparse)
  exact hheaders

/-- Parsing inverts printing exactly when there are a field and a body, the fields stay
separate, and `int` holds the position after the first byte of the body. -/
theorem parseHeaders_printHeaders_iff (r : RequestData) (fields : List Field) (body : Bytes) :
    r.ParsesBack fields body ↔
      fields ≠ [] ∧ body ≠ [] ∧ Separate fields ∧
        (printHeaders fields []).length + 1 < 2 ^ 31 := by
  refine ⟨ParsesBack.separate, ?_⟩
  rintro ⟨hfields, hbody, hseparate, hlen⟩
  exact ⟨_, parseHeaders_printHeaders hfields hbody hseparate.short hlen, hseparate.last, rfl⟩

end

/-- A field of the requests of `HTTPClient.cpp`. -/
def keepAlive : Field where
  key := ascii ['C', 'o', 'n', 'n', 'e', 'c', 't', 'i', 'o', 'n']
  value := ascii ['K', 'e', 'e', 'p', '-', 'A', 'l', 'i', 'v', 'e']
  key_ne_nil := by decide
  keyBytes := by unfold Http.keyBytes; decide +kernel
  not_lineEnd := by decide +kernel
  length_le := by simp [ascii]

/-- Without a body the end of the header block stays in `content`. -/
theorem not_parsesBack_keepAlive :
    ((new.atHeaders (printHeaders [keepAlive] [])).parseHeaders.map fun x => (x.1, x.2.content)) =
        some (.success, [LF, CR, LF]) ∧
      ¬ new.ParsesBack [keepAlive] [] := by
  refine ⟨by decide +kernel, fun h => ?_⟩
  exact h.separate.2.1 rfl

end RequestData

end Http

end SoL
