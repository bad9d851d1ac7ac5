import SoL.Http.Scanning

/-!
# What the header parser takes for a header block

`Line` is a header line as `parse_Headers` takes one: a key, a colon, a blank, a
value of at most `256` bytes, and the end of the line. The first byte of the
value may be any byte. `Lines` are some bytes of line ends and then at least one
line, and a `Block` ends with an empty line.

`Reads p s` says which bytes `p` lead to the state `s` of the parser, and where
its bounds are. Every round takes the state of the bytes before it to the state of
the bytes with it (`reads_advance`), so without bounds on positions the parser never
forms a substring out of range, and it goes on exactly along the beginnings of blocks
(`inside_iff`).
-/

namespace SoL

namespace Http

/-- The bytes of a key after its first. -/
def keyBytes (key : Bytes) : Prop := ∀ c ∈ key, c ≠ colon ∧ ¬ lineEnd c

/-- The bytes of a value after its first. -/
def valueBytes (value : Bytes) : Prop := (∀ c ∈ value, c ≠ CR) ∧ value.length ≤ 255

structure Line where
  keyFirst : UInt8
  key : Bytes
  valueFirst : UInt8
  value : Bytes
  keyFirst_ne : keyFirst ≠ CR
  keyBytes : keyBytes key
  valueBytes : valueBytes value

namespace Line

def bytes (l : Line) : Bytes :=
  l.keyFirst :: l.key ++ [colon, space] ++ l.valueFirst :: l.value ++ [CR, LF]

end Line

/-- Line ends, and then at least one line. Only the first line may not begin with
a line feed. -/
inductive Lines : Bytes → Prop
  | first {lead : Bytes} (l : Line) (hlead : ∀ b ∈ lead, lineEnd b) (hl : l.keyFirst ≠ LF) :
      Lines (lead ++ l.bytes)
  | next {a : Bytes} (l : Line) (ha : Lines a) : Lines (a ++ l.bytes)

inductive Block : Bytes → Prop
  | mk {a : Bytes} (ha : Lines a) : Block (a ++ [CR, LF])

/-- After `a`, the byte `b` begins a line. -/
def Opens (a : Bytes) (b : UInt8) : Prop :=
  b ≠ CR ∧ ((∀ x ∈ a, lineEnd x) ∧ b ≠ LF ∨ Lines a)

theorem Opens.lines {a : Bytes} {l : Line} (h : Opens a l.keyFirst) :
    Lines (a ++ l.bytes) := by
  obtain ⟨hlead, hl⟩ | ha := h.2
  · exact .first l hlead hl
  · exact .next l ha

namespace Scan

variable {str p q : Bytes} {i : ℕ} {s t : Scan}

theorem substring_extend {first last : ℤ} {x : Bytes} (hp : p <+: str)
    (h : substring p first last = some x) : substring str first last = some x := by
  obtain ⟨r, rfl⟩ := hp
  unfold substring at h ⊢
  split at h
  · rename_i hbounds
    obtain rfl := Option.some.inj h
    rw [if_pos ⟨hbounds.1, hbounds.2.1, by simp; omega⟩]
    rw [List.drop_append_of_le_length (by omega), List.take_append_of_le_length
      (by rw [List.length_drop]; omega)]
  · cases h

/-- A round looks at the bytes of the line that it has gone over, and at no
more. -/
theorem advance_extend {c : UInt8} (hp : p <+: str) (h : advance p i c s ≠ .outOfRange) :
    advance str i c s = advance p i c s := by
  unfold advance at h ⊢
  split
  case h_6 hstate =>
    simp only [hstate] at h
    split
    · rename_i hc
      rw [if_pos hc] at h
      cases hkey : substring p s.keyStart s.keyEnd with
      | none => simp [hkey] at h
      | some key =>
          cases hvalue : substring p s.valueStart s.valueEnd with
          | none => simp [hkey, hvalue] at h
          | some value =>
              rw [substring_extend hp hkey, substring_extend hp hvalue]
    · rfl
  all_goals rfl

theorem scan_extend (hp : p <+: str) (h : scan p q i s ≠ .outOfRange) :
    scan str q i s = scan p q i s := by
  induction q generalizing i s with
  | nil => rfl
  | cons c q ih =>
      cases hfin : s.notFinish with
      | false => rw [scan_finished hfin, scan_finished hfin]
      | true =>
          rw [scan_cons c hfin] at h ⊢
          rw [scan_cons c hfin, advance_extend hp]
          · cases hround : advance p i c s with
            | going t => exact ih (by simpa [hround] using h)
            | error t => rfl
            | outOfRange => rfl
          · intro hround
            simp [hround] at h

/-- The loop over bytes with more bytes after them goes on where the loop over the
bytes alone has come to. -/
theorem scan_append_extend (h : scan p p i s ≠ .outOfRange) (q : Bytes) :
    scan (p ++ q) (p ++ q) i s =
      match scan p p i s with
      | .going t => scan (p ++ q) q (i + p.length) t
      | out => out := by
  have hsplit := scan_append (p ++ q) p q i s
  rw [scan_extend (List.prefix_append p q) h] at hsplit
  exact hsplit

theorem scan_lead (hq : ∀ b ∈ q, lineEnd b) (hs : s.hState = .h_start)
    (hfin : s.notFinish = true) : scan str q i s = .going s := by
  induction q generalizing i with
  | nil => rfl
  | cons c q ih =>
      have hc : c = LF ∨ c = CR := hq c List.mem_cons_self
      have hround : advance str i c s = .going s := by simp [advance, hs, hc]
      rw [scan_cons c hfin, hround]
      exact ih fun b hb => hq b (List.mem_cons_of_mem c hb)

theorem scan_key (hq : keyBytes q) (hs : s.hState = .h_key) (hfin : s.notFinish = true) :
    scan str q i s = .going s := by
  induction q generalizing i with
  | nil => rfl
  | cons c q ih =>
      obtain ⟨hcolon, hend⟩ := hq c List.mem_cons_self
      have hend : ¬ (c = LF ∨ c = CR) := hend
      have hround : advance str i c s = .going s := by simp [advance, hs, hcolon, hend]
      rw [scan_cons c hfin, hround]
      exact ih fun b hb => hq b (List.mem_cons_of_mem c hb)

theorem scan_value (hq : ∀ c ∈ q, c ≠ CR) (hs : s.hState = .h_value)
    (hfin : s.notFinish = true) (hlen : (i : ℤ) + q.length ≤ s.valueStart + 256) :
    scan str q i s = .going s := by
  induction q generalizing i with
  | nil => rfl
  | cons c q ih =>
      have hc : c ≠ CR := hq c List.mem_cons_self
      rw [List.length_cons, Nat.cast_add, Nat.cast_one] at hlen
      have hshort : ¬ (i : ℤ) - s.valueStart > 255 := by omega
      have hround : advance str i c s = .going s := by simp [advance, hs, hc, hshort]
      rw [scan_cons c hfin, hround]
      refine ih (fun b hb => hq b (List.mem_cons_of_mem c hb)) ?_
      rw [Nat.cast_add, Nat.cast_one]
      omega

theorem substring_middle (x y z : Bytes) :
    substring (x ++ y ++ z) x.length (x ++ y).length = some y := by
  unfold substring
  rw [if_pos ⟨by omega, by simp, by simp⟩]
  simp

/-- The rounds of a line after the first byte of its key. -/
theorem scan_line_rest {a : Bytes} (l : Line) (hstr : a ++ l.bytes <+: str)
    (hs : s.hState = .h_key) (hfin : s.notFinish = true) (hkey : s.keyStart = a.length) :
    ∃ t, scan str l.bytes.tail (a.length + 1) s = .going t ∧ t.hState = .h_LF ∧
      t.notFinish = true ∧ t.nowReadLineBegin + 1 = (a ++ l.bytes).length ∧
      t.headers = Function.update s.headers (l.keyFirst :: l.key)
        (some (l.valueFirst :: l.value)) := by
  obtain ⟨z, rfl⟩ := hstr
  have hpositive : ¬ ((a.length + 1 + l.key.length : ℕ) : ℤ) - s.keyStart ≤ 0 := by
    rw [hkey]
    omega
  have hvaluePositive : ¬ ((a.length + 1 + l.key.length + 1 + 1 + 1 + l.value.length : ℕ) : ℤ) -
      (a.length + 1 + l.key.length + 1 + 1 : ℕ) ≤ 0 := by omega
  have hkeySub : substring (a ++ l.bytes ++ z) a.length (a.length + 1 + l.key.length : ℕ) =
      some (l.keyFirst :: l.key) := by
    have hmiddle := substring_middle a (l.keyFirst :: l.key)
      ([colon, space] ++ l.valueFirst :: l.value ++ [CR, LF] ++ z)
    rw [← hmiddle]
    congr 1
    · simp [Line.bytes]
    · simp
      omega
  have hvalueSub : substring (a ++ l.bytes ++ z) (a.length + 1 + l.key.length + 1 + 1 : ℕ)
      (a.length + 1 + l.key.length + 1 + 1 + 1 + l.value.length : ℕ) =
        some (l.valueFirst :: l.value) := by
    have hmiddle := substring_middle (a ++ (l.keyFirst :: l.key ++ [colon, space]))
      (l.valueFirst :: l.value) ([CR, LF] ++ z)
    rw [← hmiddle]
    congr 1
    · simp [Line.bytes]
    · simp
      omega
    · simp
      omega
  have htail : l.bytes.tail =
      l.key ++ colon :: space :: l.valueFirst :: (l.value ++ [CR, LF]) := by
    simp [Line.bytes]
  rw [htail, scan_append, scan_key l.keyBytes hs hfin]
  simp only [scan_cons, hfin, advance, hs, if_true, hpositive, if_false]
  rw [scan_append, scan_value l.valueBytes.1 rfl rfl (by
    have := l.valueBytes.2
    push_cast
    omega)]
  simp only [scan_cons, advance, if_true, hvaluePositive, if_false, scan_nil, hkey, hkeySub,
    hvalueSub]
  refine ⟨_, rfl, rfl, rfl, ?_, rfl⟩
  simp [Line.bytes]
  omega

/-- The rounds of a whole line. -/
theorem scan_line {a : Bytes} (l : Line) (hstr : a ++ l.bytes <+: str)
    (hs : s.hState = .h_LF ∨ s.hState = .h_start ∧ l.keyFirst ≠ LF)
    (hfin : s.notFinish = true) :
    ∃ t, scan str l.bytes a.length s = .going t ∧ t.hState = .h_LF ∧ t.notFinish = true ∧
      t.nowReadLineBegin + 1 = (a ++ l.bytes).length ∧
      t.headers = Function.update s.headers (l.keyFirst :: l.key)
        (some (l.valueFirst :: l.value)) := by
  have hbytes : l.bytes = l.keyFirst :: l.bytes.tail := by simp [Line.bytes]
  rw [hbytes, scan_cons _ hfin, ← hbytes]
  obtain hs | ⟨hs, hLF⟩ := hs
  · have hround : advance str a.length l.keyFirst s =
        .going { s with keyStart := a.length, hState := .h_key } := by
      simp [advance, hs, l.keyFirst_ne]
    rw [hround]
    exact scan_line_rest l hstr rfl hfin rfl
  · have hround : advance str a.length l.keyFirst s =
        .going { s with hState := .h_key, keyStart := a.length, nowReadLineBegin := a.length } := by
      simp [advance, hs, hLF, l.keyFirst_ne]
    rw [hround]
    exact scan_line_rest l hstr rfl hfin rfl

/-- The loop goes over `Lines` as a whole, and remembers the line feed at their
end. -/
theorem scan_lines (hp : Lines p) (hstr : p <+: str) (headers : Headers) :
    ∃ t, scan str p 0 (enter .h_start headers) = .going t ∧ t.hState = .h_LF ∧
      t.notFinish = true ∧ t.nowReadLineBegin + 1 = p.length := by
  induction hp with
  | @first lead l hlead hl =>
      rw [scan_append, scan_lead hlead rfl rfl, Nat.zero_add]
      obtain ⟨t, ht, hstate, hfin, hbegin, -⟩ :=
        scan_line l hstr (s := enter .h_start headers) (.inr ⟨rfl, hl⟩) rfl
      exact ⟨t, ht, hstate, hfin, hbegin⟩
  | @next a l ha ih =>
      obtain ⟨s, hs, hstate, hfin, -⟩ := ih ((List.prefix_append a l.bytes).trans hstr)
      rw [scan_append, hs, Nat.zero_add]
      obtain ⟨t, ht, hstate, hfin, hbegin, -⟩ := scan_line l hstr (.inl hstate) hfin
      exact ⟨t, ht, hstate, hfin, hbegin⟩

/-- The loop goes over a block as a whole. -/
theorem scan_block (hp : Block p) (headers : Headers) :
    ∃ t, scan p p 0 (enter .h_start headers) = .going t ∧ t.hState = .h_end_LF ∧
      t.notFinish = true := by
  obtain @⟨a, ha⟩ := hp
  obtain ⟨s, hs, hstate, hfin, -⟩ := scan_lines ha (List.prefix_append a [CR, LF]) headers
  rw [scan_append, hs]
  simp only [scan_cons, advance, hstate, hfin, if_true, scan_nil]
  exact ⟨_, rfl, rfl, rfl⟩

/-- The parser is in a line that begins with the byte `b` after `a` and whose key
goes on with `key`. -/
structure InLine (s : Scan) (a : Bytes) (b : UInt8) (key : Bytes) : Prop where
  opens : Opens a b
  keyBytes : keyBytes key
  keyStart : s.keyStart = a.length
  lineBegin : s.nowReadLineBegin ≤ a.length

/-- The bytes that lead to a state of the parser. -/
def Reads (p : Bytes) (s : Scan) : Prop :=
  match s.hState with
  | .h_start => (∀ b ∈ p, lineEnd b) ∧ s.nowReadLineBegin = 0
  | .h_key => ∃ a b key, p = a ++ b :: key ∧ s.InLine a b key
  | .h_colon =>
      ∃ a b key, p = a ++ b :: key ++ [colon] ∧ s.InLine a b key ∧
        s.keyEnd = (a ++ b :: key).length
  | .h_spaces_after_colon =>
      ∃ a b key, p = a ++ b :: key ++ [colon, space] ∧ s.InLine a b key ∧
        s.keyEnd = (a ++ b :: key).length
  | .h_value =>
      ∃ a b key v value, p = a ++ b :: key ++ [colon, space] ++ v :: value ∧
        s.InLine a b key ∧ s.keyEnd = (a ++ b :: key).length ∧ valueBytes value ∧
        s.valueStart = (a ++ b :: key ++ [colon, space]).length
  | .h_CR =>
      ∃ a b key v value, p = a ++ b :: key ++ [colon, space] ++ v :: value ++ [CR] ∧
        s.InLine a b key ∧ s.keyEnd = (a ++ b :: key).length ∧ valueBytes value ∧
        s.valueStart = (a ++ b :: key ++ [colon, space]).length ∧
        s.valueEnd = (a ++ b :: key ++ [colon, space] ++ v :: value).length
  | .h_LF => Lines p ∧ p.drop s.nowReadLineBegin = [LF]
  | .h_end_CR => ∃ a, p = a ++ [CR] ∧ Lines a ∧ p.drop s.nowReadLineBegin = [LF, CR]
  | .h_end_LF => ∃ a, p = a ++ [CR, LF] ∧ Lines a ∧ p.drop s.nowReadLineBegin = [LF, CR, LF]

theorem reads_enter (headers : Headers) : Reads [] (enter .h_start headers) := by
  simp [Reads, enter]

/-- What a round leaves behind after the bytes `p`: an error, a state that `p`
leads to, or the end of the loop. -/
def Leaves (p : Bytes) : Scanned → Prop
  | .error _ => True
  | .outOfRange => False
  | .going t =>
      t.notFinish = true ∧ Reads p t ∨
        t.notFinish = false ∧ t.hState = .h_end_LF ∧ t.nowReadLineBegin < p.length

theorem InLine.of_eq {a : Bytes} {b : UInt8} {key : Bytes} (h : s.InLine a b key)
    (hkey : t.keyStart = s.keyStart) (hbegin : t.nowReadLineBegin = s.nowReadLineBegin) :
    t.InLine a b key :=
  ⟨h.opens, h.keyBytes, hkey.trans h.keyStart, hbegin ▸ h.lineBegin⟩

theorem InLine.lineBegin_lt {a : Bytes} {b : UInt8} {key : Bytes} (h : s.InLine a b key)
    (rest : Bytes) : s.nowReadLineBegin < (a ++ (b :: key ++ rest)).length := by
  have hbegin := h.lineBegin
  rw [List.length_append, List.cons_append, List.length_cons]
  omega

/-- In the first state line ends are skipped, and any other byte begins a key. -/
theorem leaves_advance_start {c : UInt8} (hstate : s.hState = .h_start) (h : Reads p s)
    (hfin : s.notFinish = true) : Leaves (p ++ [c]) (advance str p.length c s) := by
  simp only [Reads, hstate] at h
  simp only [advance, hstate]
  by_cases hc : c = LF ∨ c = CR
  · rw [if_pos hc]
    refine .inl ⟨hfin, ?_⟩
    simp only [Reads, hstate]
    refine ⟨fun b hb => ?_, h.2⟩
    obtain hb | rfl : b ∈ p ∨ b = c := by simpa using hb
    · exact h.1 b hb
    · exact hc
  · rw [if_neg hc]
    have hne := not_or.1 hc
    exact .inl ⟨hfin, p, c, [], rfl, ⟨hne.2, .inl ⟨h.1, hne.1⟩⟩, by simp [keyBytes], rfl, le_rfl⟩

theorem leaves_advance_key {c : UInt8} (hstate : s.hState = .h_key) (h : Reads p s)
    (hfin : s.notFinish = true) : Leaves (p ++ [c]) (advance str p.length c s) := by
  simp only [Reads, hstate] at h
  simp only [advance, hstate]
  obtain ⟨a, b, key, rfl, hline⟩ := h
  have hpositive : ¬ ((a ++ b :: key).length : ℤ) - s.keyStart ≤ 0 := by
    rw [hline.keyStart]
    simp
  by_cases hcolon : c = colon
  · rw [if_pos hcolon, if_neg hpositive]
    subst hcolon
    exact .inl ⟨hfin, a, b, key, rfl, hline.of_eq rfl rfl, rfl⟩
  rw [if_neg hcolon]
  by_cases hc : c = LF ∨ c = CR
  · rw [if_pos hc]
    trivial
  · rw [if_neg hc]
    refine .inl ⟨hfin, ?_⟩
    simp only [Reads, hstate]
    refine ⟨a, b, key ++ [c], by simp, hline.opens, ?_, hline.keyStart, hline.lineBegin⟩
    intro x hx
    obtain hx | rfl : x ∈ key ∨ x = c := by simpa using hx
    · exact hline.keyBytes x hx
    · exact ⟨hcolon, hc⟩

theorem leaves_advance_value {c : UInt8} (hstate : s.hState = .h_value) (h : Reads p s)
    (hfin : s.notFinish = true) : Leaves (p ++ [c]) (advance str p.length c s) := by
  simp only [Reads, hstate] at h
  simp only [advance, hstate]
  obtain ⟨a, b, key, v, value, rfl, hline, hkeyEnd, hvalue, hvalueStart⟩ := h
  have hpositive : ¬ ((a ++ b :: key ++ [colon, space] ++ v :: value).length : ℤ) -
      s.valueStart ≤ 0 := by
    rw [hvalueStart, List.length_append, List.length_cons]
    omega
  by_cases hc : c = CR
  · rw [if_pos hc, if_neg hpositive]
    subst hc
    exact .inl ⟨hfin, a, b, key, v, value, rfl, hline.of_eq rfl rfl, hkeyEnd, hvalue,
      hvalueStart, rfl⟩
  rw [if_neg hc]
  by_cases hlong : ((a ++ b :: key ++ [colon, space] ++ v :: value).length : ℤ) -
      s.valueStart > 255
  · rw [if_pos hlong]
    trivial
  · rw [if_neg hlong]
    refine .inl ⟨hfin, ?_⟩
    simp only [Reads, hstate]
    refine ⟨a, b, key, v, value ++ [c], by simp, hline, hkeyEnd, ⟨?_, ?_⟩, hvalueStart⟩
    · intro x hx
      obtain hx | rfl : x ∈ value ∨ x = c := by simpa using hx
      · exact hvalue.1 x hx
      · exact hc
    · rw [hvalueStart, List.length_append, List.length_cons] at hlong
      rw [List.length_append, List.length_singleton]
      omega

/-- The line feed after a line: the key and the value are substrings of the bytes so
far, and the line is complete. -/
theorem leaves_advance_CR {c : UInt8} (hstr : p ++ [c] <+: str) (hstate : s.hState = .h_CR)
    (h : Reads p s) (hfin : s.notFinish = true) :
    Leaves (p ++ [c]) (advance str p.length c s) := by
  simp only [Reads, hstate] at h
  simp only [advance, hstate]
  obtain ⟨a, b, key, v, value, rfl, hline, hkeyEnd, hvalue, hvalueStart, hvalueEnd⟩ := h
  by_cases hc : c = LF
  · subst hc
    obtain ⟨z, rfl⟩ := hstr
    let l : Line := ⟨b, key, v, value, hline.opens.1, hline.keyBytes, hvalue⟩
    have hbytes : a ++ b :: key ++ [colon, space] ++ v :: value ++ [CR] ++ [LF] =
        a ++ l.bytes := by simp [l, Line.bytes]
    have hkeySub := substring_middle a (b :: key)
      ([colon, space] ++ v :: value ++ [CR] ++ [LF] ++ z)
    have hvalueSub := substring_middle (a ++ b :: key ++ [colon, space]) (v :: value)
      ([CR] ++ [LF] ++ z)
    simp only [List.append_assoc] at hkeySub hvalueSub
    simp only [List.append_assoc, hline.keyStart, hkeyEnd, hvalueStart, hvalueEnd, hkeySub,
      hvalueSub, if_true]
    refine .inl ⟨hfin, ?_, ?_⟩
    · have hlines : Lines (a ++ l.bytes) := Opens.lines hline.opens
      rw [← hbytes] at hlines
      simpa using hlines
    · simp
  · rw [if_neg hc]
    trivial

/-- A round takes the state of the bytes before it to the state of the bytes with
it. -/
theorem reads_advance {c : UInt8} (hstr : p ++ [c] <+: str) (h : Reads p s)
    (hfin : s.notFinish = true) : Leaves (p ++ [c]) (advance str p.length c s) := by
  cases hstate : s.hState with
  | h_start => exact leaves_advance_start hstate h hfin
  | h_key => exact leaves_advance_key hstate h hfin
  | h_colon =>
      simp only [Reads, hstate] at h
      simp only [advance, hstate]
      obtain ⟨a, b, key, rfl, hline, hkeyEnd⟩ := h
      by_cases hc : c = space
      · rw [if_pos hc]
        subst hc
        exact .inl ⟨hfin, a, b, key, by simp, hline.of_eq rfl rfl, hkeyEnd⟩
      · rw [if_neg hc]
        trivial
  | h_spaces_after_colon =>
      simp only [Reads, hstate] at h
      simp only [advance, hstate]
      obtain ⟨a, b, key, rfl, hline, hkeyEnd⟩ := h
      exact .inl ⟨hfin, a, b, key, c, [], rfl, hline.of_eq rfl rfl, hkeyEnd,
        by simp [valueBytes], rfl⟩
  | h_value => exact leaves_advance_value hstate h hfin
  | h_CR => exact leaves_advance_CR hstr hstate h hfin
  | h_LF =>
      simp only [Reads, hstate] at h
      simp only [advance, hstate]
      have hlt : s.nowReadLineBegin < p.length := List.length_lt_of_drop_ne_nil (by simp [h.2])
      by_cases hc : c = CR
      · rw [if_pos hc]
        subst hc
        refine .inl ⟨hfin, p, rfl, h.1, ?_⟩
        rw [List.drop_append_of_le_length hlt.le, h.2]
        rfl
      · rw [if_neg hc]
        exact .inl ⟨hfin, p, c, [], rfl, ⟨hc, .inr h.1⟩, by simp [keyBytes], rfl, hlt.le⟩
  | h_end_CR =>
      simp only [Reads, hstate] at h
      simp only [advance, hstate]
      obtain ⟨a, rfl, ha, hdrop⟩ := h
      have hlt : s.nowReadLineBegin < (a ++ [CR]).length :=
        List.length_lt_of_drop_ne_nil (by simp [hdrop])
      by_cases hc : c = LF
      · rw [if_pos hc]
        subst hc
        refine .inl ⟨hfin, a, by simp, ha, ?_⟩
        rw [List.drop_append_of_le_length hlt.le, hdrop]
        rfl
      · rw [if_neg hc]
        trivial
  | h_end_LF =>
      simp only [advance, hstate]
      exact .inr ⟨rfl, rfl, by simp⟩

theorem leaves_scan (hstr : p ++ q <+: str) (h : Reads p s) (hfin : s.notFinish = true) :
    Leaves (p ++ q) (scan str q p.length s) := by
  induction q generalizing p s with
  | nil =>
      rw [List.append_nil]
      exact .inl ⟨hfin, h⟩
  | cons c q ih =>
      have hassoc : p ++ c :: q = p ++ [c] ++ q := by simp
      rw [hassoc] at hstr ⊢
      have hleaves := reads_advance ((List.prefix_append _ q).trans hstr) h hfin
      rw [scan_cons c hfin]
      cases hround : advance str p.length c s with
      | outOfRange => simp [hround, Leaves] at hleaves
      | error t => trivial
      | going t =>
          rw [hround] at hleaves
          obtain ⟨hlive, hreads⟩ | ⟨hover, hstate, hbegin⟩ := hleaves
          · have hrest := ih hstr hreads hlive
            rwa [List.length_append, List.length_singleton] at hrest
          · change Leaves _ (scan str q (p.length + 1) t)
            rw [scan_finished hover]
            refine .inr ⟨hover, hstate, lt_of_lt_of_le hbegin ?_⟩
            simp

/-- The whole loop of a call on `p` in the first state. -/
theorem leaves_scan_enter (p : Bytes) (headers : Headers) :
    Leaves p (scan p p 0 (enter .h_start headers)) :=
  leaves_scan (p := []) List.prefix_rfl (reads_enter headers) rfl

theorem scan_ne_outOfRange (p : Bytes) (headers : Headers) :
    scan p p 0 (enter .h_start headers) ≠ .outOfRange := by
  intro h
  simpa [h, Leaves] using leaves_scan_enter p headers

/-- The states in which a line has begun and has not ended. -/
def midLine : HeadersState → Bool
  | .h_key | .h_colon | .h_spaces_after_colon | .h_value | .h_CR => true
  | .h_start | .h_LF | .h_end_CR | .h_end_LF => false

/-- A line that has begun can be ended with at most five bytes. -/
theorem exists_lines_of_midLine (h : Reads p s) (hmid : midLine s.hState = true) :
    (∃ r, r ≠ [] ∧ r.length ≤ 5 ∧ Lines (p ++ r)) ∧ s.nowReadLineBegin < p.length := by
  have hline : ∀ {a b key v value}, s.InLine a b key → valueBytes value →
      Lines (a ++ (b :: key ++ [colon, space] ++ v :: value ++ [CR, LF])) := by
    intro a b key v value hline hvalue
    exact Opens.lines (l := ⟨b, key, v, value, hline.opens.1, hline.keyBytes, hvalue⟩)
      hline.opens
  have hempty : valueBytes [] := by simp [valueBytes]
  cases hstate : s.hState with
  | h_start | h_LF | h_end_CR | h_end_LF => simp [hstate, midLine] at hmid
  | h_key =>
      simp only [Reads, hstate] at h
      obtain ⟨a, b, key, rfl, hin⟩ := h
      refine ⟨⟨[colon, space, space, CR, LF], by simp, by simp, ?_⟩, ?_⟩
      · simpa using hline (v := space) hin hempty
      · simpa using hin.lineBegin_lt []
  | h_colon =>
      simp only [Reads, hstate] at h
      obtain ⟨a, b, key, rfl, hin, -⟩ := h
      refine ⟨⟨[space, space, CR, LF], by simp, by simp, ?_⟩, ?_⟩
      · simpa using hline (v := space) hin hempty
      · simpa using hin.lineBegin_lt [colon]
  | h_spaces_after_colon =>
      simp only [Reads, hstate] at h
      obtain ⟨a, b, key, rfl, hin, -⟩ := h
      refine ⟨⟨[space, CR, LF], by simp, by simp, ?_⟩, ?_⟩
      · simpa using hline (v := space) hin hempty
      · simpa using hin.lineBegin_lt [colon, space]
  | h_value =>
      simp only [Reads, hstate] at h
      obtain ⟨a, b, key, v, value, rfl, hin, -, hvalue, -⟩ := h
      refine ⟨⟨[CR, LF], by simp, by simp, ?_⟩, ?_⟩
      · simpa using hline (v := v) hin hvalue
      · simpa using hin.lineBegin_lt ([colon, space] ++ v :: value)
  | h_CR =>
      simp only [Reads, hstate] at h
      obtain ⟨a, b, key, v, value, rfl, hin, -, hvalue, -⟩ := h
      refine ⟨⟨[LF], by simp, by simp, ?_⟩, ?_⟩
      · simpa using hline (v := v) hin hvalue
      · simpa using hin.lineBegin_lt ([colon, space] ++ v :: value ++ [CR])

theorem exists_block (h : Reads p s) (hs : s.hState ≠ .h_start) :
    ∃ block, Block block ∧ p <+: block := by
  cases hmid : midLine s.hState with
  | true =>
      obtain ⟨⟨r, -, -, hlines⟩, -⟩ := exists_lines_of_midLine h hmid
      exact ⟨_, .mk hlines, (List.prefix_append p r).trans (List.prefix_append _ _)⟩
  | false =>
      cases hstate : s.hState with
      | h_start => exact absurd hstate hs
      | h_key | h_colon | h_spaces_after_colon | h_value | h_CR =>
          simp [hstate, midLine] at hmid
      | h_LF =>
          simp only [Reads, hstate] at h
          exact ⟨_, .mk h.1, List.prefix_append p _⟩
      | h_end_CR =>
          simp only [Reads, hstate] at h
          obtain ⟨a, rfl, ha, -⟩ := h
          exact ⟨_, .mk ha, [LF], by simp⟩
      | h_end_LF =>
          simp only [Reads, hstate] at h
          obtain ⟨a, rfl, ha, -⟩ := h
          exact ⟨_, .mk ha, List.prefix_rfl⟩

end Scan

/-- The bytes end inside a header block: the first line has begun, and the block
has not been left. -/
def Inside (p : Bytes) : Prop :=
  (∃ b ∈ p, ¬ lineEnd b) ∧ ∃ block, Block block ∧ p <+: block

/-- Inside a block, and only there, the parser has begun a line and can go on. -/
theorem inside_iff (p : Bytes) (headers : Headers) :
    Inside p ↔ ∃ t, Scan.scan p p 0 (Scan.enter .h_start headers) = .going t ∧
      t.notFinish = true ∧ t.hState ≠ .h_start ∧ Scan.Reads p t := by
  constructor
  · rintro ⟨⟨b, hb, hend⟩, block, hblock, r, rfl⟩
    obtain ⟨u, hu, -, hufin⟩ := Scan.scan_block hblock headers
    rw [Scan.scan_append_extend (Scan.scan_ne_outOfRange p headers)] at hu
    have hleaves := Scan.leaves_scan_enter p headers
    cases hloop : Scan.scan p p 0 (Scan.enter .h_start headers) with
    | outOfRange => simp [hloop] at hu
    | error t => simp [hloop] at hu
    | going t =>
        simp only [hloop] at hu hleaves
        obtain ⟨hfin, hreads⟩ | ⟨hover, -⟩ := hleaves
        · refine ⟨t, rfl, hfin, fun hstart => hend ?_, hreads⟩
          simp only [Scan.Reads, hstart] at hreads
          exact hreads.1 b hb
        · rw [Scan.scan_finished hover] at hu
          obtain rfl := Scanned.going.inj hu
          simp [hover] at hufin
  · rintro ⟨t, hloop, -, hstate, hreads⟩
    refine ⟨?_, Scan.exists_block hreads hstate⟩
    by_contra hall
    have hlead : ∀ b ∈ p, lineEnd b := by
      intro b hb
      by_contra hend
      exact hall ⟨b, hb, hend⟩
    rw [Scan.scan_lead hlead rfl rfl] at hloop
    obtain rfl := Scanned.going.inj hloop
    exact hstate rfl

end Http

end SoL
