import Mathlib.Data.List.TakeWhile
import SoL.Http.RequestData

/-!
# Printing a request line and parsing it

`parse_URI` looks for the parts of a request line one after another with
`std::string::find`. The name `GET` is looked for in the whole line, so a target
that holds it turns a `POST` into a `GET`; and a query right after the leading
slash leaves an empty file name. Every other line comes back as it was printed, as
long as `int` holds the position after its end (`parseURI_requestLine_iff`).
-/

namespace SoL

namespace Http

open Arithmetic

def slash : UInt8 := 47
def question : UInt8 := 63

section

variable {str pat a b : Bytes} {c : UInt8} {pos j : ℕ}

theorem find_eq_some (hj : j < str.length) (hpos : pos ≤ j) (hpat : pat <+: str.drop j)
    (hfirst : ∀ i, pos ≤ i → i < j → ¬ pat <+: str.drop i) : find str pat pos = some j := by
  unfold find
  rw [List.find?_range_eq_some]
  refine ⟨by simpa [hpos] using hpat, List.mem_range.2 hj, fun i hi => ?_⟩
  have hround : (decide (pos ≤ i) && pat.isPrefixOf (str.drop i)) ≠ true := by
    simpa using fun hle => hfirst i hle hi
  simpa only [Bool.not_eq_true'] using Bool.eq_false_iff.2 hround

/-- A byte is found at its first occurrence. -/
theorem find_byte (hpos : pos ≤ a.length) (hc : c ∉ a.drop pos) :
    find (a ++ c :: b) [c] pos = some a.length := by
  refine find_eq_some (by simp) hpos (by simp) fun i hle hi hpat => hc ?_
  rw [List.drop_append_of_le_length hi.le] at hpat
  have hhead : (a.drop i).head? = some c := by
    obtain ⟨z, hz⟩ := hpat
    have hne : a.drop i ≠ [] := by simpa using hi
    obtain ⟨x, xs, hx⟩ := List.exists_cons_of_ne_nil hne
    rw [hx] at hz ⊢
    simp only [List.cons_append, List.cons.injEq] at hz
    rw [hz.1]
    rfl
  have hmem : c ∈ a.drop i := List.mem_of_mem_head? hhead
  obtain ⟨k, rfl⟩ := Nat.exists_eq_add_of_le hle
  rw [← List.drop_drop] at hmem
  exact List.mem_of_mem_drop hmem

theorem find_self (hpat : pat ≠ []) : find (pat ++ b) pat 0 = some 0 := by
  have hlen : 0 < pat.length := List.length_pos_of_ne_nil hpat
  exact find_eq_some (by rw [List.length_append]; omega) le_rfl (by simp) (by simp)

/-- From the beginning, what is not found is no part of the string. -/
theorem find_eq_none_iff (hpat : pat ≠ []) : find str pat 0 = none ↔ ¬ pat <:+: str := by
  unfold find
  rw [List.find?_range_eq_none]
  constructor
  · rintro h ⟨x, y, rfl⟩
    have hlen : 0 < pat.length := List.length_pos_of_ne_nil hpat
    have hx := h x.length (by simp; omega)
    have hfound : pat.isPrefixOf ((x ++ pat ++ y).drop x.length) = true := by simp
    rw [hfound] at hx
    simp at hx
  · intro h i hi
    have hnot : pat.isPrefixOf (str.drop i) ≠ true := fun hfound =>
      h ((List.isPrefixOf_iff_prefix.1 hfound).isInfix.trans (List.drop_suffix i str).isInfix)
    rw [Bool.eq_false_iff.2 hnot]
    simp

/-- A pattern does not reach over a byte that it does not hold. -/
theorem infix_append_cons_iff (hc : c ∉ pat) :
    pat <:+: a ++ c :: b ↔ pat <:+: a ∨ pat <:+: b := by
  constructor
  · rintro ⟨x, y, hxy⟩
    rw [List.append_assoc, List.append_eq_append_iff] at hxy
    obtain ⟨z, rfl, hz⟩ | ⟨z, rfl, hz⟩ := hxy
    · rw [List.append_eq_append_iff] at hz
      obtain ⟨w, rfl, -⟩ | ⟨w, rfl, hw⟩ := hz
      · exact .inl ⟨x, w, by simp⟩
      · cases w with
        | nil => exact .inl ⟨x, [], by simp⟩
        | cons d w =>
            obtain ⟨rfl, -⟩ := List.cons.inj hw
            simp at hc
    · cases z with
      | nil =>
          cases pat with
          | nil => exact .inl (List.nil_infix)
          | cons d pat =>
              obtain ⟨rfl, -⟩ := List.cons.inj hz
              simp at hc
      | cons d z =>
          obtain ⟨-, rfl⟩ := List.cons.inj hz
          exact .inr ⟨z, y, by simp⟩
  · rintro (h | h)
    · exact h.trans List.infix_append_left
    · exact h.trans ((List.suffix_cons c b).isInfix.trans List.infix_append_right)

/-- The part of a string before the first `c`, or all of it. -/
theorem take_find (x : Bytes) (c : UInt8) :
    (match find x [c] 0 with
      | some query => x.take query
      | none => x) = x.takeWhile (· ≠ c) := by
  by_cases hc : c ∈ x
  · obtain ⟨y, z, rfl, hy⟩ := List.eq_append_cons_of_mem hc
    rw [find_byte (Nat.zero_le _) (by simpa using hy)]
    have hall : ∀ d ∈ y, decide (d ≠ c) = true := by
      intro d hd
      have hne : d ≠ c := fun h => hy (h ▸ hd)
      simpa using hne
    rw [List.takeWhile_append_of_pos hall]
    simp
  · have hnone : find x [c] 0 = none := by
      rw [find_eq_none_iff (by simp)]
      intro h
      exact hc (h.subset (by simp))
    rw [hnone]
    refine (List.takeWhile_eq_self_iff.2 fun d hd => ?_).symm
    have hne : d ≠ c := fun h => hc (h ▸ hd)
    simpa using hne

end

/-- A target is a slash and bytes that do not end it. -/
structure Target where
  bytes : Bytes
  ne_space : space ∉ bytes
  ne_CR : CR ∉ bytes

namespace Target

def text (t : Target) : Bytes := slash :: t.bytes

def path (t : Target) : Bytes := t.bytes.takeWhile (· ≠ question)

def fileName (t : Target) : Bytes :=
  if t.path = [] then ascii ['i', 'n', 'd', 'e', 'x', '.', 'h', 't', 'm', 'l'] else t.path

end Target

def Method.text : Method → Bytes
  | .METHOD_POST => ascii ['P', 'O', 'S', 'T']
  | .METHOD_GET => ascii ['G', 'E', 'T']

def Version.text : Version → Bytes
  | .HTTP_10 => ascii ['1', '.', '0']
  | .HTTP_11 => ascii ['1', '.', '1']

def requestLine (method : Method) (t : Target) (version : Version) : Bytes :=
  method.text ++ space :: (t.text ++ space :: (ascii ['H', 'T', 'T', 'P', '/'] ++ version.text))

/-- A position that `int` can hold does not change when it is narrowed. -/
theorem narrow_some {pos : ℕ} (h : pos < 2 ^ 31) : narrow (some pos) = pos := by
  have hmod : (pos : ℤ).bmod (2 ^ 32) = pos :=
    Int.bmod_eq_of_le (by omega) (by omega)
  exact hmod

/-- Narrowing does not move a line end back behind itself. -/
theorem le_of_narrow_eq {pos n : ℕ} (h : narrow (some pos) = n) : n ≤ pos := by
  have hmod : (pos : ℤ).bmod (2 ^ 32) = n := h
  rw [Int.bmod_def] at hmod
  split at hmod
  · omega
  · omega

namespace RequestData

section

variable {r t : RequestData} {line : Bytes} {pos : ℕ}

theorem content_parseRequestLine (r : RequestData) (line : Bytes) :
    (r.parseRequestLine line).2.content = r.content := by
  unfold parseRequestLine
  split
  · rfl
  · simp only
    split
    · rfl
    · split
      · rfl
      · split
        · rfl
        · rfl

/-- The line up to a position that `int` holds with the next one. -/
theorem parseURI_eq (hpos : narrow (find r.content [CR] r.nowReadPos) = pos)
    (hlt : pos + 1 < 2 ^ 31) :
    r.parseURI = some (parseRequestLine { r with content := r.content.drop (pos + 1) }
      (r.content.take pos)) := by
  have hnext : CInt.value (pos : ℤ) + 1 = .value (pos + 1 : ℕ) :=
    CInt.value_add_one (by omega) (by omega)
  have hcontent : (if ((pos + 1 : ℕ) : ℤ) < r.content.length then r.content.drop (pos + 1)
      else []) = r.content.drop (pos + 1) := by
    split
    · rfl
    · exact (List.drop_eq_nil_of_le (by omega)).symm
  simp only [parseURI, hpos, hnext, Int.toNat_natCast, hcontent]
  exact if_neg (by omega)

/-- A line that is parsed is taken off `content` with the byte after it. -/
theorem content_of_parseURI (h : r.parseURI = some (.success, t)) :
    ∃ pos : ℕ, narrow (find r.content [CR] r.nowReadPos) = pos ∧ pos + 1 < 2 ^ 31 ∧
      t.content = r.content.drop (pos + 1) := by
  by_cases hneg : narrow (find r.content [CR] r.nowReadPos) < 0
  · simp [parseURI, hneg] at h
  obtain ⟨pos, hpos⟩ := Int.eq_ofNat_of_zero_le (not_lt.1 hneg)
  by_cases hlt : pos + 1 < 2 ^ 31
  · rw [parseURI_eq hpos hlt] at h
    have hcontent := content_parseRequestLine { r with content := r.content.drop (pos + 1) }
      (r.content.take pos)
    rw [Option.some.inj h] at hcontent
    exact ⟨pos, hpos, hlt, hcontent⟩
  · have hover : CInt.value (pos : ℤ) + 1 = .overflow :=
      CInt.value_add_one_eq_overflow (by omega)
    simp [parseURI, hpos, hover] at h

end

/-- The request line is parsed back into the parts that were printed, and the rest
is left. -/
def ParsesLine (r : RequestData) (method : Method) (t : Target) (version : Version)
    (rest : Bytes) : Prop :=
  ∃ r', { r with
      content := requestLine method t version ++ CR :: rest
      nowReadPos := 0 }.parseURI = some (.success, r') ∧
    r'.method = some method ∧ r'.HTTPversion = some version ∧ r'.fileName = t.fileName ∧
    r'.content = rest ∧ r'.state = .STATE_PARSE_HEADERS

section

variable {r : RequestData} {m method : Method} {t : Target} {version : Version} {rest : Bytes}
  {pos : ℕ}

/-- The line without its method. -/
def lineTail (t : Target) (version : Version) : Bytes :=
  t.bytes ++ space :: (ascii ['H', 'T', 'T', 'P', '/'] ++ version.text)

theorem requestLine_eq (method : Method) (t : Target) (version : Version) :
    requestLine method t version = method.text ++ [space] ++ slash :: lineTail t version := by
  simp [requestLine, lineTail, Target.text]

/-- Where the line ends. -/
theorem find_CR (method : Method) (t : Target) (version : Version) (rest : Bytes) :
    find (requestLine method t version ++ CR :: rest) [CR] 0 =
      some (requestLine method t version).length := by
  have hmethod : CR ∉ method.text := by cases method <;> decide
  have hversion : CR ∉ version.text := by cases version <;> decide
  have hHTTP : CR ∉ ascii ['H', 'T', 'T', 'P', '/'] := by decide
  have hspace : CR ≠ space := by decide
  have hslash : CR ≠ slash := by decide
  have hline : CR ∉ requestLine method t version := by
    simp [requestLine, Target.text, hmethod, hversion, hHTTP, hspace, hslash, t.ne_CR]
  exact find_byte (Nat.zero_le _) hline

/-- `GET` is in the line of a `POST` when the target holds it. -/
theorem get_infix_iff (t : Target) (version : Version) :
    Method.text .METHOD_GET <:+: requestLine .METHOD_POST t version ↔
      Method.text .METHOD_GET <:+: t.bytes := by
  have hspace : space ∉ Method.text .METHOD_GET := by decide
  have hslash : slash ∉ Method.text .METHOD_GET := by decide
  have hpost : ¬ Method.text .METHOD_GET <:+: Method.text .METHOD_POST := by decide
  have hnil : ¬ Method.text .METHOD_GET <:+: [] := by decide
  have hend : ¬ Method.text .METHOD_GET <:+: ascii ['H', 'T', 'T', 'P', '/'] ++ version.text := by
    cases version <;> decide
  have htext : t.text = [] ++ slash :: t.bytes := rfl
  rw [requestLine, infix_append_cons_iff hspace, infix_append_cons_iff hspace, htext,
    infix_append_cons_iff hslash]
  simp [hpost, hnil, hend]

theorem findMethod_get (t : Target) (version : Version) :
    findMethod (requestLine .METHOD_GET t version) = some (.METHOD_GET, 0) := by
  have hfind : find (requestLine .METHOD_GET t version) (ascii ['G', 'E', 'T']) 0 = some 0 :=
    find_self (by decide)
  rw [findMethod, hfind]

theorem findMethod_post (h : ¬ Method.text .METHOD_GET <:+: t.bytes) :
    findMethod (requestLine .METHOD_POST t version) = some (.METHOD_POST, 0) := by
  have hget : find (requestLine .METHOD_POST t version) (ascii ['G', 'E', 'T']) 0 = none := by
    rw [find_eq_none_iff (by decide)]
    exact mt (get_infix_iff t version).1 h
  have hpost : find (requestLine .METHOD_POST t version) (ascii ['P', 'O', 'S', 'T']) 0 = some 0 :=
    find_self (by decide)
  rw [findMethod, hget, hpost]

theorem exists_findMethod_of_infix (version : Version)
    (h : Method.text .METHOD_GET <:+: t.bytes) :
    ∃ pos, findMethod (requestLine .METHOD_POST t version) = some (.METHOD_GET, pos) := by
  have hsome : find (requestLine .METHOD_POST t version) (ascii ['G', 'E', 'T']) 0 ≠ none := by
    intro hnone
    exact (find_eq_none_iff (by decide)).1 hnone ((get_infix_iff t version).2 h)
  obtain ⟨pos, hpos⟩ := Option.ne_none_iff_exists'.1 hsome
  exact ⟨pos, by rw [findMethod, hpos]⟩

/-- Where the path begins. -/
theorem find_slash (method : Method) (t : Target) (version : Version) :
    find (requestLine method t version) (ascii ['/']) 0 = some (method.text.length + 1) := by
  have hmethod : slash ∉ method.text ++ [space] := by cases method <;> decide
  have hfind := find_byte (b := lineTail t version) (Nat.zero_le _) hmethod
  rw [← requestLine_eq] at hfind
  rwa [List.length_append] at hfind

/-- Where the path ends. -/
theorem find_space (method : Method) (t : Target) (version : Version) :
    find (requestLine method t version) [space] (method.text.length + 1) =
      some (method.text.length + 1 + (t.bytes.length + 1)) := by
  have hnot : space ∉
      (method.text ++ [space] ++ slash :: t.bytes).drop (method.text.length + 1) := by
    rw [List.drop_left' (by simp)]
    simpa [t.ne_space] using show space ≠ slash by decide
  have hfind := find_byte (b := ascii ['H', 'T', 'T', 'P', '/'] ++ version.text) (by simp) hnot
  have hlen : (method.text ++ [space] ++ slash :: t.bytes).length =
      method.text.length + 1 + (t.bytes.length + 1) := by
    rw [List.length_append, List.length_append, List.length_singleton, List.length_cons]
  rw [hlen] at hfind
  rw [← hfind, requestLine_eq, lineTail]
  simp

theorem findFileName_requestLine (method : Method) (t : Target) (version : Version) :
    findFileName (requestLine method t version) (method.text.length + 1)
        (method.text.length + 1 + (t.bytes.length + 1)) =
      if t.bytes = [] then ascii ['i', 'n', 'd', 'e', 'x', '.', 'h', 't', 'm', 'l']
      else t.path := by
  have hlen : method.text.length + 1 + (t.bytes.length + 1) - (method.text.length + 1) =
      t.bytes.length + 1 := by omega
  have hdrop : (requestLine method t version).drop (method.text.length + 1 + 1) =
      lineTail t version := by
    have hsplit : requestLine method t version =
        (method.text ++ [space] ++ [slash]) ++ lineTail t version := by simp [requestLine_eq]
    rw [hsplit]
    exact List.drop_left' (by simp)
  have htake : (lineTail t version).take t.bytes.length = t.bytes := List.take_left
  unfold findFileName
  simp only [hlen, hdrop, Nat.add_sub_cancel, htake]
  by_cases hempty : t.bytes = []
  · simp [hempty]
  · have hpositive : 1 < t.bytes.length + 1 := by
      have := List.length_pos_of_ne_nil hempty
      omega
    rw [if_pos hpositive, if_neg hempty]
    exact take_find t.bytes question

theorem findVersion_requestLine (method : Method) (t : Target) (version : Version) :
    findVersion (requestLine method t version)
      (method.text.length + 1 + (t.bytes.length + 1)) = some version := by
  let before := method.text ++ [space] ++ slash :: t.bytes
  have hsplit : requestLine method t version =
      (before ++ space :: ascii ['H', 'T', 'T', 'P']) ++ slash :: version.text := by
    have hHTTP : ascii ['H', 'T', 'T', 'P', '/'] = ascii ['H', 'T', 'T', 'P'] ++ [slash] := rfl
    simp [requestLine_eq, lineTail, before, hHTTP]
  have hbefore : before.length = method.text.length + 1 + (t.bytes.length + 1) := by
    rw [List.length_append, List.length_append, List.length_singleton, List.length_cons]
  have hnot : slash ∉ (before ++ space :: ascii ['H', 'T', 'T', 'P']).drop
      (method.text.length + 1 + (t.bytes.length + 1)) := by
    rw [List.drop_left' hbefore]
    decide
  have hfind : find (requestLine method t version) (ascii ['/'])
      (method.text.length + 1 + (t.bytes.length + 1)) =
        some (before ++ space :: ascii ['H', 'T', 'T', 'P']).length := by
    rw [hsplit]
    exact find_byte (by rw [← hbefore]; simp) hnot
  have hdrop : (requestLine method t version).drop
      ((before ++ space :: ascii ['H', 'T', 'T', 'P']).length + 1) = version.text := by
    have hslash : requestLine method t version =
        (before ++ space :: ascii ['H', 'T', 'T', 'P'] ++ [slash]) ++ version.text := by
      simp [hsplit]
    rw [hslash]
    exact List.drop_left' (by simp only [List.length_append, List.length_singleton])
  have hlen : ¬ (requestLine method t version).length -
      (before ++ space :: ascii ['H', 'T', 'T', 'P']).length ≤ 3 := by
    have hversion : version.text.length = 3 := by cases version <;> rfl
    rw [hsplit, List.length_append, List.length_cons, hversion]
    omega
  simp only [findVersion, hfind, hlen, if_false, hdrop]
  cases version <;> rfl

/-- The method that the line names is stored first. -/
theorem method_parseRequestLine {line : Bytes} (r : RequestData)
    (hmethod : findMethod line = some (m, pos)) :
    (r.parseRequestLine line).2.method = some m := by
  simp only [parseRequestLine, hmethod]
  split
  · rfl
  · split
    · rfl
    · split
      · rfl
      · rfl

theorem parseRequestLine_requestLine
    (hmethod : findMethod (requestLine method t version) = some (method, 0)) :
    r.parseRequestLine (requestLine method t version) = (.success, { r with
      method := some method
      HTTPversion := some version
      fileName :=
        if t.bytes = [] then ascii ['i', 'n', 'd', 'e', 'x', '.', 'h', 't', 'm', 'l']
        else t.path
      state := .STATE_PARSE_HEADERS }) := by
  simp only [parseRequestLine, hmethod, find_slash, find_space, findFileName_requestLine,
    findVersion_requestLine]

/-- The line is taken off `content`. -/
theorem parseURI_requestLine_eq (r : RequestData) (rest : Bytes)
    (hlen : (requestLine method t version).length + 1 < 2 ^ 31) :
    { r with
      content := requestLine method t version ++ CR :: rest
      nowReadPos := 0 }.parseURI =
        some (parseRequestLine { r with content := rest, nowReadPos := 0 }
          (requestLine method t version)) := by
  have hpos : narrow (some (requestLine method t version).length) =
      (requestLine method t version).length := narrow_some (by omega)
  rw [← find_CR method t version rest] at hpos
  rw [parseURI_eq hpos hlen, List.take_left]
  have hdrop : (requestLine method t version ++ CR :: rest).drop
      ((requestLine method t version).length + 1) = rest := by
    rw [← List.drop_drop, List.drop_left]
    rfl
  simp only [hdrop]

theorem parseURI_requestLine
    (hmethod : findMethod (requestLine method t version) = some (method, 0))
    (hlen : (requestLine method t version).length + 1 < 2 ^ 31) :
    { r with
      content := requestLine method t version ++ CR :: rest
      nowReadPos := 0 }.parseURI = some (.success, { r with
        content := rest
        nowReadPos := 0
        method := some method
        HTTPversion := some version
        fileName :=
          if t.bytes = [] then ascii ['i', 'n', 'd', 'e', 'x', '.', 'h', 't', 'm', 'l']
          else t.path
        state := .STATE_PARSE_HEADERS }) := by
  rw [parseURI_requestLine_eq r rest hlen, parseRequestLine_requestLine hmethod]

/-- A line that is parsed back ends where `int` can tell. With any other length `parse_URI`
finds no line end, or cuts the line off before its end. -/
theorem ParsesLine.length_lt (h : r.ParsesLine method t version rest) :
    (requestLine method t version).length + 1 < 2 ^ 31 := by
  obtain ⟨r', hr', -, -, -, hcontent, -⟩ := h
  obtain ⟨pos, hpos, hlt, hdrop⟩ := content_of_parseURI hr'
  rw [find_CR] at hpos
  rw [hcontent] at hdrop
  have hle := le_of_narrow_eq hpos
  have hlengths := congrArg List.length hdrop
  simp only [List.length_drop, List.length_append, List.length_cons] at hlengths
  omega

/-- The file name is right unless the target begins with its query. -/
theorem fileName_eq_iff (t : Target) :
    (if t.bytes = [] then ascii ['i', 'n', 'd', 'e', 'x', '.', 'h', 't', 'm', 'l'] else t.path) =
      t.fileName ↔ t.bytes.head? ≠ some question := by
  cases hbytes : t.bytes with
  | nil => simp [Target.fileName, Target.path, hbytes]
  | cons b bytes =>
      by_cases hb : b = question
      · subst hb
        have hpath : t.path = [] := by simp [Target.path, hbytes]
        simp [Target.fileName, hpath, ascii]
      · have hpath : t.path ≠ [] := by simp [Target.path, hbytes, hb]
        simp [Target.fileName, hpath, hb]

/-- Parsing inverts printing exactly when `GET` is not in the target of a `POST`, the
path is not left out before a query, and the position after the line is an `int`. -/
theorem parseURI_requestLine_iff (r : RequestData) (method : Method) (t : Target)
    (version : Version) (rest : Bytes) :
    r.ParsesLine method t version rest ↔
      (method = .METHOD_GET ∨ ¬ Method.text .METHOD_GET <:+: t.text) ∧
        t.bytes.head? ≠ some question ∧
        (requestLine method t version).length + 1 < 2 ^ 31 := by
  have htext : Method.text .METHOD_GET <:+: t.text ↔ Method.text .METHOD_GET <:+: t.bytes := by
    have hnil : ¬ Method.text .METHOD_GET <:+: [] := by decide
    have hsplit := infix_append_cons_iff (a := []) (b := t.bytes)
      (show slash ∉ Method.text .METHOD_GET by decide)
    exact hsplit.trans (by simp [hnil])
  rw [htext]
  by_cases hlen : (requestLine method t version).length + 1 < 2 ^ 31
  swap
  · exact iff_of_false (fun h => hlen h.length_lt) fun h => hlen h.2.2
  by_cases hget : method = .METHOD_GET ∨ ¬ Method.text .METHOD_GET <:+: t.bytes
  · have hmethod : findMethod (requestLine method t version) = some (method, 0) := by
      cases method with
      | METHOD_GET => exact findMethod_get t version
      | METHOD_POST => exact findMethod_post (hget.resolve_left (by simp))
    rw [← fileName_eq_iff, ParsesLine, parseURI_requestLine hmethod hlen]
    constructor
    · rintro ⟨r', hr', -, -, hfile, -⟩
      obtain ⟨-, rfl⟩ := Prod.mk.inj (Option.some.inj hr')
      exact ⟨hget, hfile, hlen⟩
    · rintro ⟨-, hfile, -⟩
      exact ⟨_, rfl, rfl, rfl, hfile, rfl, rfl⟩
  · obtain ⟨hpost, hinfix⟩ := not_or.1 hget
    obtain rfl : method = .METHOD_POST := by
      cases method with
      | METHOD_POST => rfl
      | METHOD_GET => exact absurd rfl hpost
    refine iff_of_false ?_ fun h => hget h.1
    rintro ⟨r', hr', hmethod, -⟩
    obtain ⟨pos, hpos⟩ := exists_findMethod_of_infix version (not_not.1 hinfix)
    rw [parseURI_requestLine_eq r rest hlen] at hr'
    have hwrong := method_parseRequestLine { r with content := rest, nowReadPos := 0 } hpos
    rw [Option.some.inj hr', hmethod] at hwrong
    cases hwrong

end

/-- The target `/GET/a`. -/
def getTarget : Target where
  bytes := ascii ['G', 'E', 'T', '/', 'a']
  ne_space := by decide
  ne_CR := by decide

/-- A request that posts to `/GET/a`. -/
def postRequest : RequestData :=
  { new with
    content := requestLine .METHOD_POST getTarget .HTTP_11 ++ CR :: [LF]
    nowReadPos := 0 }

/-- It is taken for a `GET` of `a`. -/
theorem not_parsesLine_getTarget :
    (postRequest.parseURI.map fun x => (x.1, x.2.method, x.2.fileName)) =
        some (.success, some .METHOD_GET, ascii ['a']) ∧
      ¬ new.ParsesLine .METHOD_POST getTarget .HTTP_11 [LF] := by
  have hparse : (postRequest.parseURI.map fun x => (x.1, x.2.method, x.2.fileName)) =
      some (.success, some .METHOD_GET, ascii ['a']) := by decide +kernel
  refine ⟨hparse, ?_⟩
  rintro ⟨r', hr', hpost, -⟩
  have hr : postRequest.parseURI = some (.success, r') := hr'
  simp [hr, hpost] at hparse

end RequestData

end Http

end SoL
