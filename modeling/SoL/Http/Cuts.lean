import SoL.Http.Headers

/-!
# Header parsing and the cuts of the stream

`feed` appends the pieces of a stream to `content` one by one and calls
`parse_Headers` after each, until a call does not ask for more. A cut that falls
inside the header block loses the bounds of the line that is being read, and the
next call goes over the bytes of that line again in the state that it had at
their end. Every other cut is harmless (`feed_eq_whole`).
-/

namespace SoL

namespace Http

/-- What the calls come to: the last result, the headers, and the bytes that no
call has taken. -/
structure Report where
  result : ParseResult
  headers : Headers
  remaining : Bytes

namespace RequestData

def append (r : RequestData) (piece : Bytes) : RequestData :=
  { r with content := r.content ++ piece }

theorem append_nil (r : RequestData) : r.append [] = r := by simp [append]

theorem append_append (r : RequestData) (p q : Bytes) :
    (r.append p).append q = r.append (p ++ q) := by simp [append]

/-- One call of `parse_Headers` per piece; `none` when one of them ends in undefined
behaviour. -/
def feed (r : RequestData) : List Bytes → Option Report
  | [] => some ⟨.again, r.headers, r.content⟩
  | piece :: rest =>
      match (r.append piece).parseHeaders with
      | none => none
      | some (.again, r) => feed r rest
      | some (result, r) => some ⟨result, r.headers, r.content ++ rest.flatten⟩

/-- A request whose headers have not been read yet. -/
def starting (headers : Headers) : RequestData := { new with headers := headers }

/-- The pieces are parsed like the bytes in one piece, and within bounds. -/
def feedsAsWhole (headers : Headers) (pieces : List Bytes) : Prop :=
  ((starting headers).feed pieces).isSome = true ∧
    (starting headers).feed pieces = (starting headers).feed [pieces.flatten]

section

variable {r : RequestData} {headers : Headers} {p q : Bytes}

/-- The loop of the call on `p` decides the result: bytes after `p` do not
matter. -/
def Decided (p : Bytes) (headers : Headers) : Prop :=
  (∃ s, Scan.scan p p 0 (Scan.enter .h_start headers) = .error s) ∨
    ∃ s, Scan.scan p p 0 (Scan.enter .h_start headers) = .going s ∧ s.notFinish = false ∧
      s.hState = .h_end_LF ∧ s.nowReadLineBegin < p.length

/-- The block is over in `p`, or it is not well formed. -/
def Over (p : Bytes) : Prop := (¬ ∀ b ∈ p, lineEnd b) ∧ ¬ Inside p

/-- `int` can index the stream, or as much of it as it takes to the end of the block. -/
def Indexed (p : Bytes) : Prop :=
  p.length < 2 ^ 31 ∨ ∃ q, q <+: p ∧ q.length < 2 ^ 31 ∧ Over q

/-- Before the block there is no more than `int` can index. -/
theorem Indexed.length_lt (h : Indexed (p ++ q)) (hp : ∀ b ∈ p, lineEnd b) :
    p.length < 2 ^ 31 := by
  obtain hlen | ⟨x, hx, hlen, hover, -⟩ := h
  · rw [List.length_append] at hlen
    omega
  · obtain hshort | hlong := List.prefix_or_prefix_of_prefix (List.prefix_append p q) hx
    · exact hshort.length_le.trans_lt hlen
    · exact absurd (fun b hb => hp b (hlong.subset hb)) hover

theorem Indexed.exists_over (h : Indexed (p ++ q)) (hp : Over p) :
    ∃ x, x <+: p ∧ x.length < 2 ^ 31 ∧ Over x := by
  obtain hlen | ⟨x, hx, hlen, hover⟩ := h
  · rw [List.length_append] at hlen
    exact ⟨p, List.prefix_rfl, by omega, hp⟩
  · obtain hshort | hlong := List.prefix_or_prefix_of_prefix (List.prefix_append p q) hx
    · exact ⟨p, List.prefix_rfl, hshort.length_le.trans_lt hlen, hp⟩
    · exact ⟨x, hlong, hlen, hover⟩

theorem decided_of_over (h : Over p) (headers : Headers) : Decided p headers := by
  obtain ⟨hp, h⟩ := h
  have hleaves := Scan.leaves_scan_enter p headers
  cases hscan : Scan.scan p p 0 (Scan.enter .h_start headers) with
  | outOfRange => exact absurd hscan (Scan.scan_ne_outOfRange p headers)
  | error s => exact .inl ⟨s, hscan⟩
  | going s =>
      rw [hscan] at hleaves
      obtain ⟨hfin, hreads⟩ | hover := hleaves
      · exfalso
        by_cases hstart : s.hState = .h_start
        · simp only [Scan.Reads, hstart] at hreads
          exact hp hreads.1
        · exact h ((inside_iff p headers).2 ⟨s, hscan, hfin, hstart, hreads⟩)
      · exact .inr ⟨s, hscan, hover⟩

/-- The call on line ends takes nothing. -/
theorem parseHeaders_lead (hlen : r.content.length < 2 ^ 31) (hp : ∀ b ∈ r.content, lineEnd b)
    (hr : r.hState = .h_start) : r.parseHeaders = some (.again, r) := by
  have hscan : Scan.scan r.content r.content 0 (Scan.enter r.hState r.headers) =
      .going (Scan.enter r.hState r.headers) := Scan.scan_lead hp hr rfl
  rw [parseHeaders_eq hlen, hscan]
  cases r
  cases hr
  rfl

/-- A call whose first bytes are decided gives the same result with more bytes, which it
leaves as they are. -/
theorem parseHeaders_decided (hr : r.hState = .h_start) (hp : p <+: r.content)
    (hlen : p.length < 2 ^ 31) (h : Decided p r.headers) :
    ∃ (result : ParseResult) (t : RequestData), result ≠ .again ∧
      ∀ q, (r.append q).parseHeaders = some (result, t.append q) := by
  obtain ⟨x, hx⟩ := hp
  -- the loop has come to its result behind `p`
  have hloop : ∀ q, Scan.loop (p ++ (x ++ q)) p 0 (Scan.enter .h_start r.headers) =
      Scan.scan p p 0 (Scan.enter .h_start r.headers) := fun q =>
    (Scan.loop_enter_eq_scan _ _ hlen).trans
      (Scan.scan_extend (List.prefix_append _ _) (Scan.scan_ne_outOfRange p r.headers))
  obtain ⟨s, hscan⟩ | ⟨s, hscan, hover, hstate, hbegin⟩ := h
  · refine ⟨.error, { r with hState := s.hState, headers := s.headers }, by simp, fun q => ?_⟩
    have hwhole : Scan.loop (p ++ (x ++ q)) (p ++ (x ++ q)) 0
        (Scan.enter .h_start r.headers) = .error s := by
      rw [Scan.loop_append, hloop, hscan]
    simp only [parseHeaders, append, ← hx, List.append_assoc, hr, hwhole]
  · refine ⟨.success, { r with
      hState := s.hState
      headers := s.headers
      content := r.content.drop s.nowReadLineBegin }, by simp, fun q => ?_⟩
    have hwhole : Scan.loop (p ++ (x ++ q)) (p ++ (x ++ q)) 0
        (Scan.enter .h_start r.headers) = .going s := by
      rw [Scan.loop_append, hloop, hscan]
      exact Scan.loop_finished hover
    simp only [parseHeaders, append, ← hx, List.append_assoc, hr, hwhole, hstate, if_true,
      List.drop_append_of_le_length hbegin.le]

theorem feed_cons_again {t : RequestData} (rest : List Bytes)
    (h : (r.append p).parseHeaders = some (.again, t)) :
    r.feed (p :: rest) = t.feed rest := by
  simp only [feed, h]

theorem feed_cons_of_ne {t : RequestData} {result : ParseResult} (rest : List Bytes)
    (h : (r.append p).parseHeaders = some (result, t)) (hne : result ≠ .again) :
    r.feed (p :: rest) = some ⟨result, t.headers, t.content ++ rest.flatten⟩ := by
  cases result with
  | again => exact absurd rfl hne
  | error => simp only [feed, h]
  | success => simp only [feed, h]

/-- The call in the first state stays within bounds. -/
theorem isSome_feed_singleton (hr : r.hState = .h_start) (p : Bytes)
    (h : Indexed (r.content ++ p)) : (r.feed [p]).isSome = true := by
  have hparse : ∃ result t, (r.append p).parseHeaders = some (result, t) := by
    obtain hlen | ⟨q, hq, hlen, hover⟩ := h
    · have hscan := Scan.scan_ne_outOfRange (r.content ++ p) r.headers
      rw [parseHeaders_eq hlen]
      simp only [append, hr]
      cases h : Scan.scan (r.content ++ p) (r.content ++ p) 0 (Scan.enter .h_start r.headers) with
      | outOfRange => exact absurd h hscan
      | error s => exact ⟨_, _, rfl⟩
      | going s => exact ⟨_, _, rfl⟩
    · obtain ⟨result, t, -, hparse⟩ := parseHeaders_decided (r := r.append p) hr hq hlen
        (decided_of_over hover r.headers)
      have hfirst := hparse []
      rw [append_nil] at hfirst
      exact ⟨result, _, hfirst⟩
  obtain ⟨result, t, ht⟩ := hparse
  by_cases hagain : result = .again
  · subst hagain
    rw [feed_cons_again [] ht]
    rfl
  · rw [feed_cons_of_ne [] ht hagain]
    rfl

/-- Cuts outside the block, when line ends are all that has come. -/
theorem feed_outside (hr : r.hState = .h_start) (hlead : ∀ b ∈ r.content, lineEnd b)
    (pieces : List Bytes) (hindexed : Indexed (r.content ++ pieces.flatten))
    (hcuts : ∀ ps qs, pieces = ps ++ qs → qs ≠ [] → ¬ Inside (r.content ++ ps.flatten)) :
    r.feed pieces = r.feed [pieces.flatten] := by
  induction pieces generalizing r with
  | nil =>
      have hlen := hindexed.length_lt hlead
      rw [List.flatten_nil,
        feed_cons_again [] (by rw [append_nil, parseHeaders_lead hlen hlead hr])]
  | cons p rest ih =>
      rw [List.flatten_cons, ← List.append_assoc] at hindexed
      by_cases hall : ∀ b ∈ r.content ++ p, lineEnd b
      · -- the piece adds line ends, and the next call goes over them again
        have hparse : (r.append p).parseHeaders = some (.again, r.append p) :=
          parseHeaders_lead (hindexed.length_lt hall) hall hr
        rw [feed_cons_again rest hparse, ih (r := r.append p) hr hall hindexed]
        · simp only [feed, append, List.append_assoc, List.flatten_cons]
        · intro ps qs hsplit hqs
          have hcut := hcuts (p :: ps) qs (by rw [hsplit, List.cons_append]) hqs
          simpa [append] using hcut
      · cases rest with
        | nil => simp
        | cons q rest =>
            have houtside : ¬ Inside (r.content ++ p) := by
              have hcut := hcuts [p] (q :: rest) rfl (List.cons_ne_nil q rest)
              simpa using hcut
            obtain ⟨x, hx, hlen, hover⟩ := hindexed.exists_over ⟨hall, houtside⟩
            obtain ⟨result, t, hne, hparse⟩ := parseHeaders_decided (r := r.append p) hr hx hlen
              (decided_of_over hover r.headers)
            have hfirst := hparse []
            rw [append_nil, append_nil] at hfirst
            have hwhole : (r.append (p :: q :: rest).flatten).parseHeaders =
                some (result, t.append (q :: rest).flatten) := by
              rw [List.flatten_cons, ← append_append, hparse]
            rw [feed_cons_of_ne _ hfirst hne, feed_cons_of_ne [] hwhole hne]
            simp [append]

/-- The call takes up a line that it has not begun. -/
structure Resumed (s : Scan) : Prop where
  midLine : Scan.midLine s.hState = true
  keyStart : s.keyStart = -1
  lineBegin : s.nowReadLineBegin = 0

theorem resumed_round {str : Bytes} {i : ℕ} {c : UInt8} {s t : Scan} (h : Resumed s)
    (hround : Scan.Round str i c s t) : Resumed t := by
  have hmid := h.midLine
  cases hround with
  | key | value => exact h
  | keyEnd | colon | valueStart | valueEnd => exact ⟨rfl, h.keyStart, h.lineBegin⟩
  | store key value _ _ hkey =>
      -- the key would begin before the first byte
      simp [substring, h.keyStart] at hkey
  | lead hstate | first hstate | next hstate | endCR hstate | endLF hstate | body hstate =>
      simp [hstate, Scan.midLine] at hmid

/-- A line that is taken up is not ended: the call fails, or takes nothing. -/
theorem feed_resumed (hr : Scan.midLine r.hState = true) (q : Bytes) :
    ∀ report, r.feed [q] = some report →
      report.result = .again → report.remaining = r.content ++ q := by
  intro report hreport hagain
  have hresumed : Resumed (Scan.enter r.hState r.headers) := ⟨hr, rfl, rfl⟩
  cases hloop : Scan.loop (r.content ++ q) (r.content ++ q) 0
      (Scan.enter r.hState r.headers) with
  | outOfRange => simp [feed, parseHeaders, append, hloop] at hreport
  | error s =>
      simp only [feed, parseHeaders, append, hloop, Option.some.injEq] at hreport
      simp [← hreport] at hagain
  | going s =>
      have hs := Scan.scan_invariant resumed_round hresumed (Scan.scan_of_loop hloop)
      have hne : s.hState ≠ .h_end_LF := by
        intro hstate
        simpa [hstate, Scan.midLine] using hs.midLine
      simp only [feed, parseHeaders, append, hloop, hne, if_false, hs.lineBegin, List.drop_zero,
        Option.some.injEq] at hreport
      simp [← hreport]

/-- The first call, when its loop can go on and has not ended the block. -/
theorem feed_starting_again {s : Scan} (hlen : p.length < 2 ^ 31)
    (hscan : Scan.scan p p 0 (Scan.enter .h_start headers) = .going s)
    (hs : s.hState ≠ .h_end_LF) (rest : List Bytes) :
    (starting headers).feed (p :: rest) =
      feed { starting headers with
        content := p.drop s.nowReadLineBegin
        hState := s.hState
        headers := s.headers } rest := by
  refine feed_cons_again rest ?_
  rw [parseHeaders_eq (by simpa [append, starting, new] using hlen)]
  simp only [append, starting, new, List.nil_append, hscan, hs, if_false]

/-- The first call, when it ends the block. -/
theorem feed_starting_success {s : Scan} (hlen : p.length < 2 ^ 31)
    (hscan : Scan.scan p p 0 (Scan.enter .h_start headers) = .going s)
    (hs : s.hState = .h_end_LF) (rest : List Bytes) :
    (starting headers).feed (p :: rest) =
      some ⟨.success, s.headers, p.drop s.nowReadLineBegin ++ rest.flatten⟩ := by
  have hparse : ((starting headers).append p).parseHeaders = some (.success,
      { starting headers with
        content := p.drop s.nowReadLineBegin
        hState := s.hState
        headers := s.headers }) := by
    rw [parseHeaders_eq (by simpa [append, starting, new] using hlen)]
    simp only [append, starting, new, List.nil_append, hscan, hs, if_true]
  exact feed_cons_of_ne rest hparse (by simp)

theorem scan_append_of_going {s : Scan}
    (hscan : Scan.scan p p 0 (Scan.enter .h_start headers) = .going s) (q : Bytes) :
    Scan.scan (p ++ q) (p ++ q) 0 (Scan.enter .h_start headers) =
      Scan.scan (p ++ q) q p.length s := by
  rw [Scan.scan_append_extend (by simp [hscan]), hscan, Nat.zero_add]

/-- A cut inside a line, when the line is completed: in one piece its line feed is
all that remains. -/
theorem exists_not_feedsAsWhole_of_midLine {s : Scan} (hlen : p.length + 5 < 2 ^ 31)
    (hscan : Scan.scan p p 0 (Scan.enter .h_start headers) = .going s)
    (hreads : Scan.Reads p s) (hmid : Scan.midLine s.hState = true) :
    ∃ q, q.length ≤ 5 ∧ ¬ feedsAsWhole headers [p, q] := by
  obtain ⟨⟨q, hq, hfive, hlines⟩, hbegin⟩ := Scan.exists_lines_of_midLine hreads hmid
  have hs : s.hState ≠ .h_end_LF := by
    intro hstate
    simp [hstate, Scan.midLine] at hmid
  have hflatten : [p, q].flatten = p ++ q := by simp
  have hp : p.length < 2 ^ 31 := by omega
  have hwhole : (p ++ q).length < 2 ^ 31 := by
    rw [List.length_append]
    omega
  obtain ⟨u, hu, hstate, -, hlast⟩ := Scan.scan_lines hlines List.prefix_rfl headers
  refine ⟨q, hfive, fun hsame => ?_⟩
  have heq := hsame.2
  rw [feed_starting_again hp hscan hs, hflatten,
    feed_starting_again hwhole hu (by simp [hstate])] at heq
  have hremaining := feed_resumed (r := { starting headers with
    content := p.drop s.nowReadLineBegin
    hState := s.hState
    headers := s.headers }) hmid q _ heq rfl
  have hlengths := congrArg List.length hremaining
  have hqlength := List.length_pos_of_ne_nil hq
  simp only [List.length_drop, List.length_append] at hlengths hlast
  omega

/-- For every cut inside the block there are at most five bytes to come for which it
makes a difference. -/
theorem exists_not_feedsAsWhole (hlen : p.length + 5 < 2 ^ 31) (h : Inside p)
    (headers : Headers) : ∃ q, q.length ≤ 5 ∧ ¬ feedsAsWhole headers [p, q] := by
  obtain ⟨s, hscan, hfin, hstart, hreads⟩ := (inside_iff p headers).1 h
  have hflatten : ∀ q, [p, q].flatten = p ++ q := fun q => by simp
  have hp : p.length < 2 ^ 31 := by omega
  have hone : ∀ b : UInt8, (p ++ [b]).length < 2 ^ 31 := fun b => by
    rw [List.length_append, List.length_singleton]
    omega
  cases hmid : Scan.midLine s.hState with
  | true => exact exists_not_feedsAsWhole_of_midLine hlen hscan hreads hmid
  | false =>
      cases hstate : s.hState with
      | h_start => exact absurd hstate hstart
      | h_key | h_colon | h_spaces_after_colon | h_value | h_CR =>
          simp [hstate, Scan.midLine] at hmid
      | h_LF =>
          simp only [Scan.Reads, hstate] at hreads
          have hwhole := scan_append_of_going hscan [CR]
          simp only [Scan.scan_cons, hfin, Scan.advance, hstate, if_true, Scan.scan_nil] at hwhole
          refine ⟨[CR], by simp, fun hsame => ?_⟩
          have heq := hsame.2
          rw [feed_starting_again hp hscan (by simp [hstate]), hflatten,
            feed_starting_again (hone CR) hwhole (by simp), hreads.2, hstate] at heq
          revert heq
          simp [feed, parseHeaders, append, Scan.loop, Scan.step, Scan.enter, LF, CR, colon]
      | h_end_CR =>
          simp only [Scan.Reads, hstate] at hreads
          obtain ⟨a, -, -, hdrop⟩ := hreads
          have hwhole := scan_append_of_going hscan [LF]
          simp only [Scan.scan_cons, hfin, Scan.advance, hstate, if_true, Scan.scan_nil] at hwhole
          refine ⟨[LF], by simp, fun hsame => ?_⟩
          have heq := hsame.2
          rw [feed_starting_again hp hscan (by simp [hstate]), hflatten,
            feed_starting_success (hone LF) hwhole rfl, hdrop, hstate] at heq
          have hlt : s.nowReadLineBegin < p.length :=
            List.length_lt_of_drop_ne_nil (by simp [hdrop])
          rw [List.drop_append_of_le_length hlt.le, hdrop] at heq
          revert heq
          simp [feed, parseHeaders, append, Scan.loop, Scan.step, Scan.enter, LF, CR]
      | h_end_LF =>
          simp only [Scan.Reads, hstate] at hreads
          obtain ⟨a, -, -, hdrop⟩ := hreads
          have hwhole := scan_append_of_going hscan [LF]
          simp only [Scan.scan_cons, hfin, Scan.advance, hstate, Scan.scan_nil] at hwhole
          refine ⟨[LF], by simp, fun hsame => ?_⟩
          have heq := hsame.2
          rw [feed_starting_success hp hscan hstate, hflatten,
            feed_starting_success (hone LF) hwhole rfl, hdrop] at heq
          simp at heq

/-- Header parsing does not depend on the cuts of a stream whose block `int` can index when
none of them falls inside the header block, and a cut is harmless for all bytes to come
exactly when it does not fall inside the block. -/
theorem feed_eq_whole (headers : Headers) :
    (∀ pieces : List Bytes, Indexed pieces.flatten →
      (∀ ps qs, pieces = ps ++ qs → qs ≠ [] → ¬ Inside ps.flatten) →
        feedsAsWhole headers pieces) ∧
    ∀ p : Bytes, p.length + 5 < 2 ^ 31 →
      ((∀ q : Bytes, Indexed (p ++ q) → feedsAsWhole headers [p, q]) ↔ ¬ Inside p) := by
  have houtside : ∀ pieces : List Bytes, Indexed pieces.flatten →
      (∀ ps qs, pieces = ps ++ qs → qs ≠ [] → ¬ Inside ps.flatten) →
        feedsAsWhole headers pieces := by
    intro pieces hindexed hcuts
    have heq := feed_outside (r := starting headers) rfl (by simp [starting, new]) pieces
      hindexed hcuts
    exact ⟨heq ▸ isSome_feed_singleton rfl _ hindexed, heq⟩
  refine ⟨houtside, fun p hp => ⟨fun h hinside => ?_, fun hcut q hq => ?_⟩⟩
  · obtain ⟨q, hfive, hq⟩ := exists_not_feedsAsWhole hp hinside headers
    refine hq (h q (.inl ?_))
    rw [List.length_append]
    omega
  · refine houtside [p, q] (by simpa using hq) fun ps qs hsplit hqs => ?_
    -- the only cuts are before `p` and after it
    cases ps with
    | nil => simp [Inside]
    | cons x xs =>
        obtain ⟨rfl, hxs⟩ := List.cons.inj hsplit
        cases xs with
        | nil => simpa using hcut
        | cons y ys =>
            obtain ⟨-, hys⟩ := List.cons.inj hxs
            obtain ⟨-, rfl⟩ := List.append_eq_nil_iff.1 hys.symm
            exact absurd rfl hqs

/-- A block of one field, when the request line has been taken off. -/
def hostBlock : Bytes := ascii ['H', 'o', 's', 't', ':', ' ', 'a'] ++ [CR, LF, CR, LF]

theorem not_inside_hostBlock : ¬ Inside ([LF] ++ (hostBlock ++ ascii ['x'])) := by
  intro h
  obtain ⟨t, ht, hfin, -⟩ := (inside_iff _ fun _ => none).1 h
  obtain rfl := Scanned.going.inj ht
  cases hfin

/-- Cuts before the key and in the body, and any bytes after the first cut. -/
theorem feedsAsWhole_cutBeforeKey :
    feedsAsWhole (fun _ => none) [[LF], hostBlock ++ ascii ['x'], ascii ['y']] ∧
      feedsAsWhole (fun _ => none) [[LF], hostBlock] := by
  have hlead : ¬ Inside [LF] := by simp [Inside, lineEnd]
  refine ⟨(feed_eq_whole _).1 _ (.inl (by simp [hostBlock, ascii])) fun ps qs hsplit hqs => ?_,
    ((feed_eq_whole _).2 [LF] (by simp)).2 hlead _ (.inl (by simp [hostBlock, ascii]))⟩
  obtain rfl | rfl | rfl : ps = [] ∨ ps = [[LF]] ∨ ps = [[LF], hostBlock ++ ascii ['x']] := by
    obtain _ | ⟨p, _ | ⟨q, _ | ⟨x, ps⟩⟩⟩ := ps
    · exact .inl rfl
    · exact .inr (.inl (by simp_all))
    · exact .inr (.inr (by simp_all))
    · simp_all
  · simp [Inside]
  · simpa using hlead
  · simpa using not_inside_hostBlock

/-- A cut in the first key makes the second call form a key that begins before the
first byte. -/
theorem not_feedsAsWhole_cutKey :
    ¬ ∀ headers pieces, feedsAsWhole headers pieces := by
  intro h
  have hsome := (h (fun _ => none)
    [ascii ['H', 'o'], ascii ['s', 't', ':', ' ', 'a'] ++ [CR, LF, CR, LF]]).1
  revert hsome
  decide

end

end RequestData

end Http

end SoL
