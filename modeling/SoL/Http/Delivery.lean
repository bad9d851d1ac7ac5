import SoL.Http.HandleRequest
import SoL.Http.HeaderBlock
import SoL.Http.RequestLine

/-!
# A request from the socket to its analysis

The worker of a printed request comes to `analysisRequest` with what was printed,
however the bytes arrive, provided that the first `readn` gets as far as the header
block: for a `GET` to its end, for a `POST` one byte further. The rest of the body may
come in any pieces and at any time, since the loop reads until it is complete
(`handleRequest_post`).

Up to there the conditions are those under which the two parsers give back what was
printed. They are the ones of `parseURI_requestLine_iff` and
`parseHeaders_printHeaders_iff`, but a `GET` needs no body.
-/

namespace SoL

namespace Http

open Net

/-- The first `n` bytes come before the end of the file, before an error, and with at
most so many refused reads in between. -/
def arrives : ℕ → ℕ → List ReadOutcome → Bool
  | n, _, [] => n == 0
  | n, retries, .chunk _ bs :: rest => arrives (n - (bs.length + 1)) retries rest
  | n, retries, .interrupt :: rest | n, retries, .again :: rest =>
      n == 0 || (0 < retries && arrives n (retries - 1) rest)
  | n, _, .eof :: _ | n, _, .error :: _ => n == 0

theorem arrives_zero (retries : ℕ) (reads : List ReadOutcome) : arrives 0 retries reads = true := by
  induction reads with
  | nil => rfl
  | cons o rest ih =>
      cases o with
      | chunk b bs =>
          rw [arrives, Nat.zero_sub]
          exact ih
      | interrupt | again | eof | error => rfl

/-- A refused read. -/
theorem arrives_of_error {n nleft retries : ℕ} {reads rest : List ReadOutcome} {e : Errno}
    (h : arrives n retries reads = true)
    (hread : Script.readAnswer nleft reads = (.error e, rest)) :
    n = 0 ∨ e ≠ .other ∧ 0 < retries ∧ arrives n (retries - 1) rest = true := by
  cases reads with
  | nil =>
      left
      simpa [arrives] using h
  | cons o tail =>
      cases o with
      | chunk b bs => simp [Script.readAnswer] at hread
      | eof => simp [Script.readAnswer] at hread
      | error =>
          left
          simpa [arrives] using h
      | interrupt | again =>
          obtain ⟨he, rfl⟩ : _ = e ∧ tail = rest := by simpa [Script.readAnswer] using hread
          rcases Nat.eq_zero_or_pos n with hn | hn
          · exact Or.inl hn
          · right
            have hpos : n ≠ 0 := hn.ne'
            have hboth : 0 < retries ∧ arrives n (retries - 1) tail = true := by
              simpa [arrives, hpos] using h
            exact ⟨by simp [← he], hboth⟩

/-- A read that gets bytes. -/
theorem arrives_of_bytes {n nleft retries : ℕ} {reads rest : List ReadOutcome} {bs : Bytes}
    (h : arrives n retries reads = true) (hn : n ≤ nleft)
    (hread : Script.readAnswer nleft reads = (.bytes bs, rest)) :
    arrives (n - bs.length) retries rest = true := by
  cases reads with
  | nil => simp [Script.readAnswer] at hread
  | cons o tail =>
      cases o with
      | interrupt | again | error => simp [Script.readAnswer] at hread
      | eof =>
          have hzero : n = 0 := by simpa [arrives] using h
          rw [hzero, Nat.zero_sub]
          exact arrives_zero retries rest
      | chunk c cs =>
          obtain ⟨hbs, hrest⟩ : (c :: cs).take nleft = bs ∧ _ = rest := by
            simpa [Script.readAnswer] using hread
          cases hdrop : (c :: cs).drop nleft with
          | nil =>
              have hlen : (c :: cs).length ≤ nleft := List.drop_eq_nil_iff.1 hdrop
              rw [hdrop] at hrest
              rw [← hbs, List.take_of_length_le hlen, ← hrest]
              exact h
          | cons d ds =>
              -- The read is filled, so nothing more is asked for.
              have hlen : nleft < (c :: cs).length := by
                by_contra hge
                rw [List.drop_eq_nil_of_le (not_lt.1 hge)] at hdrop
                cases hdrop
              have hzero : n - bs.length = 0 := by
                rw [← hbs, List.length_take_of_le hlen.le]
                omega
              rw [hzero]
              exact arrives_zero retries rest

theorem eq_zero_of_eof {n nleft retries : ℕ} {reads rest : List ReadOutcome}
    (h : arrives n retries reads = true) (hleft : nleft ≠ 0)
    (hread : Script.readAnswer nleft reads = (.bytes [], rest)) : n = 0 := by
  cases reads with
  | nil => simp [Script.readAnswer] at hread
  | cons o tail =>
      cases o with
      | interrupt | again | error => simp [Script.readAnswer] at hread
      | eof => simpa [arrives] using h
      | chunk c cs => simp [Script.readAnswer, hleft] at hread

theorem le_length_readnLoop {n nleft retries : ℕ} {nread : Bytes} {reads : List ReadOutcome}
    (h : arrives n retries reads = true) (hn : n ≤ nleft) :
    nread.length + n ≤ (readnLoop nleft retries nread reads).1.length := by
  fun_induction readnLoop nleft retries nread reads generalizing n with
  | case1 retries nread reads =>
      obtain rfl := Nat.le_zero.1 hn
      exact le_rfl
  | case2 nleft retries nread reads hleft rest hread =>
      rw [eq_zero_of_eof h hleft hread]
      exact le_rfl
  | case3 nleft retries nread reads hleft b bs rest hread ih =>
      have hrest := arrives_of_bytes h hn hread
      have hle := ih hrest (by simp only [List.length_cons]; omega)
      rw [List.length_append] at hle
      omega
  | case4 nleft retries nread reads hleft rest hread =>
      rcases arrives_of_error h hread with rfl | ⟨hother, -⟩
      · exact le_rfl
      · exact absurd rfl hother
  | case5 nleft nread reads hleft e rest hother hread =>
      rcases arrives_of_error h hread with rfl | ⟨-, hpos, -⟩
      · exact le_rfl
      · exact absurd hpos (lt_irrefl 0)
  | case6 nleft nread reads hleft e rest hother hread retries ih =>
      rcases arrives_of_error h hread with rfl | ⟨-, -, hrest⟩
      · exact ih (arrives_zero _ _) (Nat.zero_le _)
      · exact ih hrest hn

namespace RequestData

/-- The bytes of a request. -/
def printRequest (method : Method) (t : Target) (version : Version) (fields : List Field)
    (body : Bytes) : Bytes := requestLine method t version ++ CR :: printHeaders fields body

/-- A printed request as `analysisRequest` is to get it. -/
def printed (method : Method) (t : Target) (version : Version) (fields : List Field)
    (content : Bytes) : RequestData where
  content := content
  method := some method
  HTTPversion := some version
  fileName := t.fileName
  nowReadPos := 0
  state := .STATE_ANALYSIS
  hState := .h_end_LF
  headers := lastValues (fields.map Field.entry)

/-- How the worker leaves its loop with a result of `analysisRequest`. -/
def answered (result : ℤ × RequestData) : Exit × RequestData :=
  if result.1 = 0 then (.stopped false, { result.2 with state := .STATE_FINISH })
  else (.stopped true, result.2)

variable (analysisRequest : RequestData → ℤ × RequestData)

theorem answer_analysis {r : RequestData} (h : r.state = .STATE_ANALYSIS) :
    answer analysisRequest r = .error (answered (analysisRequest r)) := by
  have hbody : r.bodyStage = .ok (false, r) := by simp [bodyStage, h]
  rw [answer, hbody]
  change analysisStage analysisRequest r = _
  simp only [analysisStage, h, if_true, answered]
  by_cases hzero : (analysisRequest r).1 = 0
  · simp [hzero]
  · rw [if_neg hzero, if_neg hzero]
    split <;> rfl

section

variable {r : RequestData} {fields : List Field}

/-- The header block of a request with or without a body. -/
theorem exists_parseHeaders (hfields : fields ≠ []) (hseparate : Separate fields)
    (hlen : (printHeaders fields []).length + 1 < 2 ^ 31) (body : Bytes) :
    ∃ content, (r.atHeaders (printHeaders fields body)).parseHeaders = some (.success, { r with
        content := content
        hState := .h_end_LF
        headers := lastValues (fields.map Field.entry) }) ∧ (body ≠ [] → content = body) := by
  rw [← hseparate.last]
  by_cases hbody : body = []
  · subst hbody
    exact ⟨[LF, CR, LF], parseHeaders_printHeaders_nil hfields hseparate.short (by omega),
      fun h => absurd rfl h⟩
  · exact ⟨body, parseHeaders_printHeaders hfields hbody hseparate.short hlen, fun _ => rfl⟩

end

section

variable {method : Method} {t : Target} {version : Version} {fields : List Field}

/-- The first round of a printed request comes through both parsers, whose positions stay
below the size of the buffer. -/
theorem handleRound_printRequest
    (hmethod : findMethod (requestLine method t version) = some (method, 0))
    (hquery : t.bytes.head? ≠ some question) (hfields : fields ≠ []) (hseparate : Separate fields)
    (hfits : (printRequest method t version fields []).length ≤ MAX_BUFF) (body : Bytes) :
    ∃ content, (body ≠ [] → content = body) ∧
      handleRound analysisRequest new (printRequest method t version fields body) =
        answer analysisRequest { printed method t version fields content with
          state := if method = .METHOD_POST then .STATE_RECV_BODY else .STATE_ANALYSIS } := by
  have hshort : (requestLine method t version).length + 1 < 2 ^ 31 ∧
      (printHeaders fields []).length + 1 < 2 ^ 31 := by
    simp only [printRequest, List.length_append, List.length_cons, MAX_BUFF] at hfits
    omega
  have huri := @parseURI_requestLine new method t version (printHeaders fields body) hmethod
    hshort.1
  rw [(fileName_eq_iff t).2 hquery] at huri
  have hparsed := (uriStage_eq_ok_iff rfl).2 huri
  obtain ⟨content, hheaders, hcontent⟩ := exists_parseHeaders hfields hseparate hshort.2 body
    (r := { new with
      method := some method
      HTTPversion := some version
      fileName := t.fileName
      state := .STATE_PARSE_HEADERS })
  have hread := (headersStage_eq_ok_iff rfl).2 ⟨_, hheaders, rfl⟩
  refine ⟨content, hcontent, ?_⟩
  rw [handleRound_eq]
  refine (congrArg (Except.bind · _) hparsed).trans ?_
  refine (congrArg (Except.bind · _) hread).trans ?_
  cases method <;> rfl

/-- What the first `readn` gets of a request that arrives to its end or beyond a point of
its body. -/
theorem exists_readn_eq {head body : Bytes} {n : ℕ} {reads : List ReadOutcome}
    (hsent : sent reads = head ++ body) (hfits : head.length + n ≤ MAX_BUFF)
    (harrives : arrives (head.length + n) 10 reads = true) :
    ∃ first, (readn MAX_BUFF reads).1 = head ++ first ∧ n ≤ first.length ∧
      body = first ++ sent (readn MAX_BUFF reads).2 := by
  have hlen : ([] : Bytes).length + (head.length + n) ≤ (readn MAX_BUFF reads).1.length :=
    le_length_readnLoop harrives hfits
  have hsplit := sent_readn MAX_BUFF reads
  rw [hsent] at hsplit
  rcases List.append_eq_append_iff.1 hsplit with ⟨rest, hhead, hrest⟩ | ⟨first, hfirst, hbody⟩
  · have hshort := congrArg List.length hhead
    rw [List.length_append] at hshort
    obtain rfl : rest = [] := List.length_eq_zero_iff.1 (by omega)
    rw [List.append_nil] at hhead
    rw [List.nil_append] at hrest
    exact ⟨[], by rw [hhead, List.append_nil], by simp only [List.length_nil]; omega, hrest.symm⟩
  · refine ⟨first, hfirst, ?_, hbody⟩
    rw [hfirst, List.length_append] at hlen
    omega

/-- A `GET` whose header block arrives in the first `readn` is analysed as it was
printed. -/
theorem handleRequest_get {body : Bytes} {reads : List ReadOutcome}
    (hquery : t.bytes.head? ≠ some question) (hfields : fields ≠ []) (hseparate : Separate fields)
    (hsent : sent reads = printRequest .METHOD_GET t version fields body)
    (hfits : (printRequest .METHOD_GET t version fields []).length ≤ MAX_BUFF)
    (harrives : arrives (printRequest .METHOD_GET t version fields []).length 10 reads = true) :
    ∃ content, handleRequest analysisRequest 1 new reads =
      some (answered (analysisRequest (printed .METHOD_GET t version fields content))) := by
  have hsplit : printRequest .METHOD_GET t version fields body =
      printRequest .METHOD_GET t version fields [] ++ body := by simp [printRequest, printHeaders]
  obtain ⟨first, hread, -, -⟩ := exists_readn_eq (n := 0) (hsent.trans hsplit) hfits harrives
  have hfirst : (readn MAX_BUFF reads).1 = printRequest .METHOD_GET t version fields first := by
    rw [hread]
    simp [printRequest, printHeaders]
  obtain ⟨content, -, hround⟩ := handleRound_printRequest analysisRequest
    (findMethod_get t version) hquery hfields hseparate hfits first
  refine ⟨content, ?_⟩
  rw [handleRequest, hfirst, hround]
  have hleft := answer_analysis analysisRequest (r := printed .METHOD_GET t version fields content)
    rfl
  simp only [printed] at hleft ⊢
  simp [hleft]

/-- The target `/`. -/
def root : Target := ⟨[], by simp, by simp⟩

/-- The request of `HTTPClient.cpp`, in two pieces with a refused read between them. -/
def getInPieces : List ReadOutcome :=
  [.chunk 71 [69, 84], .again,
    .chunk 32 ((printRequest .METHOD_GET root .HTTP_11 [keepAlive] []).drop 4)]

theorem handleRequest_getInPieces :
    ∃ content, handleRequest (fun r => (0, r)) 1 new getInPieces =
      some (answered (0, printed .METHOD_GET root .HTTP_11 [keepAlive] content)) :=
  handleRequest_get (fun r => (0, r)) (by simp [root]) (by simp)
    (separate_of_ne_nil (by simp [keepAlive, ascii]))
    (show sent getInPieces = printRequest .METHOD_GET root .HTTP_11 [keepAlive] [] by
      decide +kernel)
    (by decide +kernel) (by decide +kernel)

/-- The body is complete. -/
theorem answer_complete {r : RequestData} {contentLength : ℤ} (h : r.Waiting contentLength)
    (hlong : ¬ (r.content.length : ℤ) < contentLength % 2 ^ 64) :
    r.answer analysisRequest =
      .error (answered (analysisRequest { r with state := .STATE_ANALYSIS })) := by
  obtain ⟨value, hvalue, hstoi⟩ := h.length
  have hstage : r.bodyStage = .ok (false, { r with state := .STATE_ANALYSIS }) := by
    simp only [bodyStage, h.state, hvalue, hstoi, hlong, if_true, if_false]
  have hnext : bodyStage { r with state := .STATE_ANALYSIS } =
      .ok (false, { r with state := .STATE_ANALYSIS }) := by simp [bodyStage]
  rw [← answer_analysis analysisRequest (r := { r with state := .STATE_ANALYSIS }) rfl, answer,
    answer, hstage, hnext]

/-- What has come is the whole body if nothing of its length is missing. -/
theorem eq_of_prefix_of_length_le {first rest body : Bytes} (h : first ++ rest = body)
    (hlen : body.length ≤ first.length) : first = body := by
  have hsame := congrArg List.length h
  rw [List.length_append] at hsame
  obtain rfl : rest = [] := List.length_eq_zero_iff.1 (by omega)
  rw [← h, List.append_nil]

/-- A request that waits for its body gets it, in whatever pieces. The outcomes that are
left decrease in every round that reads. -/
theorem handleRequest_waiting {r : RequestData} {contentLength : ℤ} {body : Bytes}
    (h : r.Waiting contentLength) (hlen : contentLength % 2 ^ 64 = body.length)
    {reads : List ReadOutcome} (hbody : r.content ++ sent reads = body) :
    ∃ rounds, handleRequest analysisRequest rounds r reads =
      some (answered (analysisRequest { r with content := body, state := .STATE_ANALYSIS })) := by
  induction hsize : Script.size reads using Nat.strong_induction_on generalizing r reads with
  | _ size ih =>
      have hsent := sent_readn MAX_BUFF reads
      rw [← hsent, ← List.append_assoc] at hbody
      have hround := handleRound_body analysisRequest h.state (readn MAX_BUFF reads).1
      have hwaiting : Waiting { r with content := r.content ++ (readn MAX_BUFF reads).1 }
          contentLength := ⟨h.state, h.length⟩
      by_cases hshort : ((r.content ++ (readn MAX_BUFF reads).1).length : ℤ) <
          contentLength % 2 ^ 64
      · rw [answer_short analysisRequest hwaiting hshort] at hround
        have hreads : reads ≠ [] := by
          rintro rfl
          have hnil : sent (readn MAX_BUFF []).2 = [] := (List.append_eq_nil_iff.1 hsent).2
          rw [hnil, List.append_nil] at hbody
          rw [hbody] at hshort
          omega
        have hlt := size_readn_lt (show MAX_BUFF ≠ 0 by decide) hreads
        obtain ⟨rounds, hrounds⟩ := ih _ (hsize ▸ hlt) hwaiting hbody rfl
        refine ⟨rounds + 1, ?_⟩
        simp only [handleRequest, hround]
        exact hrounds
      · have hwhole : r.content ++ (readn MAX_BUFF reads).1 = body :=
          eq_of_prefix_of_length_le hbody (by omega)
        refine ⟨1, ?_⟩
        rw [answer_complete analysisRequest hwaiting hshort] at hround
        simp only [handleRequest, hround, hwhole]

theorem lt_of_stoi {value : Bytes} {n : ℤ} (h : stoi value = .ok n) : n < 2 ^ 31 := by
  simp only [stoi] at h
  split_ifs at h with hdigits hsign hrange hrange
  · rw [← Except.ok.inj h]
    exact hrange.2
  · rw [← Except.ok.inj h]
    exact hrange.2

/-- A `POST` whose header block and first byte of the body arrive in the first `readn` is
analysed as it was printed, with its whole body. -/
theorem handleRequest_post {body value : Bytes} {reads : List ReadOutcome}
    (hget : ¬ Method.text .METHOD_GET <:+: t.bytes) (hquery : t.bytes.head? ≠ some question)
    (hfields : fields ≠ []) (hseparate : Separate fields)
    (hvalue : lastValues (fields.map Field.entry) contentLengthKey = some value)
    (hstoi : stoi value = .ok body.length)
    (hsent : sent reads = printRequest .METHOD_POST t version fields body)
    (hfits : (printRequest .METHOD_POST t version fields []).length + 1 ≤ MAX_BUFF)
    (harrives :
      arrives ((printRequest .METHOD_POST t version fields []).length + 1) 10 reads = true) :
    ∃ rounds, handleRequest analysisRequest rounds new reads =
      some (answered (analysisRequest (printed .METHOD_POST t version fields body))) := by
  have hsplit : printRequest .METHOD_POST t version fields body =
      printRequest .METHOD_POST t version fields [] ++ body := by simp [printRequest, printHeaders]
  obtain ⟨first, hread, hone, hbody⟩ := exists_readn_eq (hsent.trans hsplit) hfits harrives
  have hfirst : (readn MAX_BUFF reads).1 = printRequest .METHOD_POST t version fields first := by
    rw [hread]
    simp [printRequest, printHeaders]
  have hne : first ≠ [] := List.length_pos_iff.1 hone
  obtain ⟨content, hcontent, hround⟩ := handleRound_printRequest analysisRequest
    (findMethod_post hget) hquery hfields hseparate (Nat.le_of_succ_le hfits) first
  obtain rfl := hcontent hne
  rw [← hfirst, if_pos rfl] at hround
  have hwaiting : Waiting { printed .METHOD_POST t version fields content with
      state := .STATE_RECV_BODY } body.length := ⟨rfl, value, hvalue, hstoi⟩
  have hlen : (body.length : ℤ) % 2 ^ 64 = body.length := by
    have hrange := lt_of_stoi hstoi
    exact Int.emod_eq_of_lt (Int.natCast_nonneg _) (hrange.trans (by norm_num))
  by_cases hshort : (content.length : ℤ) < (body.length : ℤ) % 2 ^ 64
  · rw [answer_short analysisRequest hwaiting hshort] at hround
    obtain ⟨rounds, hrounds⟩ := handleRequest_waiting analysisRequest hwaiting hlen hbody.symm
    refine ⟨rounds + 1, ?_⟩
    simp only [handleRequest, hround]
    exact hrounds
  · have hwhole : content = body := eq_of_prefix_of_length_le hbody.symm (by omega)
    subst hwhole
    refine ⟨1, ?_⟩
    rw [answer_complete analysisRequest hwaiting hshort] at hround
    simp only [handleRequest, hround]
    rfl

/-- The length of a body of two bytes. -/
def twoBytes : Field where
  key := contentLengthKey
  value := ascii ['2']
  key_ne_nil := by simp [contentLengthKey, ascii]
  keyBytes := by unfold Http.keyBytes; decide +kernel
  not_lineEnd := by decide +kernel
  length_le := by simp [ascii]

/-- A `POST` of two bytes, the second of which comes late. -/
def postInPieces : List ReadOutcome :=
  [.chunk 80 ((printRequest .METHOD_POST root .HTTP_11 [twoBytes] [120]).drop 1), .again,
    .chunk 121 []]

theorem handleRequest_postInPieces :
    ∃ rounds, handleRequest (fun r => (0, r)) rounds new postInPieces =
      some (answered (0, printed .METHOD_POST root .HTTP_11 [twoBytes] [120, 121])) :=
  handleRequest_post (fun r => (0, r)) (by decide) (by simp [root]) (by simp)
    (separate_of_ne_nil (by simp [twoBytes, ascii]))
    (show lastValues ([twoBytes].map Field.entry) contentLengthKey = some (ascii ['2']) by
      decide +kernel)
    rfl (by decide +kernel) (by decide +kernel) (by decide +kernel)

end

end RequestData

end Http

end SoL
