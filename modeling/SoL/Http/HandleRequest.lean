import SoL.Http.RequestData
import SoL.Net.Script

/-!
# The loop of a worker

`handleRequest` reads and parses until a request has been answered, and leaves
its loop through one of several breaks. The descriptor follows a script of
outcomes, and a script that is used up answers `EAGAIN`; `readn` gives up after
ten retries, and never returns a negative number. What `analysisRequest` does to
the file system and the descriptor is left open: its result ends the loop in all
cases.

The loop goes on only while the body of a `POST` request is shorter than its
`Content-length`. The length is a signed number of the client, which the
comparison converts to `size_t`. A worker that waits for more bytes than the
client sends stays in the loop for ever (`terminates_iff`).
-/

namespace SoL

namespace Http

open Net

def MAX_BUFF : ℕ := 4096

/-- The loop of `readn`, with what it has read. -/
def readnLoop (nleft retrycount : ℕ) (nread : Bytes) (reads : List ReadOutcome) :
    Bytes × List ReadOutcome :=
  if _hleft : nleft = 0 then (nread, reads)
  else
    match Script.readAnswer nleft reads with
    | (.bytes [], rest) => (nread, rest)
    | (.bytes (b :: bs), rest) =>
        readnLoop (nleft - (b :: bs).length) retrycount (nread ++ b :: bs) rest
    | (.error .other, rest) => (nread, rest)
    | (.error _, rest) =>
        match retrycount with
        | 0 => (nread, rest)
        | retrycount + 1 => readnLoop nleft retrycount nread rest
termination_by nleft + retrycount
decreasing_by
  · simp only [List.length_cons]
    omega
  · omega

/-- `readn`: the bytes that it stores, and the outcomes that are left. -/
def readn (length : ℕ) (reads : List ReadOutcome) : Bytes × List ReadOutcome :=
  readnLoop length 10 [] reads

/-- The bytes that the client sends. -/
def sent : List ReadOutcome → Bytes
  | [] => []
  | .chunk b bs :: rest => b :: bs ++ sent rest
  | .interrupt :: rest | .again :: rest | .error :: rest | .eof :: rest => sent rest

/-- A `read` takes its bytes from the front of those that the client sends. -/
theorem sent_readAnswer (n : ℕ) (reads : List ReadOutcome) :
    sent reads =
      match Script.readAnswer n reads with
      | (.bytes bs, rest) => bs ++ sent rest
      | (.error _, rest) => sent rest := by
  cases reads with
  | nil => rfl
  | cons o rest =>
      cases o with
      | interrupt | again | error | eof => rfl
      | chunk b bs =>
          simp only [sent, Script.readAnswer]
          conv_lhs => rw [← List.take_append_drop n (b :: bs)]
          cases (b :: bs).drop n with
          | nil => simp
          | cons c cs => simp [sent]

theorem size_readAnswer_lt {n : ℕ} (hn : n ≠ 0) {reads : List ReadOutcome}
    (hreads : reads ≠ []) :
    Script.size (Script.readAnswer n reads).2 < Script.size reads := by
  cases reads with
  | nil => exact absurd rfl hreads
  | cons o rest =>
      cases o with
      | interrupt | again | error | eof => simp [Script.readAnswer, Script.size]
      | chunk b bs => exact Script.size_left n b bs rest hn

theorem size_readAnswer_le {n : ℕ} (hn : n ≠ 0) (reads : List ReadOutcome) :
    Script.size (Script.readAnswer n reads).2 ≤ Script.size reads := by
  by_cases hreads : reads = []
  · subst hreads
    exact le_rfl
  · exact (size_readAnswer_lt hn hreads).le

theorem sent_readnLoop (nleft retrycount : ℕ) (nread : Bytes) (reads : List ReadOutcome) :
    (readnLoop nleft retrycount nread reads).1 ++
      sent (readnLoop nleft retrycount nread reads).2 = nread ++ sent reads := by
  fun_induction readnLoop nleft retrycount nread reads with
  | case1 => rfl
  | case2 nleft retrycount nread reads hleft rest h =>
      rw [sent_readAnswer nleft reads, h]
      rfl
  | case3 nleft retrycount nread reads hleft b bs rest h ih =>
      rw [ih, sent_readAnswer nleft reads, h, List.append_assoc]
  | case4 nleft retrycount nread reads hleft rest h =>
      rw [sent_readAnswer nleft reads, h]
  | case5 nleft nread reads hleft e rest hother h =>
      rw [sent_readAnswer nleft reads, h]
  | case6 nleft nread reads hleft e rest hother h retrycount ih =>
      rw [ih, sent_readAnswer nleft reads, h]

theorem size_readnLoop_le (nleft retrycount : ℕ) (nread : Bytes) (reads : List ReadOutcome) :
    Script.size (readnLoop nleft retrycount nread reads).2 ≤ Script.size reads := by
  fun_induction readnLoop nleft retrycount nread reads with
  | case1 => exact le_rfl
  | case2 nleft retrycount nread reads hleft rest h =>
      simpa [h] using size_readAnswer_le hleft reads
  | case3 nleft retrycount nread reads hleft b bs rest h ih =>
      exact ih.trans (by simpa [h] using size_readAnswer_le hleft reads)
  | case4 nleft retrycount nread reads hleft rest h =>
      simpa [h] using size_readAnswer_le hleft reads
  | case5 nleft nread reads hleft e rest hother h =>
      simpa [h] using size_readAnswer_le hleft reads
  | case6 nleft nread reads hleft e rest hother h retrycount ih =>
      exact ih.trans (by simpa [h] using size_readAnswer_le hleft reads)

theorem size_readn_lt {length : ℕ} (hlength : length ≠ 0) {reads : List ReadOutcome}
    (hreads : reads ≠ []) : Script.size (readn length reads).2 < Script.size reads := by
  have hlt := size_readAnswer_lt hlength hreads
  rw [readn, readnLoop, dif_neg hlength]
  split
  case h_1 h => simpa [h] using hlt
  case h_2 h => exact lt_of_le_of_lt (size_readnLoop_le _ _ _ _) (by simpa [h] using hlt)
  case h_3 h => simpa [h] using hlt
  case h_4 _ h => exact lt_of_le_of_lt (size_readnLoop_le _ _ _ _) (by simpa [h] using hlt)

theorem sent_readn (length : ℕ) (reads : List ReadOutcome) :
    (readn length reads).1 ++ sent (readn length reads).2 = sent reads :=
  sent_readnLoop length 10 [] reads

inductive StoiError
  | invalidArgument
  | outOfRange
  deriving DecidableEq

def isSpace (c : UInt8) : Bool := c == space || (9 ≤ c && c ≤ 13)

def isDigit (c : UInt8) : Bool := 48 ≤ c && c ≤ 57

/-- The sign of a numeral, and the rest of it. -/
def takeSign : Bytes → Bool × Bytes
  | [] => (false, [])
  | c :: rest =>
      if c = 45 then (true, rest) else if c = 43 then (false, rest) else (false, c :: rest)

/-- `std::stoi`, which throws without a digit and outside the range of `int`. -/
def stoi (s : Bytes) : Except StoiError ℤ :=
  let signed := takeSign (s.dropWhile isSpace)
  let digits := signed.2.takeWhile isDigit
  if digits = [] then .error .invalidArgument
  else
    let magnitude : ℤ := digits.foldl (fun n d => 10 * n + (d.toNat - 48)) 0
    let value := if signed.1 then -magnitude else magnitude
    if -2 ^ 31 ≤ value ∧ value < 2 ^ 31 then .ok value else .error .outOfRange

def contentLengthKey : Bytes :=
  ascii ['C', 'o', 'n', 't', 'e', 'n', 't', '-', 'l', 'e', 'n', 'g', 't', 'h']

/-- How the loop is left: through a break, by an exception of `stoi`, or in
undefined behaviour of a parser. -/
inductive Exit
  | stopped (isError : Bool)
  | thrown (e : StoiError)
  | outOfRange
  deriving DecidableEq

namespace RequestData

/-- The block of `STATE_PARSE_URI`; an error leaves the loop. -/
def uriStage (r : RequestData) : Except (Exit × RequestData) RequestData :=
  if r.state = .STATE_PARSE_URI then
    match r.parseURI with
    | none => .error (.outOfRange, r)
    | some (.again, r) => .error (.stopped false, r)
    | some (.error, r) => .error (.stopped true, r)
    | some (.success, r) => .ok r
  else .ok r

/-- The block of `STATE_PARSE_HEADERS`. -/
def headersStage (r : RequestData) : Except (Exit × RequestData) RequestData :=
  if r.state = .STATE_PARSE_HEADERS then
    match r.parseHeaders with
    | none => .error (.outOfRange, r)
    | some (.again, r) => .error (.stopped false, r)
    | some (.error, r) => .error (.stopped true, r)
    | some (.success, r) =>
        .ok { r with
          state :=
            if r.method = some .METHOD_POST then .STATE_RECV_BODY else .STATE_ANALYSIS }
  else .ok r

/-- The block of `STATE_RECV_BODY`, and whether it continues the loop. The length
is compared as a `size_t`. -/
def bodyStage (r : RequestData) : Except (Exit × RequestData) (Bool × RequestData) :=
  if r.state = .STATE_RECV_BODY then
    match r.headers contentLengthKey with
    | none => .error (.stopped true, r)
    | some value =>
        match stoi value with
        | .error e => .error (.thrown e, r)
        | .ok contentLength =>
            if (r.content.length : ℤ) < contentLength % 2 ^ 64 then .ok (true, r)
            else .ok (false, { r with state := .STATE_ANALYSIS })
  else .ok (false, r)

variable (analysisRequest : RequestData → ℤ × RequestData)

/-- The block of `STATE_ANALYSIS`. -/
def analysisStage (r : RequestData) : Except (Exit × RequestData) RequestData :=
  if r.state = .STATE_ANALYSIS then
    let (flag, r) := analysisRequest r
    if flag < 0 then .error (.stopped true, r)
    else if flag = 0 then .error (.stopped false, { r with state := .STATE_FINISH })
    else .error (.stopped true, r)
  else .ok r

/-- One round of the loop, with the bytes that `readn` has stored. -/
def handleRound (r : RequestData) (reads : Bytes) :
    Except (Exit × RequestData) RequestData := do
  let r ← uriStage { r with content := r.content ++ reads }
  let r ← headersStage r
  let (continues, r) ← bodyStage r
  if continues then return r
  analysisStage analysisRequest r

/-- `handleRequest`, for at most so many rounds. -/
def handleRequest : ℕ → RequestData → List ReadOutcome → Option (Exit × RequestData)
  | 0, _, _ => none
  | rounds + 1, r, reads =>
      match handleRound analysisRequest r (readn MAX_BUFF reads).1 with
      | .error left => some left
      | .ok r => handleRequest rounds r (readn MAX_BUFF reads).2

def terminates (r : RequestData) (reads : List ReadOutcome) : Prop :=
  ∃ rounds, (handleRequest analysisRequest rounds r reads).isSome = true

/-- What is left of earlier bytes and the new ones are a `POST` request with complete
headers, which announce a length, and the beginning of its body. -/
def Announces (r : RequestData) (bytes : Bytes) (contentLength : ℤ) (body : Bytes) : Prop :=
  ∃ t u value, parseURI { r with content := r.content ++ bytes } = some (.success, t) ∧
    t.method = some .METHOD_POST ∧ t.parseHeaders = some (.success, u) ∧
    u.headers contentLengthKey = some value ∧ stoi value = .ok contentLength ∧
    u.content = body

/-- With what the first `readn` returns more bytes are announced than the client
sends. -/
def Starved (r : RequestData) (reads : List ReadOutcome) : Prop :=
  ∃ contentLength body, Announces r (readn MAX_BUFF reads).1 contentLength body ∧
    ((body ++ sent (readn MAX_BUFF reads).2).length : ℤ) < contentLength % 2 ^ 64

/-- The request waits for a body of the given length. -/
structure Waiting (r : RequestData) (contentLength : ℤ) : Prop where
  state : r.state = .STATE_RECV_BODY
  length : ∃ value, r.headers contentLengthKey = some value ∧ stoi value = .ok contentLength

theorem parseRequestLine_success {r t : RequestData} {line : Bytes}
    (h : r.parseRequestLine line = (.success, t)) : t.state = .STATE_PARSE_HEADERS := by
  cases hmethod : findMethod line with
  | none => simp [parseRequestLine, hmethod] at h
  | some method =>
      cases hslash : find line (ascii ['/']) method.2 with
      | none => simp [parseRequestLine, hmethod, hslash] at h
      | some slash =>
          cases hblank : find line [space] slash with
          | none => simp [parseRequestLine, hmethod, hslash, hblank] at h
          | some last =>
              cases hversion : findVersion line last with
              | none => simp [parseRequestLine, hmethod, hslash, hblank, hversion] at h
              | some version =>
                  simp only [parseRequestLine, hmethod, hslash, hblank, hversion] at h
                  obtain ⟨-, rfl⟩ := Prod.mk.inj h
                  rfl

theorem parseURI_success {r t : RequestData} (h : r.parseURI = some (.success, t)) :
    t.state = .STATE_PARSE_HEADERS := by
  unfold parseURI at h
  simp only at h
  split at h
  · cases (Prod.mk.inj (Option.some.inj h)).1
  · split at h
    · cases h
    · exact parseRequestLine_success (Option.some.inj h)

theorem parseHeaders_frame {r t : RequestData} {result : ParseResult}
    (h : r.parseHeaders = some (result, t)) : t.method = r.method ∧ t.state = r.state := by
  unfold parseHeaders at h
  split at h
  · cases h
  · obtain ⟨-, rfl⟩ := Prod.mk.inj (Option.some.inj h)
    exact ⟨rfl, rfl⟩
  · simp only at h
    split at h
    · obtain ⟨-, rfl⟩ := Prod.mk.inj (Option.some.inj h)
      exact ⟨rfl, rfl⟩
    · obtain ⟨-, rfl⟩ := Prod.mk.inj (Option.some.inj h)
      exact ⟨rfl, rfl⟩

theorem uriStage_eq_ok_iff {r t : RequestData} (h : r.state = .STATE_PARSE_URI) :
    r.uriStage = .ok t ↔ r.parseURI = some (.success, t) := by
  unfold uriStage
  rw [if_pos h]
  split <;> simp_all

theorem headersStage_eq_ok_iff {r t : RequestData} (h : r.state = .STATE_PARSE_HEADERS) :
    r.headersStage = .ok t ↔ ∃ u, r.parseHeaders = some (.success, u) ∧
      { u with
        state := if u.method = some .METHOD_POST then .STATE_RECV_BODY
          else .STATE_ANALYSIS } = t := by
  unfold headersStage
  rw [if_pos h]
  split <;> simp_all

/-- The blocks of a round after its two parsers. -/
def answer (r : RequestData) : Except (Exit × RequestData) RequestData :=
  r.bodyStage.bind fun out =>
    if out.1 then .ok out.2 else analysisStage analysisRequest out.2

theorem handleRound_eq (r : RequestData) (bytes : Bytes) :
    handleRound analysisRequest r bytes =
      (uriStage { r with content := r.content ++ bytes }).bind fun r =>
        r.headersStage.bind (answer analysisRequest) := rfl

/-- A round in the body has nothing to parse. -/
theorem handleRound_body {r : RequestData} (h : r.state = .STATE_RECV_BODY) (bytes : Bytes) :
    handleRound analysisRequest r bytes =
      answer analysisRequest { r with content := r.content ++ bytes } := by
  rw [handleRound_eq]
  simp [uriStage, headersStage, h, Except.bind]

/-- Every result of `analysisRequest` ends the loop. -/
theorem analysisStage_leaves {r : RequestData} (h : r.state = .STATE_ANALYSIS) :
    ∃ left, analysisStage analysisRequest r = .error left := by
  simp only [analysisStage, h, if_true]
  split
  · exact ⟨_, rfl⟩
  · split
    · exact ⟨_, rfl⟩
    · exact ⟨_, rfl⟩

/-- The loop goes on as long as the body is short. -/
theorem answer_short {r : RequestData} {contentLength : ℤ} (h : r.Waiting contentLength)
    (hshort : (r.content.length : ℤ) < contentLength % 2 ^ 64) :
    r.answer analysisRequest = .ok r := by
  obtain ⟨value, hvalue, hstoi⟩ := h.length
  simp only [answer, bodyStage, h.state, hvalue, hstoi, hshort, if_true, Except.bind]

theorem answer_long {r : RequestData} {contentLength : ℤ} (h : r.Waiting contentLength)
    (hlong : ¬ (r.content.length : ℤ) < contentLength % 2 ^ 64) :
    ∃ left, r.answer analysisRequest = .error left := by
  obtain ⟨value, hvalue, hstoi⟩ := h.length
  obtain ⟨left, hleft⟩ := analysisStage_leaves analysisRequest
    (r := { r with state := .STATE_ANALYSIS }) rfl
  refine ⟨left, ?_⟩
  simp only [answer, bodyStage, h.state, hvalue, hstoi, hlong, if_true, if_false, Except.bind]
  exact hleft

/-- Only a request that waits for its body keeps the loop going. -/
theorem waiting_of_answer {r t : RequestData} (hr : r.state = .STATE_RECV_BODY ∨
    r.state = .STATE_ANALYSIS) (h : r.answer analysisRequest = .ok t) :
    ∃ contentLength, r.Waiting contentLength := by
  obtain hr | hr := hr
  · cases hvalue : r.headers contentLengthKey with
    | none => simp [answer, bodyStage, hr, hvalue, Except.bind] at h
    | some value =>
        cases hstoi : stoi value with
        | error e => simp [answer, bodyStage, hr, hvalue, hstoi, Except.bind] at h
        | ok contentLength => exact ⟨contentLength, hr, value, hvalue, hstoi⟩
  · obtain ⟨left, hleft⟩ := analysisStage_leaves analysisRequest hr
    simp [answer, bodyStage, hr, Except.bind, hleft] at h

section

variable {r : RequestData}

/-- The first round of a request that announces a body. -/
theorem handleRound_announces (hr : r.state = .STATE_PARSE_URI) {bytes : Bytes}
    {contentLength : ℤ} {body : Bytes} (h : r.Announces bytes contentLength body) :
    ∃ t : RequestData, t.Waiting contentLength ∧ t.content = body ∧
      handleRound analysisRequest r bytes = t.answer analysisRequest := by
  obtain ⟨t, u, value, huri, hmethod, hheaders, hvalue, hstoi, hbody⟩ := h
  have hpost : u.method = some .METHOD_POST := (parseHeaders_frame hheaders).1.trans hmethod
  refine ⟨{ u with state := .STATE_RECV_BODY }, ⟨rfl, value, hvalue, hstoi⟩, hbody, ?_⟩
  have hparsed : uriStage { r with content := r.content ++ bytes } = .ok t :=
    (uriStage_eq_ok_iff (r := { r with content := r.content ++ bytes }) hr).2 huri
  have hread : t.headersStage = .ok { u with state := .STATE_RECV_BODY } :=
    (headersStage_eq_ok_iff (parseURI_success huri)).2 ⟨u, hheaders, by rw [if_pos hpost]⟩
  rw [handleRound_eq, hparsed]
  change t.headersStage.bind _ = _
  rw [hread]
  rfl

/-- A first round that keeps the loop going announces a body. -/
theorem announces_of_handleRound (hr : r.state = .STATE_PARSE_URI) {bytes : Bytes}
    {t : RequestData} (h : handleRound analysisRequest r bytes = .ok t) :
    ∃ contentLength body, r.Announces bytes contentLength body := by
  rw [handleRound_eq] at h
  cases hparsed : uriStage { r with content := r.content ++ bytes } with
  | error left => simp [hparsed, Except.bind] at h
  | ok u =>
      have huri := (uriStage_eq_ok_iff (r := { r with content := r.content ++ bytes }) hr).1 hparsed
      have hstate := parseURI_success huri
      rw [hparsed] at h
      change u.headersStage.bind _ = _ at h
      cases hread : u.headersStage with
      | error left => simp [hread, Except.bind] at h
      | ok v =>
          obtain ⟨w, hheaders, rfl⟩ := (headersStage_eq_ok_iff hstate).1 hread
          rw [hread] at h
          by_cases hpost : w.method = some .METHOD_POST
          · obtain ⟨contentLength, -, value, hvalue, hstoi⟩ :=
              waiting_of_answer analysisRequest (.inl (if_pos hpost)) h
            have hmethod := (parseHeaders_frame hheaders).1
            exact ⟨contentLength, w.content, u, w, value, huri, hmethod ▸ hpost, hheaders, hvalue,
              hstoi, rfl⟩
          · obtain ⟨contentLength, hwaiting, -⟩ :=
              waiting_of_answer analysisRequest (.inr (if_neg hpost)) h
            simp [hpost] at hwaiting

end

/-- A request that waits for more bytes than are to come stays in the loop. -/
theorem handleRequest_starved {r : RequestData} {contentLength : ℤ}
    (h : r.Waiting contentLength) {reads : List ReadOutcome}
    (hshort : ((r.content ++ sent reads).length : ℤ) < contentLength % 2 ^ 64) (rounds : ℕ) :
    handleRequest analysisRequest rounds r reads = none := by
  induction rounds generalizing r reads with
  | zero => rfl
  | succ rounds ih =>
      have hsent := sent_readn MAX_BUFF reads
      rw [← hsent] at hshort
      have hwaiting : Waiting { r with content := r.content ++ (readn MAX_BUFF reads).1 }
          contentLength := ⟨h.state, h.length⟩
      have hround : handleRound analysisRequest r (readn MAX_BUFF reads).1 =
          .ok { r with content := r.content ++ (readn MAX_BUFF reads).1 } := by
        rw [handleRound_body analysisRequest h.state]
        refine answer_short analysisRequest hwaiting ?_
        simp only [List.length_append, Nat.cast_add] at hshort ⊢
        omega
      simp only [handleRequest, hround]
      exact ih hwaiting (by rwa [List.append_assoc])

/-- A request whose body is to come leaves the loop. The outcomes that are left
decrease in every round that reads. -/
theorem terminates_of_enough {r : RequestData} {contentLength : ℤ}
    (h : r.Waiting contentLength) (reads : List ReadOutcome)
    (henough : contentLength % 2 ^ 64 ≤ ((r.content ++ sent reads).length : ℤ)) :
    r.terminates analysisRequest reads := by
  induction hsize : Script.size reads using Nat.strong_induction_on generalizing r reads with
  | _ size ih =>
      have hsent := sent_readn MAX_BUFF reads
      have hbody := handleRound_body analysisRequest h.state (readn MAX_BUFF reads).1
      have hwaiting : Waiting { r with content := r.content ++ (readn MAX_BUFF reads).1 }
          contentLength := ⟨h.state, h.length⟩
      by_cases hshort : ((r.content ++ (readn MAX_BUFF reads).1).length : ℤ) <
          contentLength % 2 ^ 64
      · have hround := hbody.trans (answer_short analysisRequest hwaiting hshort)
        have hreads : reads ≠ [] := by
          rintro rfl
          have hnil : (readn MAX_BUFF []).1 = [] := (List.append_eq_nil_iff.1 hsent).1
          rw [hnil] at hshort
          simp only [sent] at henough
          omega
        have hlt := size_readn_lt (show MAX_BUFF ≠ 0 by decide) hreads
        obtain ⟨rounds, hrounds⟩ := ih _ (hsize ▸ hlt) hwaiting (readn MAX_BUFF reads).2 (by
          rwa [List.append_assoc, hsent]) rfl
        refine ⟨rounds + 1, ?_⟩
        simp only [handleRequest, hround]
        exact hrounds
      · obtain ⟨left, hleft⟩ := answer_long analysisRequest hwaiting hshort
        refine ⟨1, ?_⟩
        simp only [handleRequest, hbody.trans hleft]
        rfl

theorem not_terminates_of_starved {r : RequestData} (hr : r.state = .STATE_PARSE_URI)
    {reads : List ReadOutcome} (h : Starved r reads) : ¬ r.terminates analysisRequest reads := by
  rintro ⟨rounds, hrounds⟩
  obtain ⟨contentLength, body, hannounces, hshort⟩ := h
  obtain ⟨t, hwaiting, rfl, hfirst⟩ := handleRound_announces analysisRequest hr hannounces
  have hround : handleRound analysisRequest r (readn MAX_BUFF reads).1 = .ok t := by
    refine hfirst.trans (answer_short analysisRequest hwaiting ?_)
    rw [List.length_append, Nat.cast_add] at hshort
    omega
  cases rounds with
  | zero => simp [handleRequest] at hrounds
  | succ rounds =>
      simp [handleRequest, hround,
        handleRequest_starved analysisRequest hwaiting hshort] at hrounds

/-- For every request that is to be read, whatever is left in `content`, and for all
bytes that a client sends, however they arrive, the loop of `handleRequest` ends exactly
when the first `readn` does not complete a `POST` request with complete headers whose
`Content-length`, as a `size_t`, is more than the bytes of the body that the client
sends. -/
theorem terminates_iff {r : RequestData} (hr : r.state = .STATE_PARSE_URI)
    (reads : List ReadOutcome) : r.terminates analysisRequest reads ↔ ¬ Starved r reads := by
  constructor
  · exact fun hterminates hstarved =>
      not_terminates_of_starved analysisRequest hr hstarved hterminates
  · intro hstarved
    cases hround : handleRound analysisRequest r (readn MAX_BUFF reads).1 with
    | error left => exact ⟨1, by simp [handleRequest, hround]⟩
    | ok t =>
        obtain ⟨contentLength, body, hannounces⟩ :=
          announces_of_handleRound analysisRequest hr hround
        obtain ⟨u, hwaiting, rfl, hfirst⟩ := handleRound_announces analysisRequest hr hannounces
        have hrest : t.terminates analysisRequest (readn MAX_BUFF reads).2 := by
          have henough : contentLength % 2 ^ 64 ≤
              ((u.content ++ sent (readn MAX_BUFF reads).2).length : ℤ) := by
            by_contra hshort
            exact hstarved ⟨contentLength, u.content, hannounces, not_le.1 hshort⟩
          by_cases hshort : (u.content.length : ℤ) < contentLength % 2 ^ 64
          · rw [hround, answer_short analysisRequest hwaiting hshort] at hfirst
            obtain rfl := Except.ok.inj hfirst
            exact terminates_of_enough analysisRequest hwaiting _ henough
          · obtain ⟨left, hleft⟩ := answer_long analysisRequest hwaiting hshort
            simp [hround, hleft] at hfirst
        obtain ⟨rounds, hrounds⟩ := hrest
        exact ⟨rounds + 1, by simpa [handleRequest, hround] using hrounds⟩

/-- The bytes of a `POST` request that announces two bytes and has one. -/
def shortPost : Bytes :=
  ascii ['P', 'O', 'S', 'T', ' ', '/', ' ', 'H', 'T', 'T', 'P', '/', '1', '.', '1'] ++
    [CR, LF] ++ contentLengthKey ++ ascii [':', ' ', '2'] ++ [CR, LF, CR, LF] ++ ascii ['x']

/-- A few bytes and then the end of the stream. -/
theorem readn_chunk_eof (b : UInt8) (bs : Bytes) (h : bs.length + 1 < MAX_BUFF) :
    readn MAX_BUFF [.chunk b bs, .eof] = (b :: bs, []) := by
  have htake : (b :: bs).take MAX_BUFF = b :: bs := List.take_of_length_le h.le
  have hdrop : (b :: bs).drop MAX_BUFF = [] := List.drop_eq_nil_of_le h.le
  have hfirst : Script.readAnswer MAX_BUFF [.chunk b bs, .eof] = (.bytes (b :: bs), [.eof]) := by
    simp only [Script.readAnswer, htake, hdrop]
  have hleft : ¬ MAX_BUFF - (b :: bs).length = 0 := by
    rw [List.length_cons]
    omega
  rw [readn, readnLoop, dif_neg (by decide), hfirst]
  simp only
  rw [readnLoop, dif_neg hleft]
  rfl

/-- A `POST` of which the last byte is still to come when its worker begins. -/
def leftPost : RequestData := { new with content := shortPost }

theorem terminates_leftPost : leftPost.terminates (fun r => (0, r)) [.chunk 121 [], .eof] := by
  refine (terminates_iff _ (r := leftPost) rfl _).2 ?_
  rintro ⟨contentLength, body, hannounces, hshort⟩
  rw [readn_chunk_eof 121 [] (by decide)] at hannounces hshort
  obtain ⟨t, u, value, huri, -, hheaders, hvalue, hstoi, rfl⟩ := hannounces
  obtain rfl := (Prod.mk.inj (Option.some.inj huri)).2
  obtain rfl := (Prod.mk.inj (Option.some.inj hheaders)).2
  obtain rfl := Option.some.inj hvalue
  obtain rfl := Except.ok.inj hstoi
  revert hshort
  decide

/-- A client that announces two bytes and sends one captures its worker. -/
theorem not_terminates_shortPost :
    ¬ ∀ analysisRequest reads, new.terminates analysisRequest reads := by
  intro h
  refine not_terminates_of_starved (fun r => (0, r)) rfl ?_ (h _ [.chunk 80 shortPost.tail, .eof])
  have hread := readn_chunk_eof 80 shortPost.tail (by decide)
  refine ⟨2, ascii ['x'], ?_, ?_⟩
  · rw [hread]
    exact ⟨_, _, _, rfl, rfl, rfl, rfl, rfl, rfl⟩
  · rw [hread]
    decide

end RequestData

end Http

end SoL
