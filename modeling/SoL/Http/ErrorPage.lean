import Mathlib.Data.List.TakeWhile
import SoL.Base.LogStream.Numeral
import SoL.Http.HandleRequest
import SoL.Http.HeaderBlock

/-!
# The error page

`handleError` prints a header block and a page into a buffer, one after the other, and
calls `writen` on each without a look at what it returns. `writen` gives up after ten
refusals, so that the header block may be cut and the page still be sent behind it.

A client can tell. What goes out is a complete response, for the parser of this program,
only if both calls have sent all they were given (`handleError_complete_iff`).
-/

namespace SoL

namespace Http

open Net Base Base.LogStream

def AGAIN_MAX_TIMES : ℕ := 10

/-- The loop of `writen`, at the bytes that are left: the result, and the descriptor. -/
def writenLoop (s : Script) (buf : Bytes) (written retrycount : ℕ) : ℤ × Script :=
  if _hbuf : buf = [] then (written, s)
  else
    match s.write buf with
    | (.accepted 0, t) => (written, t)
    | (.accepted (nw + 1), t) =>
        writenLoop t (buf.drop (nw + 1)) (written + (nw + 1)) retrycount
    | (.error .other, t) => (-1, t)
    | (.error _, t) =>
        match retrycount with
        | 0 => (-1, t)
        | retrycount + 1 => writenLoop t buf written retrycount
termination_by buf.length + retrycount
decreasing_by
  · have hpos : 0 < buf.length := List.length_pos_iff.2 _hbuf
    rw [List.length_drop]
    omega
  · omega

def writen (s : Script) (buf : Bytes) : ℤ × Script := writenLoop s buf 0 AGAIN_MAX_TIMES

/-- `sprintf` of `"%s"` into an array of `MAX_BUFF` bytes, as far as `strlen` sees it;
`none` when it writes behind the array. -/
def sprintf (str : Bytes) : Option Bytes :=
  let text := str.takeWhile (· ≠ 0)
  if text.length < MAX_BUFF then some text else none

/-- `body_buff`. -/
def errorBody (errNum : ℤ) (shortMsg : Bytes) : Bytes :=
  chars "<html><title>TKeed Error</title>" ++ chars "<body bgcolor=\"ffffff\">" ++
    (numeral errNum ++ space :: shortMsg) ++
    chars "<hr><em> Roland's Web Server</em>\n</body></html>"

/-- `header_buff`. -/
def errorHeader (errNum : ℤ) (shortMsg : Bytes) : Bytes :=
  chars "HTTP/1.1 " ++ numeral errNum ++ space :: shortMsg ++ chars "\r\n" ++
    chars "Content-type: text/html\r\n" ++ chars "Connection: close\r\n" ++
    (chars "Content-length: " ++ numeral (errorBody errNum shortMsg).length ++ chars "\r\n") ++
    chars "\r\n"

/-- `handleError`; `none` when the buffer overflows. -/
def handleError (s : Script) (errNum : ℤ) (shortMsg : Bytes) : Option Script := do
  let sendBuff ← sprintf (errorHeader errNum shortMsg)
  let (_, s) := writen s sendBuff
  let sendBuff ← sprintf (errorBody errNum shortMsg)
  let (_, s) := writen s sendBuff
  return s

/-- After a status line comes a header block, and its `Content-length` is the number of
bytes behind it. -/
def Complete (wire : Bytes) : Prop :=
  ∃ rest r value, wire.dropWhile (· ≠ CR) = CR :: rest ∧
    (RequestData.new.atHeaders rest).parseHeaders = some (.success, r) ∧
    r.headers contentLengthKey = some value ∧ stoi value = .ok r.content.length

/-- No NUL and no carriage return. -/
def Unbroken (bs : Bytes) : Prop := ∀ c ∈ bs, c ≠ 0 ∧ c ≠ CR

instance (bs : Bytes) : Decidable (Unbroken bs) :=
  inferInstanceAs (Decidable (∀ c ∈ bs, c ≠ 0 ∧ c ≠ CR))

theorem unbroken_append {a b : Bytes} : Unbroken (a ++ b) ↔ Unbroken a ∧ Unbroken b :=
  List.forall_mem_append

theorem unbroken_cons {c : UInt8} {bs : Bytes} :
    Unbroken (c :: bs) ↔ (c ≠ 0 ∧ c ≠ CR) ∧ Unbroken bs := List.forall_mem_cons

section Writen

variable {s : Script} {buf : Bytes}

/-- A `write` adds what it accepts. -/
theorem accepted_write {ptr : Bytes} {nw : ℕ} {t : Script} (h : s.write ptr = (.accepted nw, t)) :
    t.accepted = s.accepted ++ ptr.take nw := by
  cases hwrites : s.writes with
  | nil => simp [Script.write, hwrites] at h
  | cons o rest =>
      cases o with
      | interrupt | again | error => simp [Script.write, hwrites] at h
      | accept k =>
          obtain ⟨hnw, rfl⟩ := Prod.mk.inj (by simpa only [Script.write, hwrites] using h)
          rw [← WriteAnswer.accepted.inj hnw]

/-- A refused `write` adds nothing. -/
theorem accepted_of_error {ptr : Bytes} {e : Errno} {t : Script}
    (h : s.write ptr = (.error e, t)) : t.accepted = s.accepted := by
  cases hwrites : s.writes with
  | nil =>
      obtain ⟨-, rfl⟩ := Prod.mk.inj (by simpa only [Script.write, hwrites] using h)
      rfl
  | cons o rest =>
      cases o with
      | accept k => simp [Script.write, hwrites] at h
      | interrupt | again | error =>
          obtain ⟨-, rfl⟩ := Prod.mk.inj (by simpa only [Script.write, hwrites] using h)
          rfl

/-- The loop sends the first bytes of those that are left, and the result tells whether
it has sent them all. -/
theorem writenLoop_sends (s : Script) (buf : Bytes) (written retrycount : ℕ) :
    ∃ n ≤ buf.length,
      (writenLoop s buf written retrycount).2.accepted = s.accepted ++ buf.take n ∧
        ((writenLoop s buf written retrycount).1 = written + buf.length ↔ n = buf.length) := by
  fun_induction writenLoop s buf written retrycount with
  | case1 s written retrycount => exact ⟨0, le_rfl, by simp, by simp⟩
  | case2 s buf written retrycount hbuf t h =>
      have hpos : 0 < buf.length := List.length_pos_iff.2 hbuf
      refine ⟨0, hpos.le, accepted_write h, ?_⟩
      omega
  | case3 s buf written retrycount hbuf nw t h ih =>
      obtain ⟨n, hn, haccepted, hresult⟩ := ih
      have hpos : 0 < buf.length := List.length_pos_iff.2 hbuf
      have hle : nw + 1 ≤ buf.length := (Script.budget_lt_of_accepted hbuf h).1
      rw [List.length_drop] at hn hresult
      refine ⟨nw + 1 + n, by omega, ?_, ?_⟩
      · rw [haccepted, accepted_write h, List.append_assoc, List.take_add]
      · rw [← (show (written + (nw + 1) : ℕ) + ((buf.length - (nw + 1) : ℕ) : ℤ) =
          written + buf.length by omega), hresult]
        omega
  | case4 s buf written retrycount hbuf t h =>
      have hpos : 0 < buf.length := List.length_pos_iff.2 hbuf
      refine ⟨0, hpos.le, by simp [accepted_of_error h], ?_⟩
      omega
  | case5 s buf written hbuf e t hother h =>
      have hpos : 0 < buf.length := List.length_pos_iff.2 hbuf
      refine ⟨0, hpos.le, by simp [accepted_of_error h], ?_⟩
      omega
  | case6 s buf written hbuf e t hother h retrycount ih =>
      obtain ⟨n, hn, haccepted, hresult⟩ := ih
      exact ⟨n, hn, haccepted.trans (by rw [accepted_of_error h]), hresult⟩

theorem writen_sends (s : Script) (buf : Bytes) :
    ∃ n ≤ buf.length, (writen s buf).2.accepted = s.accepted ++ buf.take n ∧
      ((writen s buf).1 = buf.length ↔ n = buf.length) := by
  simpa [writen] using writenLoop_sends s buf 0 AGAIN_MAX_TIMES

end Writen

section Numeral

theorem numeral_ne_nil (n : ℕ) : numeral n ≠ [] := by
  rw [numeral_eq]
  simp

theorem isDigit_of_mem_lowDigits {n : ℕ} {c : UInt8} (hc : c ∈ lowDigits 10 decimalDigit n) :
    isDigit c = true := by
  have hdigit : ∀ d < 10, isDigit (decimalDigit d) = true := by decide
  unfold lowDigits at hc
  split at hc
  · rw [List.mem_singleton.1 hc]
    exact hdigit 0 (by decide)
  · obtain ⟨d, hd, rfl⟩ := List.mem_map.1 hc
    exact hdigit d (Nat.digits_lt_base (by decide) hd)

theorem isDigit_of_mem_numeral {n : ℕ} {c : UInt8} (hc : c ∈ numeral n) : isDigit c = true := by
  rw [numeral_natCast, List.mem_reverse] at hc
  exact isDigit_of_mem_lowDigits hc

theorem length_numeral_le {n k : ℕ} (hk : 1 ≤ k) (hn : n < 10 ^ k) : (numeral n).length ≤ k := by
  rw [numeral_natCast, List.length_reverse]
  exact length_lowDigits_le (by decide) hk hn

theorem unbroken_numeral (v : ℤ) : Unbroken (numeral v) := by
  intro c hc
  rcases List.mem_append.1 hc with hc | hc
  · split at hc
    · have hsign : chars "-" = [45] := by decide +kernel
      rw [hsign] at hc
      rw [List.mem_singleton.1 hc]
      decide
    · cases hc
  · have hdigit := isDigit_of_mem_lowDigits (List.mem_reverse.1 hc)
    refine ⟨?_, ?_⟩ <;> rintro rfl <;> simp [isDigit, CR] at hdigit

/-- The loop of `stoi` over the digits of a number. -/
theorem foldl_numeral (n : ℕ) :
    (numeral n).foldl (fun m d => 10 * m + ((d.toNat : ℤ) - 48)) 0 = n := by
  have hdigit : ∀ d < 10, ((decimalDigit d).toNat : ℤ) - 48 = d := by decide
  induction n using Nat.strong_induction_on with
  | _ n ih =>
      rw [numeral_eq, List.foldl_append, List.foldl_cons, List.foldl_nil,
        hdigit _ (Nat.mod_lt n (by decide))]
      split
      · rw [List.foldl_nil]
        omega
      · rw [ih (n / 10) (by omega)]
        omega

theorem stoi_numeral {n : ℕ} (hn : n < 2 ^ 31) : stoi (numeral n) = .ok n := by
  obtain ⟨c, rest, hcons⟩ := List.exists_cons_of_ne_nil (numeral_ne_nil n)
  have hc : isDigit c = true := isDigit_of_mem_numeral (hcons ▸ List.mem_cons_self)
  have hbounds : 48 ≤ c ∧ c ≤ 57 := by simpa [isDigit] using hc
  have hspace : (numeral n).dropWhile isSpace = numeral n := by
    rw [hcons, List.dropWhile_cons_of_neg]
    simp only [isSpace, space]
    grind
  have hsign : takeSign (numeral n) = (false, numeral n) := by
    rw [hcons, takeSign, if_neg (by grind), if_neg (by grind)]
  have hdigits : (numeral n).takeWhile isDigit = numeral n :=
    List.takeWhile_eq_self_iff.2 fun b hb => isDigit_of_mem_numeral hb
  have hrange : -2 ^ 31 ≤ (n : ℤ) ∧ (n : ℤ) < 2 ^ 31 := by omega
  simp only [stoi, hspace, hsign, hdigits, numeral_ne_nil, foldl_numeral, if_false,
    Bool.false_eq_true]
  exact if_pos hrange

end Numeral

namespace Scan

variable {str q : Bytes} {i : ℕ} {s t : Scan}

/-- Only a carriage return leads to the end of a block. -/
theorem Round.hState_ne {c : UInt8} (h : Round str i c s t) (hc : c ≠ CR)
    (hs : s.hState ≠ .h_end_LF) (hLF : s.hState = .h_end_CR → c ≠ LF) :
    t.hState ≠ .h_end_LF ∧ t.hState ≠ .h_end_CR := by
  cases h with
  | lead hstate | key hstate | value hstate => simp [hstate]
  | first | keyEnd | colon | valueStart | valueEnd | store | next => simp
  | endCR _ hCR => exact absurd hCR hc
  | endLF hstate h => exact absurd h (hLF hstate)
  | body hstate => exact absurd hstate hs

/-- Without a carriage return the loop does not come to the end of a block. -/
theorem scan_hState_ne (hq : ∀ c ∈ q, c ≠ CR) (hs : s.hState ≠ .h_end_LF)
    (hhead : s.hState = .h_end_CR → q.head? ≠ some LF) (h : scan str q i s = .going t) :
    t.hState ≠ .h_end_LF := by
  induction q generalizing i s with
  | nil =>
      obtain rfl := Scanned.going.inj h
      exact hs
  | cons c q ih =>
      cases hfin : s.notFinish with
      | false =>
          obtain rfl := Scanned.going.inj ((scan_finished hfin).symm.trans h)
          exact hs
      | true =>
          rw [scan_cons c hfin] at h
          cases hadvance : advance str i c s with
          | error u | outOfRange => simp [hadvance] at h
          | going u =>
              rw [hadvance] at h
              have hround := (round_of_advance hadvance).hState_ne (hq c List.mem_cons_self) hs
                fun hstate hLF => hhead hstate (by rw [hLF]; rfl)
              exact ih (fun b hb => hq b (List.mem_cons_of_mem c hb)) hround.1
                (fun hstate => absurd hstate hround.2) h

end Scan

namespace RequestData

variable {fields : List Field} {p q b : Bytes} {r r' : RequestData}

/-- A header block that is cut, with other bytes behind it, does not pass for one. -/
theorem not_success_of_cut (hfields : fields ≠ [])
    (hshort : ∀ e ∈ entries fields, e.2 ≠ [] ∧ e.2.length ≤ 256)
    (hcut : printHeaders fields [] = p ++ q) (hq : q ≠ []) (hb : ∀ c ∈ b, c ≠ CR)
    (hhead : b.head? ≠ some LF) :
    (r.atHeaders (p ++ b)).parseHeaders ≠ some (.success, r') := by
  intro hsuccess
  obtain ⟨u, hloop, hustate, -⟩ := exists_loop_of_success hsuccess
  obtain ⟨t, ht, htstate, htfin, -⟩ := scan_block [] hfields hshort
  have hrange := Scan.scan_ne_outOfRange p (lastValues [])
  have hwhole := Scan.scan_of_loop hloop
  rw [hcut, Scan.scan_append_extend hrange] at ht
  rw [Scan.scan_append_extend hrange] at hwhole
  cases hscan : Scan.scan p p 0 (Scan.enter .h_start (lastValues [])) with
  | outOfRange => exact absurd hscan hrange
  | error s => simp [hscan] at hwhole
  | going s =>
      simp only [hscan, Nat.zero_add] at ht hwhole
      -- At the end of a block the rest of it would have ended the loop.
      have hsstate : s.hState ≠ .h_end_LF := by
        intro hstate
        obtain ⟨c, rest, rfl⟩ := List.exists_cons_of_ne_nil hq
        cases hsfin : s.notFinish with
        | false =>
            obtain rfl := Scanned.going.inj ((Scan.scan_finished hsfin).symm.trans ht)
            exact absurd (hsfin.symm.trans htfin) (by simp)
        | true =>
            rw [Scan.scan_cons c hsfin] at ht
            simp only [Scan.advance, hstate] at ht
            obtain rfl := Scanned.going.inj ((Scan.scan_finished rfl).symm.trans ht)
            exact absurd htfin (by simp)
      exact Scan.scan_hState_ne hb hsstate (fun _ => hhead) hwhole hustate

end RequestData

/-- `Content-type: text/html`. -/
def htmlType : Field where
  key := chars "Content-type"
  value := chars "text/html"
  key_ne_nil := by decide +kernel
  keyBytes := by unfold Http.keyBytes; decide +kernel
  not_lineEnd := by decide +kernel
  length_le := by decide +kernel

def connectionClose : Field where
  key := chars "Connection"
  value := chars "close"
  key_ne_nil := by decide +kernel
  keyBytes := by unfold Http.keyBytes; decide +kernel
  not_lineEnd := by decide +kernel
  length_le := by decide +kernel

theorem not_lineEnd_of_mem_numeral {n : ℕ} : ∀ c ∈ numeral n, ¬ lineEnd c := by
  intro c hc hend
  have hdigit := isDigit_of_mem_numeral hc
  rcases hend with rfl | rfl <;> simp [isDigit, LF, CR] at hdigit

/-- A length that fits into the buffer has four digits at most. -/
theorem length_numeral_le_four {n : ℕ} (hn : n < MAX_BUFF) : (numeral n).length ≤ 4 := by
  have hlt : n < 10 ^ 4 := hn.trans (by decide)
  exact length_numeral_le (by decide) hlt

theorem keyBytes_contentLengthKey : keyBytes contentLengthKey := by
  unfold keyBytes
  decide +kernel

def contentLength (n : ℕ) (hn : n < MAX_BUFF) : Field where
  key := contentLengthKey
  value := numeral n
  key_ne_nil := List.cons_ne_nil _ _
  keyBytes := keyBytes_contentLengthKey
  not_lineEnd := not_lineEnd_of_mem_numeral
  length_le := (length_numeral_le_four hn).trans (Nat.le_of_ble_eq_true rfl)

section Page

variable {errNum : ℤ} {shortMsg : Bytes}

def statusLine (errNum : ℤ) (shortMsg : Bytes) : Bytes :=
  chars "HTTP/1.1 " ++ numeral errNum ++ space :: shortMsg

/-- The fields of a page of `n` bytes. -/
def pageFields (n : ℕ) (hn : n < MAX_BUFF) : List Field :=
  [htmlType, connectionClose, contentLength n hn]

theorem separate_pageFields (n : ℕ) (hn : n < MAX_BUFF) : Separate (pageFields n hn) := by
  refine separate_of_ne_nil fun f hf => ?_
  simp only [pageFields, List.mem_cons, List.not_mem_nil, or_false] at hf
  rcases hf with rfl | rfl | rfl
  · decide
  · decide
  · exact numeral_ne_nil n

theorem lastValues_pageFields (n : ℕ) (hn : n < MAX_BUFF) :
    lastValues ((pageFields n hn).map Field.entry) contentLengthKey = some (numeral n) := by
  simp [pageFields, lastValues, Field.entry, contentLength]

theorem errorHeader_eq (hfits : (errorBody errNum shortMsg).length < MAX_BUFF) :
    errorHeader errNum shortMsg =
      statusLine errNum shortMsg ++ CR :: printHeaders (pageFields _ hfits) [] := by
  have hend : chars "\r\n" = [CR, LF] := by decide +kernel
  have htype : chars "Content-type: text/html\r\n" = lineBytes htmlType.entry := by decide +kernel
  have hconnection : chars "Connection: close\r\n" = lineBytes connectionClose.entry := by
    decide +kernel
  have hlength : chars "Content-length: " = contentLengthKey ++ [colon, space] := by decide +kernel
  rw [errorHeader, hend, htype, hconnection, hlength]
  simp [statusLine, printHeaders, pageFields, lineBytes, Field.entry, contentLength]

theorem unbroken_statusLine (errNum : ℤ) (hmsg : Unbroken shortMsg) :
    Unbroken (statusLine errNum shortMsg) := by
  have hversion : Unbroken (chars "HTTP/1.1 ") := by decide +kernel
  rw [statusLine, unbroken_append, unbroken_append, unbroken_cons]
  exact ⟨⟨hversion, unbroken_numeral errNum⟩, by decide, hmsg⟩

theorem unbroken_errorBody (hmsg : Unbroken shortMsg) :
    Unbroken (errorBody errNum shortMsg) := by
  have htitle : Unbroken (chars "<html><title>TKeed Error</title>") := by decide +kernel
  have hbody : Unbroken (chars "<body bgcolor=\"ffffff\">") := by decide +kernel
  have hend : Unbroken (chars "<hr><em> Roland's Web Server</em>\n</body></html>") := by
    decide +kernel
  simp only [errorBody, unbroken_append, unbroken_cons]
  exact ⟨⟨⟨htitle, hbody⟩, unbroken_numeral errNum, by decide, hmsg⟩, hend⟩

theorem ne_zero_of_mem_errorHeader (errNum : ℤ) (hmsg : Unbroken shortMsg) :
    ∀ c ∈ errorHeader errNum shortMsg, c ≠ 0 := by
  have hversion : ∀ c ∈ chars "HTTP/1.1 ", c ≠ 0 := by decide +kernel
  have htype : ∀ c ∈ chars "Content-type: text/html\r\n", c ≠ 0 := by decide +kernel
  have hconnection : ∀ c ∈ chars "Connection: close\r\n", c ≠ 0 := by decide +kernel
  have hlength : ∀ c ∈ chars "Content-length: ", c ≠ 0 := by decide +kernel
  have hend : ∀ c ∈ chars "\r\n", c ≠ 0 := by decide +kernel
  have hnumeral : ∀ v, ∀ c ∈ numeral v, c ≠ 0 := fun v c hc => (unbroken_numeral v c hc).1
  have hline : ∀ c ∈ space :: shortMsg, c ≠ 0 :=
    List.forall_mem_cons.2 ⟨by decide, fun c hc => (hmsg c hc).1⟩
  simp only [errorHeader, List.forall_mem_append]
  exact ⟨⟨⟨⟨⟨⟨⟨hversion, hnumeral errNum⟩, hline⟩, hend⟩, htype⟩, hconnection⟩,
    ⟨hlength, hnumeral _⟩, hend⟩, hend⟩

theorem head?_errorBody (errNum : ℤ) (shortMsg : Bytes) :
    (errorBody errNum shortMsg).head? = some 60 := by
  have hfirst : chars "<html><title>TKeed Error</title>" =
      60 :: chars "html><title>TKeed Error</title>" := by decide +kernel
  rw [errorBody, hfirst]
  rfl

theorem length_errorBody (errNum : ℤ) (shortMsg : Bytes) :
    (errorBody errNum shortMsg).length = (numeral errNum).length + shortMsg.length + 104 := by
  have htitle : (chars "<html><title>TKeed Error</title>").length = 32 := by decide +kernel
  have hbody : (chars "<body bgcolor=\"ffffff\">").length = 23 := by decide +kernel
  have hend : (chars "<hr><em> Roland's Web Server</em>\n</body></html>").length = 48 := by
    decide +kernel
  simp only [errorBody, List.length_append, List.length_cons, htitle, hbody, hend]
  omega

theorem length_errorHeader (errNum : ℤ) (shortMsg : Bytes) :
    (errorHeader errNum shortMsg).length = (numeral errNum).length + shortMsg.length +
      (numeral (errorBody errNum shortMsg).length).length + 76 := by
  have hversion : (chars "HTTP/1.1 ").length = 9 := by decide +kernel
  have htype : (chars "Content-type: text/html\r\n").length = 25 := by decide +kernel
  have hconnection : (chars "Connection: close\r\n").length = 19 := by decide +kernel
  have hlength : (chars "Content-length: ").length = 16 := by decide +kernel
  have hend : (chars "\r\n").length = 2 := by decide +kernel
  simp only [errorHeader, List.length_append, List.length_cons, hversion, htype, hconnection,
    hlength, hend]
  omega

/-- The buffer that holds the page holds the header block. -/
theorem length_errorHeader_lt (hfits : (errorBody errNum shortMsg).length < MAX_BUFF) :
    (errorHeader errNum shortMsg).length < MAX_BUFF := by
  have hdigits := length_numeral_le_four hfits
  rw [length_errorHeader]
  have hbody := length_errorBody errNum shortMsg
  omega

theorem sprintf_eq {str : Bytes} (hstr : ∀ c ∈ str, c ≠ 0) (hfits : str.length < MAX_BUFF) :
    sprintf str = some str := by
  have htext : str.takeWhile (· ≠ 0) = str :=
    List.takeWhile_eq_self_iff.2 fun c hc => by simpa using hstr c hc
  simp only [sprintf, htext, if_pos hfits]

/-- Both buffers are sent, whatever becomes of the first. -/
theorem handleError_eq (s : Script) (hmsg : Unbroken shortMsg)
    (hfits : (errorBody errNum shortMsg).length < MAX_BUFF) :
    handleError s errNum shortMsg =
      some (writen (writen s (errorHeader errNum shortMsg)).2 (errorBody errNum shortMsg)).2 := by
  have hheader := sprintf_eq (ne_zero_of_mem_errorHeader errNum hmsg) (length_errorHeader_lt hfits)
  have hbody := sprintf_eq (fun c hc => (unbroken_errorBody hmsg c hc).1) hfits
  rw [handleError, hheader, Option.bind_eq_bind, Option.bind_some, hbody]
  rfl

/-- A status line is in front of the block. -/
theorem complete_append_iff {line rest : Bytes} (hline : Unbroken line) :
    Complete (line ++ CR :: rest) ↔
      ∃ r value, (RequestData.new.atHeaders rest).parseHeaders = some (.success, r) ∧
        r.headers contentLengthKey = some value ∧ stoi value = .ok r.content.length := by
  have hdrop : (line ++ CR :: rest).dropWhile (· ≠ CR) = CR :: rest := by
    rw [List.dropWhile_append_of_pos fun c hc => by simpa using (hline c hc).2,
      List.dropWhile_cons_of_neg (by simp)]
  constructor
  · rintro ⟨rest', r, value, hwire, h⟩
    obtain rfl : rest = rest' := (List.cons.inj (hdrop.symm.trans hwire)).2
    exact ⟨r, value, h⟩
  · rintro ⟨r, value, h⟩
    exact ⟨rest, r, value, hdrop, h⟩

theorem not_complete_of_unbroken {wire : Bytes} (hwire : Unbroken wire) : ¬ Complete wire := by
  rintro ⟨rest, r, value, hdrop, -⟩
  have hnil : wire.dropWhile (· ≠ CR) = [] :=
    List.dropWhile_eq_nil_iff.2 fun c hc => by simpa using (hwire c hc).2
  rw [hnil] at hdrop
  cases hdrop

/-- Behind the whole block the client gets the page as far as it was sent. -/
theorem complete_page_iff {n : ℕ} (hn : n < MAX_BUFF) (b : Bytes) (hshort : 3 < n)
    (hlen : (printHeaders (pageFields n hn) []).length + 1 < 2 ^ 31) :
    (∃ r value, (RequestData.new.atHeaders (printHeaders (pageFields n hn) b)).parseHeaders =
        some (.success, r) ∧ r.headers contentLengthKey = some value ∧
        stoi value = .ok r.content.length) ↔ b.length = n := by
  have hseparate := separate_pageFields n hn
  have hstoi : stoi (numeral n) = .ok n := stoi_numeral (by unfold MAX_BUFF at hn; omega)
  have hfields : pageFields n hn ≠ [] := by simp [pageFields]
  by_cases hb : b = []
  · subst hb
    rw [RequestData.parseHeaders_printHeaders_nil hfields hseparate.short (by omega),
      hseparate.last]
    simp [lastValues_pageFields, hstoi]
    omega
  · rw [RequestData.parseHeaders_printHeaders hfields hb hseparate.short hlen, hseparate.last]
    simp [lastValues_pageFields, hstoi]
    omega

/-- No part of the header block and no part of the page make a complete response. -/
theorem complete_take_iff (hmsg : Unbroken shortMsg)
    (hfits : (errorBody errNum shortMsg).length < MAX_BUFF) {n m : ℕ}
    (hn : n ≤ (errorHeader errNum shortMsg).length)
    (hm : m ≤ (errorBody errNum shortMsg).length) :
    Complete ((errorHeader errNum shortMsg).take n ++ (errorBody errNum shortMsg).take m) ↔
      n = (errorHeader errNum shortMsg).length ∧ m = (errorBody errNum shortMsg).length := by
  have hline := unbroken_statusLine errNum hmsg
  have hpage : Unbroken ((errorBody errNum shortMsg).take m) := fun c hc =>
    unbroken_errorBody hmsg c (List.mem_of_mem_take hc)
  have hheader := errorHeader_eq hfits
  set line := statusLine errNum shortMsg
  set block := printHeaders (pageFields _ hfits) []
  have hlength : (errorHeader errNum shortMsg).length = line.length + (block.length + 1) := by
    rw [hheader, List.length_append, List.length_cons]
  by_cases hcut : n ≤ line.length
  · have htake : (errorHeader errNum shortMsg).take n = line.take n := by
      rw [hheader, List.take_append_of_le_length hcut]
    have hwire : Unbroken (line.take n ++ (errorBody errNum shortMsg).take m) :=
      unbroken_append.2 ⟨fun c hc => hline c (List.mem_of_mem_take hc), hpage⟩
    rw [htake]
    refine iff_of_false (not_complete_of_unbroken hwire) ?_
    omega
  · obtain ⟨k, rfl⟩ : ∃ k, n = line.length + (k + 1) := ⟨n - line.length - 1, by omega⟩
    have htake : (errorHeader errNum shortMsg).take (line.length + (k + 1)) =
        line ++ CR :: block.take k := by
      rw [hheader, List.take_length_add_append, List.take_succ_cons]
    rw [htake, List.append_assoc, List.cons_append, complete_append_iff hline]
    by_cases hblock : k < block.length
    · refine iff_of_false ?_ (by omega)
      rintro ⟨r, value, hparse, -⟩
      have hdrop : block.drop k ≠ [] := by
        rw [Ne, List.drop_eq_nil_iff]
        omega
      refine RequestData.not_success_of_cut (by simp [pageFields])
        (separate_pageFields _ hfits).short (List.take_append_drop k block).symm hdrop
        (fun c hc => (hpage c hc).2) ?_ hparse
      intro hhead
      cases m with
      | zero => simp at hhead
      | succ m =>
          rw [List.head?_take, if_neg (Nat.succ_ne_zero m), head?_errorBody] at hhead
          cases hhead
    · have hwhole : block.take k ++ (errorBody errNum shortMsg).take m =
          printHeaders (pageFields _ hfits) ((errorBody errNum shortMsg).take m) := by
        rw [List.take_of_length_le (not_lt.1 hblock)]
        simp [block, printHeaders]
      have hlong : 3 < (errorBody errNum shortMsg).length := by
        rw [length_errorBody]
        omega
      have hheaderLt := length_errorHeader_lt hfits
      have hblockLt : block.length + 1 < 2 ^ 31 := by
        rw [hlength, MAX_BUFF] at hheaderLt
        omega
      rw [hwhole, complete_page_iff hfits _ hlong hblockLt, List.length_take_of_le hm]
      omega

/-- What `handleError` sends is a complete response exactly when both calls of `writen`
have sent all they were given. -/
theorem handleError_complete_iff (s : Script) (hmsg : Unbroken shortMsg)
    (hfits : (errorBody errNum shortMsg).length < MAX_BUFF) :
    let header := writen s (errorHeader errNum shortMsg)
    let body := writen header.2 (errorBody errNum shortMsg)
    handleError s errNum shortMsg = some body.2 ∧
      ∃ wire, body.2.accepted = s.accepted ++ wire ∧
        (Complete wire ↔ header.1 = (errorHeader errNum shortMsg).length ∧
          body.1 = (errorBody errNum shortMsg).length) := by
  obtain ⟨n, hn, hheader, hwhole⟩ := writen_sends s (errorHeader errNum shortMsg)
  obtain ⟨m, hm, hbody, hpage⟩ :=
    writen_sends (writen s (errorHeader errNum shortMsg)).2 (errorBody errNum shortMsg)
  refine ⟨handleError_eq s hmsg hfits, (errorHeader errNum shortMsg).take n ++
    (errorBody errNum shortMsg).take m, ?_, ?_⟩
  · rw [hbody, hheader, List.append_assoc]
  · rw [hwhole, hpage]
    exact complete_take_iff hmsg hfits hn hm

/-- The message of `analysisRequest` about a missing file. -/
def notFound : Bytes := chars "Not Found!"

/-- The connection breaks after the header block. -/
def broken : Script where
  reads := []
  writes := [.accept 4096, .error]
  answers := []
  accepted := []

theorem not_complete_broken :
    ∃ t, handleError broken 404 notFound = some t ∧ ¬ Complete t.accepted := by
  obtain ⟨hsends, wire, hwire, hiff⟩ :=
    @handleError_complete_iff 404 notFound broken (by decide +kernel) (by decide +kernel)
  refine ⟨_, hsends, ?_⟩
  rw [hwire]
  change ¬ Complete wire
  rw [hiff]
  decide +kernel

end Page

end Http

end SoL
