import Mathlib.Tactic
import SoL.Arithmetic.CInt

/-!
# Requests of the HTTP server

`RequestData` holds what the two parsers of a request read and write. `parseURI`
takes the request line off `content`; `parseHeaders` is a machine of nine states
that goes over `content` byte by byte. Its state survives the call, while the
bounds of the key and of the value that it is reading are local and start at
`-1` in every call.

Both parsers keep positions in variables of type `int`. A position that
`std::string::find` returns is narrowed, so a line end at `2 ^ 31` or later may look
like none; and a loop index or a difference that leaves `int` is undefined
behaviour, like a substring of `content` with a bound outside it. Undefined
behaviour ends a parser without a result.
-/

namespace SoL

namespace Http

open Arithmetic

abbrev Bytes := List UInt8

def ascii (s : List Char) : Bytes := s.map Char.toUInt8

def CR : UInt8 := 13
def LF : UInt8 := 10
def colon : UInt8 := 58
def space : UInt8 := 32

/-- `std::string::find` from a position on; `none` is `npos`. -/
def find (str pat : Bytes) (pos : ℕ) : Option ℕ :=
  (List.range str.length).find? fun j => pos ≤ j && pat.isPrefixOf (str.drop j)

/-- The result of `find` as an `int`; `npos` becomes `-1`. -/
def narrow : Option ℕ → ℤ
  | some pos => (pos : ℤ).bmod (2 ^ 32)
  | none => -1

/-- A `std::string` from two iterators into another, when these are in range. -/
def substring (str : Bytes) (first last : ℤ) : Option Bytes :=
  if 0 ≤ first ∧ first ≤ last ∧ last ≤ str.length then
    some ((str.drop first.toNat).take (last - first).toNat)
  else none

inductive RequestState
  | STATE_PARSE_URI
  | STATE_PARSE_HEADERS
  | STATE_RECV_BODY
  | STATE_ANALYSIS
  | STATE_FINISH
  deriving DecidableEq

inductive HeadersState
  | h_start
  | h_key
  | h_colon
  | h_spaces_after_colon
  | h_value
  | h_CR
  | h_LF
  | h_end_CR
  | h_end_LF
  deriving DecidableEq

inductive Method
  | METHOD_POST
  | METHOD_GET
  deriving DecidableEq

inductive Version
  | HTTP_10
  | HTTP_11
  deriving DecidableEq

/-- The result codes of the two parsers. -/
inductive ParseResult
  | again
  | error
  | success
  deriving DecidableEq

abbrev Headers := Bytes → Option Bytes

/-- `method` and `HTTPversion` have no value before `parse_URI` sets them. -/
structure RequestData where
  content : Bytes
  method : Option Method
  HTTPversion : Option Version
  fileName : Bytes
  nowReadPos : ℕ
  state : RequestState
  hState : HeadersState
  headers : Headers

namespace RequestData

/-- The constructor. -/
def new : RequestData where
  content := []
  method := none
  HTTPversion := none
  fileName := []
  nowReadPos := 0
  state := .STATE_PARSE_URI
  hState := .h_start
  headers := fun _ => none

/-- The method that a request line names, and where; `GET` is looked for
first. -/
def findMethod (requestLine : Bytes) : Option (Method × ℕ) :=
  match find requestLine (ascii ['G', 'E', 'T']) 0 with
  | some pos => some (.METHOD_GET, pos)
  | none =>
      match find requestLine (ascii ['P', 'O', 'S', 'T']) 0 with
      | some pos => some (.METHOD_POST, pos)
      | none => none

/-- The file name between the slash at `pos` and the blank at `last`. -/
def findFileName (requestLine : Bytes) (pos last : ℕ) : Bytes :=
  if 1 < last - pos then
    let fileName := (requestLine.drop (pos + 1)).take (last - pos - 1)
    match find fileName (ascii ['?']) 0 with
    | some query => fileName.take query
    | none => fileName
  else ascii ['i', 'n', 'd', 'e', 'x', '.', 'h', 't', 'm', 'l']

/-- The version after the slash that follows `pos`. -/
def findVersion (requestLine : Bytes) (pos : ℕ) : Option Version :=
  match find requestLine (ascii ['/']) pos with
  | none => none
  | some pos =>
      if requestLine.length - pos ≤ 3 then none
      else
        let ver := (requestLine.drop (pos + 1)).take 3
        if ver = ascii ['1', '.', '0'] then some .HTTP_10
        else if ver = ascii ['1', '.', '1'] then some .HTTP_11
        else none

/-- The rest of `parse_URI`, when the request line has been taken off `content`. It is
shorter than `2 ^ 31` bytes, so no position in it changes when it is narrowed. -/
def parseRequestLine (r : RequestData) (requestLine : Bytes) : ParseResult × RequestData :=
  match findMethod requestLine with
  | none => (.error, r)
  | some (method, pos) =>
      let r := { r with method := some method }
      match find requestLine (ascii ['/']) pos with
      | none => (.error, r)
      | some pos =>
          match find requestLine [space] pos with
          | none => (.error, r)
          | some last =>
              let r := { r with fileName := findFileName requestLine pos last }
              match findVersion requestLine last with
              | none => (.error, r)
              | some version =>
                  (.success, { r with
                    HTTPversion := some version
                    state := .STATE_PARSE_HEADERS })

/-- `parse_URI`; `none` when `pos + 1` overflows. -/
def parseURI (r : RequestData) : Option (ParseResult × RequestData) :=
  let pos := narrow (find r.content [CR] r.nowReadPos)
  if pos < 0 then some (.again, r)
  else
    match CInt.value pos + 1 with
    | .overflow => none
    | .value next =>
        let requestLine := r.content.take pos.toNat
        let content :=
          if next < r.content.length then r.content.drop next.toNat else []
        some (parseRequestLine { r with content := content } requestLine)

end RequestData

/-- The variables of `parse_Headers` with the fields that its loop changes. -/
structure Scan where
  hState : HeadersState
  keyStart : ℤ
  keyEnd : ℤ
  valueStart : ℤ
  valueEnd : ℤ
  nowReadLineBegin : ℕ
  notFinish : Bool
  headers : Headers

/-- The loop goes on, the function returns `PARSE_HEADER_ERROR`, or a substring or an
`int` is out of range. -/
inductive Scanned
  | going (s : Scan)
  | error (s : Scan)
  | outOfRange

namespace Scan

/-- The variables at the head of the loop. -/
def enter (hState : HeadersState) (headers : Headers) : Scan where
  hState := hState
  keyStart := -1
  keyEnd := -1
  valueStart := -1
  valueEnd := -1
  nowReadLineBegin := 0
  notFinish := true
  headers := headers

/-- One round of the loop, at the byte `c` of `str` with index `i`. -/
def step (str : Bytes) (i : ℕ) (c : UInt8) (s : Scan) : Scanned :=
  match s.hState with
  | .h_start =>
      if c = LF ∨ c = CR then .going s
      else .going { s with hState := .h_key, keyStart := i, nowReadLineBegin := i }
  | .h_key =>
      if c = colon then
        match CInt.value i - CInt.value s.keyStart with
        | .overflow => .outOfRange
        | .value length =>
            if length ≤ 0 then .error { s with keyEnd := i }
            else .going { s with keyEnd := i, hState := .h_colon }
      else if c = LF ∨ c = CR then .error s
      else .going s
  | .h_colon =>
      if c = space then .going { s with hState := .h_spaces_after_colon } else .error s
  | .h_spaces_after_colon => .going { s with hState := .h_value, valueStart := i }
  | .h_value =>
      match CInt.value i - CInt.value s.valueStart with
      | .overflow => .outOfRange
      | .value length =>
          if c = CR then
            if length ≤ 0 then .error { s with hState := .h_CR, valueEnd := i }
            else .going { s with hState := .h_CR, valueEnd := i }
          else if length > 255 then .error s
          else .going s
  | .h_CR =>
      if c = LF then
        match substring str s.keyStart s.keyEnd, substring str s.valueStart s.valueEnd with
        | some key, some value =>
            .going { s with
              hState := .h_LF
              headers := Function.update s.headers key (some value)
              nowReadLineBegin := i }
        | _, _ => .outOfRange
      else .error s
  | .h_LF =>
      if c = CR then .going { s with hState := .h_end_CR }
      else .going { s with keyStart := i, hState := .h_key }
  | .h_end_CR => if c = LF then .going { s with hState := .h_end_LF } else .error s
  | .h_end_LF => .going { s with notFinish := false, keyStart := i, nowReadLineBegin := i }

/-- The loop from index `i` on, over the bytes of `str` that are left. -/
def loop (str : Bytes) : Bytes → ℕ → Scan → Scanned
  | [], _, s => .going s
  | c :: rest, i, s =>
      if s.notFinish then
        match step str i c s with
        | .going s =>
            -- the index is an `int`
            if i + 1 < 2 ^ 31 then loop str rest (i + 1) s else .outOfRange
        | out => out
      else .going s

end Scan

namespace RequestData

/-- `parse_Headers`; `none` when a substring or an `int` is out of range. -/
def parseHeaders (r : RequestData) : Option (ParseResult × RequestData) :=
  match Scan.loop r.content r.content 0 (Scan.enter r.hState r.headers) with
  | .outOfRange => none
  | .error s => some (.error, { r with hState := s.hState, headers := s.headers })
  | .going s =>
      let r := { r with
        hState := s.hState
        headers := s.headers
        content := r.content.drop s.nowReadLineBegin }
      if s.hState = .h_end_LF then some (.success, r) else some (.again, r)

end RequestData

end Http

end SoL
