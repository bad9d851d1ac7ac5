import SoL.Base.TimeZone.Data
import SoL.Decode.Reader

/-!
# Zone files

`readTimeZoneFile` fills a `Data` from the bytes of a zone file. It can stop with
a `logic_error` after any byte; the error is printed and forgotten, the function
returns `true`, and the zone counts as valid with whatever has been loaded. The
access to `localtimes` with an index of the file is not checked, and a negative
`charcnt` becomes the bound of an array. Memory is not limited here.
-/

namespace SoL

namespace Base

namespace TimeZone

open Decode

inductive LogicError
  | noEnoughData
  | badInt32Data
  | badUInt8Data
  | badHead
  | vectorReserve
  deriving DecidableEq

namespace LogicError

def what : LogicError → String
  | noEnoughData => "no enough data"
  | badInt32Data => "bad int32_t data"
  | badUInt8Data => "bad uint8_t data"
  | badHead => "bad head"
  | vectorReserve => "vector::reserve"

end LogicError

/-- How reading ends early: with an exception that is caught, or undefined. -/
inductive Stop
  | threw (e : LogicError)
  | fault (f : Fault)

abbrev FileReader := Reader Stop UInt8 Data

def bigEndian (bytes : List UInt8) : ℕ :=
  bytes.foldl (fun n (b : UInt8) => n * 256 + b.toNat) 0

/-- `be32toh` to an `int32_t`. -/
def int32 (bytes : List UInt8) : ℤ := (bigEndian bytes : ℤ).bmod (2 ^ 32)

def readBytes (n : ℤ) : FileReader (List UInt8) :=
  if n < 0 then throw (.fault .arrayBound) else take n.toNat (.threw .noEnoughData)

def readInt32 : FileReader ℤ := do
  let bytes ← take 4 (.threw .badInt32Data)
  pure (int32 bytes)

def readUInt8 : FileReader ℕ := do
  let bytes ← take 1 (.threw .badUInt8Data)
  pure (bytes.getD 0 0).toNat

/-- `"TZif"`. -/
def magic : List UInt8 := [84, 90, 105, 102]

/-- The counts of the header that are used. -/
structure Counts where
  timecnt : ℤ
  typecnt : ℤ
  charcnt : ℤ

def readHead : FileReader Unit := do
  let head ← readBytes 4
  if head ≠ magic then throw (.threw .badHead)

def readCounts : FileReader Counts := do
  let _version ← readBytes 1
  let _ ← readBytes 15
  let _isgmtcnt ← readInt32
  let _isstdcnt ← readInt32
  let _leapcnt ← readInt32
  let timecnt ← readInt32
  let typecnt ← readInt32
  let charcnt ← readInt32
  pure ⟨timecnt, typecnt, charcnt⟩

/-- `trans.reserve(timecnt)`: a negative count is a length above `max_size()`. -/
def reserve (timecnt : ℤ) : FileReader Unit :=
  if timecnt < 0 then throw (.threw .vectorReserve) else pure ()

/-- The times of the transitions and then the indices of their types. -/
def readTimes (timecnt : ℕ) : FileReader (List (ℤ × ℕ)) := do
  let trans ← many readInt32 timecnt
  let localtimes ← many readUInt8 timecnt
  pure (trans.zip localtimes)

def readType : FileReader Localtime := do
  let gmtoff ← readInt32
  let isdst ← readUInt8
  let abbrind ← readUInt8
  pure ⟨gmtoff, isdst != 0, abbrind⟩

def pushLocaltime (type : Localtime) : FileReader Unit :=
  modify fun s => { s with store := { s.store with localtimes := s.store.localtimes ++ [type] } }

def readTypes : ℕ → FileReader Unit
  | 0 => pure ()
  | n + 1 => do
      let type ← readType
      pushLocaltime type
      readTypes n

/-- The loop that pairs the times with their types. -/
def addTransitions : List (ℤ × ℕ) → FileReader Unit
  | [] => pure ()
  | (gmttime, localIdx) :: rest => fun s =>
      match s.store.localtimes[localIdx]? with
      | none => .error (.fault .localtimes) s
      | some type =>
          addTransitions rest { s with
            store := { s.store with
              transitions := s.store.transitions ++
                [⟨gmttime, gmttime + type.gmtOffset, localIdx⟩] } }

def readAbbreviation (charcnt : ℤ) : FileReader Unit := do
  let abbreviation ← readBytes charcnt
  modify fun s => { s with store := { s.store with abbreviation := abbreviation } }

/-- What follows the times and their indices. -/
def readBody (times : List (ℤ × ℕ)) (typecnt charcnt : ℤ) : FileReader Unit := do
  readTypes typecnt.toNat
  addTransitions times
  readAbbreviation charcnt

/-- The body of the `try` block. -/
def readZone : FileReader Unit := do
  readHead
  let counts ← readCounts
  reserve counts.timecnt
  let times ← readTimes counts.timecnt.toNat
  readBody times counts.typecnt counts.charcnt

/-- `Data` as `new` makes it. -/
def Data.empty : Data := ⟨[], [], []⟩

/-- The result, the data filled in, and the line printed to `stderr`. -/
structure ReadReturn where
  result : Bool
  data : Data
  printed : Option String

/-- `readTimeZoneFile` on the contents of the file; `none` is a file that cannot
be opened. -/
def readTimeZoneFile : Option (List UInt8) → Except Fault ReadReturn
  | none => .ok ⟨true, .empty, none⟩
  | some bytes =>
      match readZone ⟨bytes, .empty⟩ with
      | .ok _ s => .ok ⟨true, s.store, none⟩
      | .error (.threw e) s => .ok ⟨true, s.store, some e.what⟩
      | .error (.fault f) _ => .error f

end TimeZone

/-- `TimeZone`, with the data that it points to. -/
structure TimeZone where
  data : Option TimeZone.Data

namespace TimeZone

def valid (tz : TimeZone) : Bool := tz.data.isSome

/-- `TimeZone::TimeZone(const char*)`. -/
def ofFile (contents : Option (List UInt8)) : Except Fault TimeZone := do
  let read ← readTimeZoneFile contents
  return ⟨if read.result then some read.data else none⟩

end TimeZone

end Base

end SoL
