import SoL.Base.LogStream.Numeral
import SoL.Container.Directory

/-!
# Rolling log files

`LogFile` writes lines to a file and goes over to a new one, named by the second,
when the file has grown past `rollSize_` or when a new day is noticed, but at most
once in a second. While less than 300M are free the lines are counted and not
written.

The files are those of a directory that is empty at first, and a write takes all
of its bytes. The content of a file is what its stream has taken over: up to 64 KiB
of it are in the buffer of the stream until a flush, a roll or the destructor writes
them out. The clock and the free space are sequences of results, one for each call,
and `localtime_r` with `strftime` is a parameter.

With `dupStd_` the standard error is redirected to the current file, and the notice
about the free space of a roll is printed before the standard error follows to the
new file.
-/

namespace SoL

namespace Base

open Container LogStream

/-- The arguments of the constructor, and what is in a file name. -/
structure LogFileConfig where
  basename : List UInt8
  hostname : List UInt8
  pid : ℕ
  timebuf : ℤ → List UInt8
  rollSize : UInt64
  dupStd : Bool
  flushInterval : ℤ
  checkEveryN : ℕ

/-- The results of the calls of `time` and of `GetAvailableSpace`. -/
structure Readings where
  clock : ℕ → ℤ
  available : ℕ → ℤ

/-- The result of a call of `GetAvailableSpace` is less than 300M. -/
def Readings.low (env : Readings) (probe : ℕ) : Bool := env.available probe < 300 * 2 ^ 20

structure AppendFile where
  name : List UInt8
  writtenBytes : UInt64
  deriving DecidableEq

/-- The object, the files, the file that the standard error is redirected to, and
the number of results that have been read. -/
structure LogFile where
  count : ℕ
  startOfPeriod : ℤ
  lastRoll : ℤ
  lastFlush : ℤ
  forbitWrite : Bool
  file : Option AppendFile
  directory : List (List UInt8 × List UInt8)
  stderr : Option (List UInt8)
  ticks : ℕ
  probes : ℕ
  deriving DecidableEq

namespace LogFile

def kRollPerSeconds : ℤ := 60 * 60 * 24

def period (now : ℤ) : ℤ := now.tdiv kRollPerSeconds * kRollPerSeconds

def notice : List UInt8 := chars "filesystem available size less than 300M, forbit write\n"

def getLogFileName (cfg : LogFileConfig) (now : ℤ) : List UInt8 :=
  cfg.basename ++ cfg.timebuf now ++ cfg.hostname ++ chars "." ++ numeral cfg.pid ++ chars ".log"

/-- Print on the standard error. -/
def print (stderr : Option (List UInt8)) (d : List (List UInt8 × List UInt8))
    (text : List UInt8) : List (List UInt8 × List UInt8) :=
  match stderr with
  | some name => Directory.write d name text
  | none => d

section Operations

variable (cfg : LogFileConfig) (env : Readings)

/-- The branch of `rollFile` that opens the file of the second `now`. -/
def reopen (s : LogFile) (now : ℤ) : LogFile :=
  { s with
    lastRoll := now
    lastFlush := now
    startOfPeriod := period now
    file := some ⟨getLogFileName cfg now, 0⟩
    forbitWrite := env.low s.probes
    directory :=
      if env.low s.probes then
        print s.stderr (Directory.openAppend s.directory (getLogFileName cfg now)) notice
      else Directory.openAppend s.directory (getLogFileName cfg now)
    stderr := if cfg.dupStd then some (getLogFileName cfg now) else s.stderr
    probes := s.probes + 1 }

def rollFile (s : LogFile) : LogFile × Bool :=
  let now := env.clock s.ticks
  let s := { s with ticks := s.ticks + 1 }
  if s.lastRoll < now then (s.reopen cfg env now, true) else (s, false)

def create : LogFile :=
  (rollFile cfg env ⟨0, 0, 0, 0, false, none, [], none, 0, 0⟩).1

/-- The line is written, or counted alone. -/
def writeLine (s : LogFile) (file : AppendFile) (logline : List UInt8) : LogFile :=
  { s with
    file := some { file with writtenBytes := file.writtenBytes + logline.length.toUInt64 }
    directory :=
      if s.forbitWrite then s.directory else Directory.write s.directory file.name logline }

/-- Every `checkEveryN_`-th line: a new day, or the time to flush. -/
def checkPeriod (s : LogFile) : LogFile :=
  let now := env.clock s.ticks
  let s := { s with count := 0, ticks := s.ticks + 1 }
  if period now ≠ s.startOfPeriod then (s.rollFile cfg env).1
  else if cfg.flushInterval < now - s.lastFlush then { s with lastFlush := now }
  else s

/-- What follows a line, after which the file has `writtenBytes`. -/
def checkRoll (s : LogFile) (writtenBytes : UInt64) : LogFile :=
  if cfg.rollSize < writtenBytes then (s.rollFile cfg env).1
  else if cfg.checkEveryN ≤ s.count + 1 then
    checkPeriod cfg env { s with count := s.count + 1 }
  else { s with count := s.count + 1 }

/-- `none` is a call through a null `file_`. -/
def append (s : LogFile) (logline : List UInt8) : Option LogFile := do
  let file ← s.file
  let s := s.writeLine file logline
  let file ← s.file
  return s.checkRoll cfg env file.writtenBytes

inductive Call
  | append (logline : List UInt8)
  | rollFile

def call (s : LogFile) : Call → Option LogFile
  | .append logline => s.append cfg env logline
  | .rollFile => some (s.rollFile cfg env).1

def run (s : LogFile) (calls : List Call) : Option LogFile := calls.foldlM (call cfg env) s

/-- The line of a call, unless writing is forbidden. -/
def taken (s : LogFile) : Call → List (List UInt8)
  | .append logline => if s.forbitWrite then [] else [logline]
  | .rollFile => []

/-- The lines that are appended while writing is not forbidden. -/
def accepted (s : LogFile) : List Call → List (List UInt8)
  | [] => []
  | c :: calls => s.taken c ++ ((s.call cfg env c).elim [] fun t => accepted t calls)

end Operations

end LogFile

end Base

end SoL
