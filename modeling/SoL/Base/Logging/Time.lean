import SoL.Base.LogStream.Numeral
import SoL.Base.TimeZone.Data
import SoL.Transition.Machine

/-!
# The time of a log record

`formatTime` keeps the text of the last second that it has formatted, with that
second as the key, in thread-local variables. The text depends on the time zone
as well, and the first key is zero, which is a second like any other. So the text
of a record is the right one exactly if the second is a new one, or if the zone
at the time of the formatting gives the same text (`along_fresh_iff`).

`gmtime_r` and `localtime_r` are parameters. The zone is the loaded data of
`g_logTimeZone`, if it is valid. `rendered` is the zone at the time of the last
formatting; no code sees it.
-/

namespace SoL

namespace Base

namespace Logger

open Transition TimeZone LogStream

/-- The functions of the C library. -/
structure Libc where
  gmtime : ℤ → Tm
  localtime : ℤ → Tm

/-- A number in a field of so many characters. -/
def padded (width : ℕ) (fill : UInt8) (v : ℤ) : List UInt8 :=
  List.replicate (width - (numeral v).length) fill ++ numeral v

/-- `"%4d%02d%02d %02d:%02d:%02d"`. -/
def timeText (tm : Tm) : List UInt8 :=
  padded 4 32 (tm.year + 1900) ++ padded 2 48 (tm.mon + 1) ++ padded 2 48 tm.mday ++ chars " " ++
    padded 2 48 tm.hour ++ chars ":" ++ padded 2 48 tm.min ++ chars ":" ++ padded 2 48 tm.sec

/-- The local time of a second, in the zone if it is valid. -/
def localTime (C : Libc) (zone : Option Data) (seconds : ℤ) : Except Fault Tm :=
  match zone with
  | some data => toLocalTime C.gmtime data seconds
  | none => .ok (C.localtime seconds)

/-- The 17 characters of a second in a zone, formatted anew. -/
def fresh (C : Libc) (zone : Option Data) (seconds : ℤ) : Except Fault (List UInt8) := do
  let tm ← localTime C zone seconds
  if (timeText tm).length = 17 then return timeText tm else throw .assertion

/-- The zone, and the variables of the thread. `time` is the string in `t_time`.
After a fault there are no more records. -/
structure Clock where
  zone : Option Data
  lastSecond : ℤ
  time : List UInt8
  rendered : Option (Option Data)
  fault : Option Fault

namespace Clock

def create (zone : Option Data) : Clock where
  zone := zone
  lastSecond := 0
  time := []
  rendered := none
  fault := none

/-- The second of a record is formatted unless it is the last one. -/
def refresh (C : Libc) (s : Clock) (seconds : ℤ) : Except Fault Clock :=
  if seconds ≠ s.lastSecond then do
    let text ← fresh C s.zone seconds
    return { s with lastSecond := seconds, time := text, rendered := some s.zone }
  else return s

/-- `T(t_time, 17)` asserts the length of the string. -/
def emit (s : Clock) : Except Fault (List UInt8) :=
  if s.time.length = 17 then return s.time else throw .assertion

/-- What `formatTime` inserts for a record, up to the second. -/
def formatTime (C : Libc) (s : Clock) (seconds : ℤ) : Except Fault (List UInt8) := do
  let t ← s.refresh C seconds
  t.emit

inductive Action
  | record (seconds : ℕ)
  | setTimeZone (zone : Option Data)

def step (C : Libc) (s : Clock) (a : Action) : Option Clock :=
  if s.fault.isSome then none
  else
    match a with
    | .setTimeZone zone => some { s with zone := zone }
    | .record seconds =>
        match s.formatTime C seconds, s.refresh C seconds with
        | .ok _, .ok t => some t
        | .error f, _ => some { s with fault := some f }
        | .ok _, .error f => some { s with fault := some f }

def machine (C : Libc) : Machine Clock Action where
  initial := fun s => ∃ zone, s = create zone
  step := step C

/-- The text of a record is the one without the cache. -/
def emitsFresh (C : Libc) (s : Clock) : Action → Prop
  | .record seconds => s.formatTime C seconds = fresh C s.zone seconds
  | .setTimeZone _ => True

/-- The second is a new one, or the zone of the last formatting gives the same
text as the present one. Before the first formatting the second zero has no
text. -/
def reusable (C : Libc) (s : Clock) : Action → Prop
  | .record seconds => (seconds : ℤ) = s.lastSecond →
      match s.rendered with
      | some zone => fresh C zone seconds = fresh C s.zone seconds
      | none => fresh C s.zone seconds = .error .assertion
  | .setTimeZone _ => True

/-- What the variables of the thread hold. -/
structure Cached (C : Libc) (s : Clock) : Prop where
  empty : s.rendered = none → s.time = []
  text : ∀ zone, s.rendered = some zone → fresh C zone s.lastSecond = .ok s.time

theorem cached_create (C : Libc) (zone : Option Data) : (create zone).Cached C where
  empty _ := rfl
  text _ h := by simp [create] at h

theorem bind_eq_ok {α β : Type} {x : Except Fault α} {f : α → Except Fault β} {b : β}
    (h : x >>= f = .ok b) : ∃ a, x = .ok a ∧ f a = .ok b := by
  cases x with
  | error e => cases h
  | ok a => exact ⟨a, rfl, h⟩

theorem length_of_fresh {C : Libc} {zone : Option Data} {seconds : ℤ} {text : List UInt8}
    (h : fresh C zone seconds = .ok text) : text.length = 17 := by
  unfold fresh at h
  obtain ⟨tm, -, htm⟩ := bind_eq_ok h
  split at htm
  · next hlength =>
      obtain rfl : timeText tm = text := by simpa [pure, Except.pure] using htm
      exact hlength
  · simp [throw, throwThe, MonadExceptOf.throw] at htm

theorem emit_of_length {s : Clock} (h : s.time.length = 17) : s.emit = .ok s.time := by
  rw [emit, if_pos h]
  rfl

/-- A new second is formatted. -/
theorem formatTime_of_ne (C : Libc) {s : Clock} {seconds : ℤ} (h : seconds ≠ s.lastSecond) :
    s.formatTime C seconds = fresh C s.zone seconds := by
  rw [formatTime, refresh, if_pos h]
  cases hfresh : fresh C s.zone seconds with
  | error f => rfl
  | ok text => exact emit_of_length (length_of_fresh hfresh)

/-- The last second is copied. -/
theorem formatTime_of_eq (C : Libc) {s : Clock} {seconds : ℤ} (h : seconds = s.lastSecond) :
    s.formatTime C seconds = s.emit := by
  rw [formatTime, refresh, if_neg (not_not.2 h)]
  rfl

theorem Cached.emit_of_none {C : Libc} {s : Clock} (hs : s.Cached C) (h : s.rendered = none) :
    s.emit = .error .assertion := by
  rw [emit, hs.empty h]
  rfl

theorem Cached.emit_of_some {C : Libc} {s : Clock} {zone : Option Data} (hs : s.Cached C)
    (h : s.rendered = some zone) : s.emit = fresh C zone s.lastSecond := by
  have htext := hs.text zone h
  rw [emit_of_length (length_of_fresh htext), htext]

theorem Cached.emitsFresh_iff {C : Libc} {s : Clock} (hs : s.Cached C) (a : Action) :
    s.emitsFresh C a ↔ s.reusable C a := by
  cases a with
  | setTimeZone zone => exact Iff.rfl
  | record seconds =>
      by_cases hsecond : (seconds : ℤ) = s.lastSecond
      · simp only [emitsFresh, reusable, hsecond, formatTime_of_eq C rfl, forall_const]
        cases hrendered : s.rendered with
        | none =>
            rw [hs.emit_of_none hrendered]
            exact eq_comm
        | some zone => rw [hs.emit_of_some hrendered]
      · simp only [emitsFresh, reusable, formatTime_of_ne C hsecond, hsecond, IsEmpty.forall_iff]

theorem Cached.refresh {C : Libc} {s t : Clock} {seconds : ℤ} (hs : s.Cached C)
    (h : s.refresh C seconds = .ok t) : t.Cached C := by
  unfold Clock.refresh at h
  split at h
  · obtain ⟨text, htext, ht⟩ := bind_eq_ok h
    cases ht
    refine ⟨fun hnone => by simp at hnone, fun zone hzone => ?_⟩
    obtain rfl : s.zone = zone := by simpa using hzone
    exact htext
  · cases h
    exact hs

theorem Cached.step {C : Libc} {s t : Clock} {a : Action} (hs : s.Cached C)
    (h : (machine C).step s a = some t) : t.Cached C := by
  change Clock.step C s a = some t at h
  unfold Clock.step at h
  split at h
  · cases h
  · cases a with
    | setTimeZone zone =>
        cases h
        exact ⟨hs.empty, hs.text⟩
    | record seconds =>
        -- A fault changes neither the key nor the text.
        dsimp only at h
        split at h
        · next _ t' _ hrefresh =>
            cases h
            exact hs.refresh hrefresh
        · cases h
          exact ⟨hs.empty, hs.text⟩
        · cases h
          exact ⟨hs.empty, hs.text⟩

/-- In every run the text of every record is the one without the cache exactly
if no record copies a text that its zone would not give. -/
theorem along_fresh_iff (C : Libc) (zone : Option Data) (as : List Action) :
    (machine C).along (emitsFresh C) (create zone) as ↔
      (machine C).along (reusable C) (create zone) as := by
  have hstep : ∀ s a t, Cached C s → (machine C).step s a = some t → Cached C t :=
    fun s a t hs h => hs.step h
  constructor
  · intro h
    exact (machine C).along_of_invariant (fun s a t hs _ ht => hstep s a t hs ht)
      (fun s a t hs ha _ => (hs.emitsFresh_iff a).1 ha) (cached_create C zone) h
  · intro h
    exact (machine C).along_of_invariant (fun s a t hs _ ht => hstep s a t hs ht)
      (fun s a t hs ha _ => (hs.emitsFresh_iff a).2 ha) (cached_create C zone) h

/-- The fields of a second of January 1970. -/
def january (t : ℤ) : Tm where
  sec := t % 60
  min := t / 60 % 60
  hour := t / 3600 % 24
  mday := t / 86400 + 1
  mon := 0
  year := 70
  wday := (t / 86400 + 4) % 7
  yday := t / 86400
  isdst := 0
  gmtoff := 0
  zone := none

/-- The library in January 1970 under `TZ=GMT-8`. -/
def gmtMinus8 : Libc where
  gmtime := january
  localtime t := { january (t + 28800) with gmtoff := 28800 }

/-- The data of a fixed zone without an offset. -/
def utc : Data where
  transitions := []
  localtimes := [⟨0, false, 0⟩]
  abbreviation := chars "UTC"

/-- The zone is set between two records of the same second, and the second one
still has the time of the first zone. -/
theorem not_along_fresh_sameSecond :
    ¬ (machine gmtMinus8).along (emitsFresh gmtMinus8) (create none)
      [.record 5, .setTimeZone (some utc), .record 5] := by
  intro h
  have hsecond : (machine gmtMinus8).step
      ⟨some utc, 5, chars "19700101 08:00:05", some none, none⟩ (.record 5) =
      some ⟨some utc, 5, chars "19700101 08:00:05", some none, none⟩ := by rfl
  have hstale := ((((h _ (by rfl)).2 _ rfl).2) _ hsecond).1
  have hcached : formatTime gmtMinus8
      ⟨some utc, 5, chars "19700101 08:00:05", some none, none⟩ 5 =
      .ok (chars "19700101 08:00:05") := by rfl
  have hfresh : fresh gmtMinus8 (some utc) 5 = .ok (chars "19700101 00:00:05") := by rfl
  have htexts := hcached.symm.trans (hstale.trans hfresh)
  revert htexts
  decide

end Clock

end Logger

end Base

end SoL
