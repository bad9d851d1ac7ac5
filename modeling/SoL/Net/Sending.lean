import SoL.Net.Script
import SoL.Transition.Machine

/-!
# Buffered sending

A caller appends to an output string and calls `writen` on it whenever the
descriptor may take more bytes. What the kernel has accepted and what the string
holds should together be all that was appended. Two things break this.

`writen` takes the string for sent when the sum equals its size cast to `int`.
From 2^32 bytes on the cast is not the size, and a partial write of just as many
bytes clears the rest of the string (`always_conserved_iff`).

After an error other than `EINTR` and `EAGAIN` it returns before it removes the
bytes that are already sent (`resumable_iff`).
-/

namespace SoL

namespace Net

namespace Script

/-- How many of `n` bytes the outcomes let the kernel accept. -/
def takes : List WriteOutcome → ℕ → ℕ
  | .accept k :: rest, n =>
      if n = 0 then 0 else quota k n + takes rest (n - quota k n)
  | .interrupt :: rest, n => takes rest n
  | _, _ => 0

/-- The outcomes come to an error before `n` bytes are accepted. -/
def fails : List WriteOutcome → ℕ → Bool
  | .accept k :: rest, n => n != 0 && fails rest (n - quota k n)
  | .interrupt :: rest, n => fails rest n
  | .error :: _, n => n != 0
  | _, _ => false

theorem takes_le (writes : List WriteOutcome) (n : ℕ) : takes writes n ≤ n := by
  induction writes generalizing n with
  | nil => exact Nat.zero_le n
  | cons o rest ih =>
      cases o with
      | interrupt => exact ih n
      | again | error => exact Nat.zero_le n
      | accept k =>
          simp only [takes]
          split
          · exact Nat.zero_le n
          · have hle : quota k n ≤ n := quota_le (Nat.pos_of_ne_zero ‹_›)
            have := ih (n - quota k n)
            omega

theorem takes_zero (writes : List WriteOutcome) : takes writes 0 = 0 :=
  Nat.le_zero.1 (takes_le writes 0)

theorem fails_zero (writes : List WriteOutcome) : fails writes 0 = false := by
  induction writes with
  | nil => rfl
  | cons o rest ih => cases o <;> simp [fails, ih]

/-- The loop of `writen` ends as the outcomes say, and the kernel has accepted the
first bytes. -/
theorem writenStringLoop_script (s : Script) (ptr : List UInt8) (writeSum : ℤ) :
    ∃ t, writenStringLoop kernel s ptr writeSum =
        ⟨fails s.writes ptr.length, writeSum + takes s.writes ptr.length, t⟩ ∧
      t.accepted = s.accepted ++ ptr.take (takes s.writes ptr.length) := by
  obtain ⟨reads, writes, answers, accepted⟩ := s
  induction writes generalizing accepted ptr writeSum with
  | nil =>
      refine ⟨⟨reads, [], answers, accepted⟩, ?_, by simp [takes]⟩
      by_cases hptr : ptr = []
      · subst hptr
        simp [writenStringLoop_nil, fails, takes]
      · rw [writenStringLoop_eagain hptr rfl]
        simp [fails, takes]
  | cons o rest ih =>
      by_cases hptr : ptr = []
      · subst hptr
        refine ⟨⟨reads, o :: rest, answers, accepted⟩, ?_, by simp⟩
        simp [writenStringLoop_nil, fails_zero, takes_zero]
      cases o with
      | interrupt =>
          obtain ⟨t, hloop, haccepted⟩ := ih ptr writeSum accepted
          exact ⟨t, (writenStringLoop_eintr hptr rfl).trans hloop, haccepted⟩
      | again =>
          refine ⟨⟨reads, rest, answers, accepted⟩, ?_, by simp [takes]⟩
          rw [writenStringLoop_eagain hptr rfl]
          simp [fails, takes]
      | error =>
          refine ⟨⟨reads, rest, answers, accepted⟩, ?_, by simp [takes]⟩
          rw [writenStringLoop_error hptr rfl]
          simp [fails, takes, hptr]
      | accept k =>
          have hpos : 0 < ptr.length := List.length_pos_iff.2 hptr
          have hle : quota k ptr.length ≤ ptr.length := quota_le hpos
          obtain ⟨t, hloop, haccepted⟩ := ih (ptr.drop (quota k ptr.length))
            (writeSum + quota k ptr.length) (accepted ++ ptr.take (quota k ptr.length))
          rw [List.length_drop] at hloop haccepted
          refine ⟨t, (writenStringLoop_accepted hptr rfl).trans (hloop.trans ?_), ?_⟩
          · simp [fails, takes, hptr, add_assoc]
          · rw [haccepted]
            simp [takes, hptr, List.take_add]

/-- What `writen` does with a string, unless it fails. -/
theorem writenString_of_not_fails {s : Script} {sbuff : List UInt8}
    (h : fails s.writes sbuff.length = false) :
    (writenString kernel s sbuff).result = takes s.writes sbuff.length ∧
      (writenString kernel s sbuff).kernel.accepted =
        s.accepted ++ sbuff.take (takes s.writes sbuff.length) ∧
      (writenString kernel s sbuff).sbuff =
        if (takes s.writes sbuff.length : ℤ) = castInt sbuff.length then []
        else sbuff.drop (takes s.writes sbuff.length) := by
  obtain ⟨t, hloop, haccepted⟩ := writenStringLoop_script s sbuff 0
  rw [h, zero_add] at hloop
  unfold writenString
  rw [hloop]
  by_cases hcast : (takes s.writes sbuff.length : ℤ) = castInt sbuff.length
  · simp [hcast, haccepted]
  · simp [hcast, haccepted]

theorem writenString_of_fails {s : Script} {sbuff : List UInt8}
    (h : fails s.writes sbuff.length = true) :
    (writenString kernel s sbuff).result = -1 ∧
      (writenString kernel s sbuff).kernel.accepted =
        s.accepted ++ sbuff.take (takes s.writes sbuff.length) ∧
      (writenString kernel s sbuff).sbuff = sbuff := by
  obtain ⟨t, hloop, haccepted⟩ := writenStringLoop_script s sbuff 0
  unfold writenString
  rw [hloop]
  simp [h, haccepted]

theorem result_eq_neg_one_iff (s : Script) (sbuff : List UInt8) :
    (writenString kernel s sbuff).result = -1 ↔ fails s.writes sbuff.length = true := by
  cases h : fails s.writes sbuff.length with
  | true => simp [(writenString_of_fails h).1]
  | false =>
      rw [(writenString_of_not_fails h).1]
      simp

end Script

theorem castInt_eq (n : ℕ) :
    castInt n = if (n : ℤ) % 4294967296 < 2147483648 then (n : ℤ) % 4294967296
      else (n : ℤ) % 4294967296 - 4294967296 := by
  unfold castInt
  rw [Int.bmod_def]
  norm_num

open Script Transition

/-- A caller with its output string. `accepted` and `appended` are the bytes that
the kernel has accepted and that the caller has appended so far. -/
structure Sender where
  sbuff : List UInt8
  accepted : List UInt8
  appended : List UInt8

namespace Sender

def create : Sender := ⟨[], [], []⟩

inductive Action
  | append (bytes : List UInt8)
  | writen (writes : List WriteOutcome)

/-- A call of `writen` on the output string. -/
def send (s : Sender) (writes : List WriteOutcome) : StringWriteReturn Script :=
  writenString kernel ⟨[], writes, [], s.accepted⟩ s.sbuff

/-- The steps of a caller whose calls do not fail. -/
def step (s : Sender) : Action → Option Sender
  | .append bytes => some { s with sbuff := s.sbuff ++ bytes, appended := s.appended ++ bytes }
  | .writen writes =>
      if (s.send writes).result = -1 then none
      else some { s with
        sbuff := (s.send writes).sbuff
        accepted := (s.send writes).kernel.accepted }

def machine : Machine Sender Action where
  initial := fun s => s = create
  step := step

/-- What is sent and what is left are what was appended. -/
def conserved (s : Sender) : Prop := s.accepted ++ s.sbuff = s.appended

/-- A call returns the number of bytes accepted during it. -/
def returnsAccepted (s : Sender) (a : Action) : Prop :=
  ∀ writes, a = .writen writes → ∃ bytes,
    (s.send writes).kernel.accepted = s.accepted ++ bytes ∧
      (s.send writes).result = bytes.length

/-- The kernel accepts, of the string, fewer bytes than it has and as many as its
size cast to `int`. -/
def wraps (s : Sender) (a : Action) : Prop :=
  ∃ writes, a = .writen writes ∧ takes writes s.sbuff.length < s.sbuff.length ∧
    (takes writes s.sbuff.length : ℤ) = castInt s.sbuff.length

/-- Only strings of 2^32 bytes and more are affected. -/
theorem le_length_of_wraps {s : Sender} {a : Action} (h : s.wraps a) :
    2 ^ 32 ≤ s.sbuff.length := by
  obtain ⟨writes, -, hlt, hcast⟩ := h
  rw [castInt_eq] at hcast
  split at hcast <;> omega

/-- What a call of `writen` that does not fail makes of the string. -/
theorem send_eq {s t : Sender} {writes : List WriteOutcome}
    (hstep : s.step (.writen writes) = some t) :
    (s.send writes).result = takes writes s.sbuff.length ∧
      t = { s with
        sbuff := if (takes writes s.sbuff.length : ℤ) = castInt s.sbuff.length then []
          else s.sbuff.drop (takes writes s.sbuff.length)
        accepted := s.accepted ++ s.sbuff.take (takes writes s.sbuff.length) } := by
  obtain ⟨hfails, ⟨⟩⟩ := Option.ite_none_left_eq_some.1 hstep
  have hnot : fails writes s.sbuff.length = false := by
    rw [← Bool.not_eq_true, ← result_eq_neg_one_iff ⟨[], writes, [], s.accepted⟩]
    exact hfails
  obtain ⟨hresult, haccepted, hsbuff⟩ :=
    writenString_of_not_fails (s := ⟨[], writes, [], s.accepted⟩) hnot
  exact ⟨hresult, by rw [send, haccepted, hsbuff]⟩

theorem returnsAccepted_step {s t : Sender} {a : Action} (hstep : s.step a = some t) :
    s.returnsAccepted a := by
  rintro writes rfl
  obtain ⟨hresult, ht⟩ := send_eq hstep
  obtain ⟨-, ⟨⟩⟩ := Option.ite_none_left_eq_some.1 hstep
  refine ⟨_, congrArg Sender.accepted ht, hresult.trans ?_⟩
  rw [List.length_take, min_eq_left (takes_le writes _)]

theorem conserved_step_iff {s t : Sender} {a : Action} (h : s.conserved)
    (hstep : s.step a = some t) : t.conserved ↔ ¬ s.wraps a := by
  have happended : s.accepted ++ s.sbuff = s.appended := h
  cases a with
  | append bytes =>
      obtain rfl := Option.some.inj hstep
      simp [conserved, wraps, ← happended]
  | writen writes =>
      obtain ⟨-, rfl⟩ := send_eq hstep
      have hwraps : s.wraps (.writen writes) ↔ takes writes s.sbuff.length < s.sbuff.length ∧
          (takes writes s.sbuff.length : ℤ) = castInt s.sbuff.length := by
        simp [wraps]
      rw [hwraps, conserved, ← happended, List.append_assoc, List.append_cancel_left_eq]
      by_cases hcast : (takes writes s.sbuff.length : ℤ) = castInt s.sbuff.length
      · rw [if_pos hcast, List.append_nil, List.take_eq_self_iff]
        simp [hcast]
      · rw [if_neg hcast, List.take_append_drop]
        simp [hcast]

/-- For every run of appends and of calls that do not fail, what is accepted and
what is left are what was appended at every point, and every call returns the
number of bytes accepted, exactly when no call finds the kernel accepting as many
bytes as the cast of the size and fewer than the size. -/
theorem always_conserved_iff (as : List Action) :
    machine.always conserved create as ∧ machine.along returnsAccepted create as ↔
      machine.along (fun s a => ¬ s.wraps a) create as := by
  have hreturns : machine.along returnsAccepted create as :=
    machine.along_of_invariant (I := fun _ => True) (P := fun _ _ => True)
      (fun _ _ _ _ _ _ => trivial) (fun _ _ _ _ _ hstep => returnsAccepted_step hstep) trivial
      (machine.along_of_forall_mem (fun _ _ => trivial) create)
  rw [and_iff_left hreturns]
  exact machine.always_iff_along (I := fun _ => True) (fun _ _ _ _ _ => trivial)
    (fun _ _ _ _ h hstep => conserved_step_iff h hstep) as trivial rfl

/-- The kernel takes one byte of a string of 2^32 + 1 bytes, and the rest is gone. -/
theorem not_conserved_of_length {bytes : List UInt8} (hlength : bytes.length = 4294967297) :
    ¬ machine.always conserved create [.append bytes, .writen [.accept 1, .again]] := by
  intro h
  have htakes : takes [.accept 1, .again] bytes.length = 1 := by
    simp [hlength, takes, quota]
  have hcast : castInt bytes.length = 1 := by
    rw [castInt_eq, hlength]
    norm_num
  obtain ⟨t, ht⟩ : ∃ t, step ⟨bytes, [], bytes⟩ (.writen [.accept 1, .again]) = some t := by
    refine ⟨_, if_neg ?_⟩
    rw [send, result_eq_neg_one_iff]
    simp [fails]
  have hconserved : t.conserved := machine.always_head ((h.2 _ rfl).2 t ht)
  refine (conserved_step_iff (s := ⟨bytes, [], bytes⟩) rfl ht).1 hconserved ⟨_, rfl, ?_, ?_⟩
  · change takes [.accept 1, .again] bytes.length < bytes.length
    rw [htakes, hlength]
    norm_num
  · simp [htakes, hcast]

theorem not_conserved_hugeString :
    ¬ ∀ as, machine.always conserved create as ∧ machine.along returnsAccepted create as :=
  fun h => not_conserved_of_length (List.length_replicate (n := 4294967297) (a := 0)) (h _).1

end Sender

/-- `writen` on a string, from a kernel that has accepted nothing. -/
def trySend (writes : List WriteOutcome) (sbuff : List UInt8) : StringWriteReturn Script :=
  writenString kernel ⟨[], writes, [], []⟩ sbuff

/-- Nothing but interruptions come before the error. -/
def failsFirst (writes : List WriteOutcome) : Bool :=
  (writes.dropWhile (· = .interrupt)).head? = some .error

theorem takes_eq_zero_iff {writes : List WriteOutcome} {n : ℕ}
    (h : fails writes n = true) : takes writes n = 0 ↔ failsFirst writes = true := by
  induction writes with
  | nil => simp [fails] at h
  | cons o rest ih =>
      cases o with
      | interrupt => simpa [failsFirst, takes] using ih h
      | again => simp [fails] at h
      | error => simp [takes, failsFirst]
      | accept k =>
          have hn : n ≠ 0 := by
            rintro rfl
            simp [fails] at h
          have hpos := quota_pos k n
          simp [takes, hn, failsFirst]
          omega

/-- After a call that fails, the string holds exactly the bytes that the kernel has
not accepted when nothing was accepted before the error, and never otherwise. -/
theorem resumable_iff {writes : List WriteOutcome} {sbuff : List UInt8}
    (h : (trySend writes sbuff).result = -1) :
    (trySend writes sbuff).kernel.accepted ++ (trySend writes sbuff).sbuff = sbuff ↔
      failsFirst writes = true := by
  have hfails : fails writes sbuff.length = true := (result_eq_neg_one_iff _ _).1 h
  obtain ⟨-, haccepted, hsbuff⟩ := writenString_of_fails (s := ⟨[], writes, [], []⟩) hfails
  have hpos : sbuff ≠ [] := by
    rintro rfl
    simp [fails_zero] at hfails
  rw [← takes_eq_zero_iff hfails, trySend, haccepted, hsbuff]
  simp [hpos]

theorem resumable_interrupted :
    (trySend [.interrupt, .error] [65, 66]).result = -1 ∧
      (trySend [.interrupt, .error] [65, 66]).kernel.accepted ++
        (trySend [.interrupt, .error] [65, 66]).sbuff = [65, 66] := by
  have hresult : (trySend [.interrupt, .error] [65, 66]).result = -1 :=
    (result_eq_neg_one_iff _ _).2 rfl
  exact ⟨hresult, (resumable_iff hresult).2 (by decide)⟩

/-- One byte is sent before the error, and would be sent again. -/
theorem not_resumable_afterOne :
    ¬ ∀ writes sbuff, (trySend writes sbuff).result = -1 →
      (trySend writes sbuff).kernel.accepted ++ (trySend writes sbuff).sbuff = sbuff := by
  intro h
  have hfails : fails (Script.mk [] [.accept 1, .error] [] []).writes
      ([65, 66] : List UInt8).length = true := by decide
  obtain ⟨hresult, haccepted, hsbuff⟩ := writenString_of_fails hfails
  have hresumed := h [.accept 1, .error] [65, 66] hresult
  rw [trySend, haccepted, hsbuff] at hresumed
  revert hresumed
  decide

end Net

end SoL
