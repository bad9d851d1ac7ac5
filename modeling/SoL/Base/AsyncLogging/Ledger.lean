import SoL.Base.AsyncLogging.Buffers
import SoL.Sequence.Grouping

/-!
# What becomes of every line

The abstract view of the logger: a ledger that lists the batches already
settled, what was handed to the output file for each of them, and how far the
batch under way has come. `Accounts l lines s` ties a ledger to a state. Its
field `whole` is the law of the double buffering: the buffers of the settled
batches, of the batch under way, of `buffers_` and the current buffer, read in
this order, are made of whole lines and give back every one of `lines` once and
in order. A batch of more than 25 buffers is settled by a notice and its first
two buffers, every other batch by all of its buffers.

Every run accounts for the lines as the buffers keep them (`stored`): a line
longer than a whole buffer is cut. The lines of `Logger` are far from that, so
runs of its calls account for the lines as they were appended.

The dropped buffers of the batch under way stand after its unwritten ones,
which is their place in the order of the lines.
-/

namespace SoL

namespace Base

namespace AsyncLogging

open Transition Sequence

/-- The notice written for a batch that is too long. -/
def noticeFor (now : String) (batch : List (List UInt8)) : List Record :=
  if 25 < batch.length then [.notice now (batch.length - 2)] else []

/-- The buffers of a batch that are written. -/
def kept (batch : List (List UInt8)) : List (List UInt8) :=
  if 25 < batch.length then batch.take 2 else batch

/-- What the output file gets for a whole batch. -/
def Rendered (batch : List (List UInt8)) (records : List Record) : Prop :=
  ∃ now, records = noticeFor now batch ++ (kept batch).map .buffer

/-- The points after the decision to drop. -/
def late : LoggerPc → Bool
  | .write _ | .recycle => true
  | _ => false

/-- The contents of `buffersToWrite` that are still to be written. -/
def unwritten (s : State) : List (List UInt8) :=
  match s.pc with
  | .unlock | .drop => s.buffersToWrite.map content
  | .write i => (s.buffersToWrite.map content).drop i
  | _ => []

/-- The next buffer of the batch under way. -/
theorem unwritten_eq_cons {s : State} {i : ℕ} {b : Buffer} (hpc : s.pc = .write i)
    (hbuf : s.buffersToWrite[i]? = some (some b)) :
    unwritten s = b.content :: (s.buffersToWrite.map content).drop (i + 1) := by
  obtain ⟨hi, hget⟩ := List.getElem?_eq_some_iff.1 hbuf
  simp only [unwritten, hpc]
  rw [List.drop_eq_getElem_cons (by simpa using hi), List.getElem_map, hget, content_some]

/-- The settled batches with their records, and of the batch under way its
notice, the buffers written so far and the buffers erased. -/
structure Ledger where
  settled : List (List (List UInt8))
  records : List (List Record)
  notice : List Record
  written : List (List UInt8)
  dropped : List (List UInt8)

namespace Ledger

/-- The batch under way, as it was when it was swapped out. -/
def batch (l : Ledger) (s : State) : List (List UInt8) :=
  l.written ++ (unwritten s ++ l.dropped)

structure Accounts (l : Ledger) (lines : List (List UInt8)) (s : State) : Prop where
  settled : List.Forall₂ Rendered l.settled l.records
  output : s.output = l.records.flatten ++ (l.notice ++ l.written.map .buffer)
  early : late s.pc = false → l.notice = [] ∧ l.written = [] ∧ l.dropped = []
  underway : late s.pc = true → ∃ now, l.notice = noticeFor now (l.batch s) ∧
    l.written ++ unwritten s = kept (l.batch s)
  whole : Grouping lines (l.settled.flatten ++ (l.batch s ++
    (s.buffers.map content ++ [content s.currentBuffer])))

section Rules

variable {l : Ledger} {lines : List (List UInt8)} {s t : State}

/-- A step that the ledger does not see. -/
theorem Accounts.of_eq (h : l.Accounts lines s)
    (houtput : t.output = s.output) (hunwritten : unwritten t = unwritten s)
    (hlate : late t.pc = late s.pc)
    (hbuffers : t.buffers = s.buffers) (hcurrent : t.currentBuffer = s.currentBuffer) :
    l.Accounts lines t := by
  have hbatch : l.batch t = l.batch s := by simp only [batch, hunwritten]
  exact ⟨h.settled, houtput ▸ h.output, hlate ▸ h.early,
    by rw [hlate, hbatch, hunwritten]; exact h.underway,
    by rw [hbatch, hbuffers, hcurrent]; exact h.whole⟩

/-- A line stored in the current buffer. -/
theorem Accounts.extend (h : l.Accounts lines s) (line : List UInt8)
    (houtput : t.output = s.output) (hunwritten : unwritten t = unwritten s)
    (hlate : late t.pc = late s.pc) (hbuffers : t.buffers = s.buffers)
    (hcurrent : content t.currentBuffer = content s.currentBuffer ++ line) :
    l.Accounts (lines ++ [line]) t := by
  have hbatch : l.batch t = l.batch s := by simp only [batch, hunwritten]
  refine ⟨h.settled, houtput ▸ h.output, hlate ▸ h.early,
    by rw [hlate, hbatch, hunwritten]; exact h.underway, ?_⟩
  have hwhole := h.whole
  simp only [← List.append_assoc] at hwhole ⊢
  rw [hbatch, hbuffers, hcurrent]
  exact hwhole.extend line

/-- A full buffer moves to `buffers_` and an empty one takes its place. -/
theorem Accounts.opened (h : l.Accounts lines s)
    (houtput : t.output = s.output) (hunwritten : unwritten t = unwritten s)
    (hlate : late t.pc = late s.pc)
    (hbuffers : t.buffers = s.buffers ++ [s.currentBuffer])
    (hcurrent : content t.currentBuffer = []) : l.Accounts lines t := by
  have hbatch : l.batch t = l.batch s := by simp only [batch, hunwritten]
  refine ⟨h.settled, houtput ▸ h.output, hlate ▸ h.early,
    by rw [hlate, hbatch, hunwritten]; exact h.underway, ?_⟩
  have hwhole := h.whole.opened
  rw [hbatch, hbuffers, hcurrent]
  simpa using hwhole

end Rules

end Ledger

/-- What a buffer keeps of a line. -/
def stored (line : List UInt8) : List UInt8 := line.take kLargeBuffer

theorem stored_of_length_le {line : List UInt8} (h : line.length ≤ kLargeBuffer) :
    stored line = line := List.take_of_length_le h

theorem map_stored_of_length_le {lines : List (List UInt8)}
    (h : ∀ line ∈ lines, line.length ≤ kLargeBuffer) : lines.map stored = lines := by
  rw [List.map_congr_left fun line hline => stored_of_length_le (h line hline), List.map_id']

/-- A line that fits the current buffer is kept as it is. -/
theorem content_append_current {b : Buffer} {line : List UInt8} (hfit : line.length < b.avail) :
    (b.append line).content = b.content ++ stored line := by
  have hle : b.avail ≤ kLargeBuffer := Nat.sub_le _ _
  rw [b.content_append_of_lt line hfit, stored_of_length_le (by omega)]

/-- The buffer that takes the place of a full one, the next one or a new one,
is empty, so it keeps of the line all that a whole buffer can. -/
theorem content_append_next {s : State} (hs : Shape s) (line : List UInt8) :
    (s.nextBuffer.getD (.new kLargeBuffer)).content = [] ∧
      ((s.nextBuffer.getD (.new kLargeBuffer)).append line).content = stored line := by
  set b := s.nextBuffer.getD (.new kLargeBuffer) with hb
  have hempty : b.content = [] := by
    cases hnext : s.nextBuffer with
    | none => simp [hb, hnext, FixedBuffer.new, FixedBuffer.content]
    | some c => simpa [hb, content, hnext] using hs.next
  have hcur : b.cur = 0 := b.content_eq_nil_iff.1 hempty
  have havail : b.avail = kLargeBuffer := by rw [FixedBuffer.avail, hcur, Nat.sub_zero]
  refine ⟨hempty, ?_⟩
  rw [b.content_append, hempty, havail, List.nil_append, stored]

namespace Ledger

section Steps

variable {l : Ledger} {lines : List (List UInt8)} {s t : State}

theorem accounts_swapBuffers (h : l.Accounts lines s) (hs : Shape s)
    (hpc : s.pc = .swap) : l.Accounts lines (swapBuffers s) := by
  obtain ⟨hn1, -, hempty⟩ := hs.idle (by simp [hpc, unborn]) (by simp [hpc, busy])
  obtain ⟨hnotice, hwritten, hdropped⟩ := h.early (by simp [hpc, late])
  have hbefore : unwritten s = [] := by simp [unwritten, hpc]
  have hafter : unwritten (swapBuffers s) =
      s.buffers.map content ++ [content s.currentBuffer] := by
    simp [unwritten, swapBuffers]
  refine ⟨h.settled, h.output, fun _ => ⟨hnotice, hwritten, hdropped⟩,
    fun hlate => by simp [swapBuffers, late] at hlate, ?_⟩
  have hwhole := h.whole.opened
  have hcurrent : content (swapBuffers s).currentBuffer = [] := hs.spare1
  have hbuffers : (swapBuffers s).buffers = [] := hempty
  rw [hbuffers, hcurrent]
  simpa [batch, hwritten, hdropped, hbefore, hafter] using hwhole

/-- The batch under way is settled. -/
theorem accounts_settle (h : l.Accounts lines s)
    (hpc : s.pc = .recycle) (hhead : t.pc = .head) (houtput : t.output = s.output)
    (hbuffers : t.buffers = s.buffers) (hcurrent : t.currentBuffer = s.currentBuffer) :
    (Ledger.mk (l.settled ++ [l.batch s])
      (l.records ++ [l.notice ++ l.written.map .buffer]) [] [] []).Accounts lines t := by
  obtain ⟨now, hnotice, hkept⟩ := h.underway (by simp [hpc, late])
  have hbefore : unwritten s = [] := by simp [unwritten, hpc]
  have hafter : unwritten t = [] := by simp [unwritten, hhead]
  have hrendered : Rendered (l.batch s) (l.notice ++ l.written.map .buffer) := by
    refine ⟨now, ?_⟩
    rw [← hnotice, ← hkept, hbefore, List.append_nil]
  refine ⟨List.rel_append h.settled (.cons hrendered .nil), ?_, fun _ => ⟨rfl, rfl, rfl⟩,
    fun hlate => by simp [hhead, late] at hlate, ?_⟩
  · rw [houtput, h.output]
    simp
  · rw [hbuffers, hcurrent]
    simpa [batch, hafter] using h.whole

/-- The batch under way loses all but its first two buffers. -/
theorem accounts_drop (h : l.Accounts lines s) (hpc : s.pc = .drop)
    (now : String) (hlong : 25 < s.buffersToWrite.length) :
    (Ledger.mk l.settled l.records [.notice now (s.buffersToWrite.length - 2)] []
      ((s.buffersToWrite.map content).drop 2)).Accounts lines
      { s with
        output := s.output ++ [.notice now (s.buffersToWrite.length - 2)]
        buffersToWrite := s.buffersToWrite.take 2
        pc := .write 0 } := by
  obtain ⟨hnotice, hwritten, hdropped⟩ := h.early (by simp [hpc, late])
  have hbefore : unwritten s = s.buffersToWrite.map content := by simp [unwritten, hpc]
  have hbatch : (s.buffersToWrite.take 2).map content ++
      (s.buffersToWrite.map content).drop 2 = s.buffersToWrite.map content := by
    rw [List.map_take, List.take_append_drop]
  refine ⟨h.settled, ?_, fun hlate => by simp [late] at hlate, fun _ => ⟨now, ?_, ?_⟩, ?_⟩
  · simp [h.output, hnotice, hwritten]
  · simp only [batch, unwritten, List.drop_zero, List.nil_append, hbatch]
    simp [noticeFor, hlong]
  · simp only [batch, unwritten, List.drop_zero, List.nil_append, hbatch]
    simp [kept, hlong, List.map_take]
  · have hwhole := h.whole
    simp only [batch, hwritten, hdropped, hbefore, List.nil_append, List.append_nil] at hwhole
    simp only [batch, unwritten, List.drop_zero, List.nil_append, hbatch]
    exact hwhole

theorem accounts_keep (h : l.Accounts lines s) (hpc : s.pc = .drop)
    (hshort : s.buffersToWrite.length ≤ 25) : l.Accounts lines { s with pc := .write 0 } := by
  obtain ⟨hnotice, hwritten, hdropped⟩ := h.early (by simp [hpc, late])
  have hsame : unwritten { s with pc := .write 0 } = unwritten s := by
    simp [unwritten, hpc]
  have hbatch : l.batch { s with pc := .write 0 } = s.buffersToWrite.map content := by
    simp [batch, hwritten, hdropped, unwritten]
  refine ⟨h.settled, h.output, fun hlate => by simp [late] at hlate,
    fun _ => ⟨"", ?_, ?_⟩, ?_⟩
  · rw [hbatch, hnotice, noticeFor, List.length_map, if_neg (not_lt.2 hshort)]
  · rw [hbatch, kept, List.length_map, if_neg (not_lt.2 hshort), hwritten]
    simp [unwritten]
  · have hwhole := h.whole
    simp only [batch, hsame] at hwhole ⊢
    exact hwhole

/-- One more buffer of the batch under way is written. -/
theorem accounts_write {i : ℕ} {b : Buffer} (h : l.Accounts lines s)
    (hpc : s.pc = .write i) (hbuf : s.buffersToWrite[i]? = some (some b)) :
    (Ledger.mk l.settled l.records l.notice (l.written ++ [b.content]) l.dropped).Accounts lines
      { s with output := s.output ++ [.buffer b.content], pc := .write (i + 1) } := by
  obtain ⟨now, hnotice, hkept⟩ := h.underway (by simp [hpc, late])
  have hsplit := unwritten_eq_cons hpc hbuf
  have hbatch : (l.written ++ [b.content]) ++
      ((s.buffersToWrite.map content).drop (i + 1) ++ l.dropped) = l.batch s := by
    simp [batch, hsplit]
  refine ⟨h.settled, ?_, fun hlate => by simp [late] at hlate,
    fun _ => ⟨now, ?_, ?_⟩, ?_⟩
  · simp [h.output]
  · simp only [batch, unwritten]
    rw [hbatch]
    exact hnotice
  · simp only [batch, unwritten]
    rw [hbatch, ← hkept, hsplit]
    simp
  · simp only [batch, unwritten]
    rw [hbatch]
    exact h.whole

end Steps

theorem accounts_step {w : WaitForSeconds} {s t : State} {a : Action} {l : Ledger}
    (h : l.Accounts (s.appended.map stored) s) (hs : Shape s)
    (hstep : step w s a = some t) : ∃ l' : Ledger, l'.Accounts (t.appended.map stored) t := by
  obtain ⟨-, htrans⟩ := trans_of_step hstep
  cases htrans with
  | fault _ f hf => exact absurd hf (not_faultAt hs a f)
  | start hmain hpc =>
      exact ⟨l, h.of_eq rfl (by simp [unwritten, hpc]) (by simp [late, hpc]) rfl rfl⟩
  | startReturn | stop | stopReturn | callAppend | acquire | appendReturn =>
      exact ⟨l, h.of_eq rfl rfl rfl rfl rfl⟩
  | appendFits i line b hcaller hcur hfit =>
      refine ⟨l, ?_⟩
      rw [List.map_append, List.map_singleton]
      refine h.extend (stored line) rfl rfl rfl rfl ?_
      simp only [hcur, content_some]
      exact content_append_current hfit
  | appendFull i line b hcaller hcur hfit =>
      obtain ⟨hempty, hfresh⟩ := content_append_next hs line
      have hopen : l.Accounts (s.appended.map stored) { s with
          buffers := s.buffers ++ [some b]
          currentBuffer := some (s.nextBuffer.getD (.new kLargeBuffer)) } :=
        h.opened rfl rfl rfl (by rw [hcur]) hempty
      refine ⟨l, ?_⟩
      rw [List.map_append, List.map_singleton]
      refine hopen.extend (stored line) rfl rfl rfl rfl ?_
      simp only [content_some, hempty, hfresh, List.nil_append]
  | swap now hpc => exact ⟨l, accounts_swapBuffers h hs hpc⟩
  | drop now hpc hlong => exact ⟨_, accounts_drop h hpc now hlong⟩
  | keep now hpc hempty hshort => exact ⟨l, accounts_keep h hpc hshort⟩
  | write now i b hpc hbuf => exact ⟨_, accounts_write h hpc hbuf⟩
  | written now i hpc hend =>
      have hlen := List.getElem?_eq_none_iff.1 hend
      refine ⟨l, h.of_eq rfl ?_ (by simp [late, hpc]) rfl rfl⟩
      simpa [unwritten, hpc] using hlen
  | recycle now hpc hf =>
      obtain ⟨b1, b2, -, -, heq⟩ := recycle_eq hs hpc
      rw [heq]
      exact ⟨_, accounts_settle h hpc rfl rfl rfl rfl⟩
  | entry now hpc | again now hpc | leave now hpc | lock now hpc | waitSource now hpc
  | waitReleased now hpc | noWait now hpc | waitLock now hpc | waitEnter now hpc
  | wake now hpc | reacquireSource now hpc | reacquireReleased now hpc
  | waitUnlock now hpc | unlock now hpc | finish now hpc =>
      exact ⟨l, h.of_eq rfl (by simp [unwritten, hpc]) (by simp [late, hpc]) rfl rfl⟩

theorem accounts_create : (Ledger.mk [] [] [] [] []).Accounts [] create where
  settled := .nil
  output := rfl
  early := fun _ => ⟨rfl, rfl, rfl⟩
  underway := fun hlate => by simp [create, late] at hlate
  whole := Grouping.single

end Ledger

end AsyncLogging

end Base

end SoL
