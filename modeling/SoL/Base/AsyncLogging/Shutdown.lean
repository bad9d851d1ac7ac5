import SoL.Base.AsyncLogging.Ledger
import SoL.Base.AsyncLogging.Lock

/-!
# What is written when `stop` returns

`stop` clears `running_` and joins the logging thread, which looks at the flag
at the head of its loop only and writes nothing after it. So the thread takes
one more batch when `stop` finds it between that test and its swap, and none
otherwise: in the second case the lines that stand in `buffers_` and in the
current buffer are never written. `passed_returned_iff` states this for every
run without an oversized batch, with `waitForSeconds` as its callers expect it.

The bytes handed over by the swaps so far are `taken`: what has been written and
what the batch under way still has to write. They grow at a swap only
(`taken_step`).
-/

namespace SoL

namespace Base

namespace AsyncLogging

open Transition Sequence

/-- The bytes passed to `output.append` so far. -/
def outputBytes (s : State) : List UInt8 := (s.output.map Record.bytes).flatten

/-- The lines come first in what was passed to `output.append`, in order and
each of them whole in one call. An empty line has no byte to pass. -/
def passed (lines : List (List UInt8)) (s : State) : Prop :=
  ∃ rest, Grouping (nonempty lines ++ rest) (s.output.map Record.bytes)

/-- The bytes that the logging thread has swapped out. -/
def taken (s : State) : List UInt8 := outputBytes s ++ (unwritten s).flatten

/-- The bytes in `buffers_` and in the current buffer. -/
def pending (s : State) : List UInt8 :=
  (s.buffers.map content ++ [content s.currentBuffer]).flatten

/-- The line of an `append` that has stored it and has not returned yet. -/
def inFlight (s : State) : List (List UInt8) :=
  match s.owner with
  | some (.caller i) =>
      match s.callers i with
      | .unlock line => [line]
      | _ => []
  | _ => []

/-- The points between the test of `running_` and the swap. -/
def beforeSwap : LoggerPc → Bool
  | .lock | .testEmpty | .waitLock | .waitEnter | .waiting | .reacquire | .waitUnlock
  | .swap => true
  | _ => false

/-- The step does not drop buffers. -/
def batchShort (s : State) (a : Action) : Prop :=
  (∃ now, a = .logger now) → s.pc = .drop → s.buffersToWrite.length ≤ 25

instance (s : State) : ∀ a, Decidable (batchShort s a)
  | .logger now => decidable_of_iff (s.pc = .drop → s.buffersToWrite.length ≤ 25)
      (by simp [batchShort])
  | .start | .startReturn | .stop | .stopReturn | .callAppend _ _ | .acquire _
  | .appendBody _ | .appendReturn _ => isTrue (by simp [batchShort])

/-- Nothing but buffers was passed to `output.append`. -/
def noNotice (s : State) : Prop := ∀ r ∈ s.output, ∃ b : Buffer, r = .buffer b.content

theorem noNotice_step {w : WaitForSeconds} {s t : State} {a : Action} (hs : Shape s)
    (h : noNotice s) (hshort : batchShort s a) (hstep : step w s a = some t) :
    noNotice t := by
  obtain ⟨-, htrans⟩ := trans_of_step hstep
  cases htrans with
  | drop now hpc hlong =>
      have := hshort ⟨now, rfl⟩ hpc
      omega
  | write now i b hpc hbuf =>
      intro r hr
      rcases List.mem_append.1 hr with hold | hnew
      · exact h r hold
      · exact ⟨b, List.mem_singleton.1 hnew⟩
  | recycle now hpc hf =>
      obtain ⟨b1, b2, -, -, heq⟩ := recycle_eq hs hpc
      rw [heq]
      exact h
  | _ => exact h

/-- Without a notice a batch is written as it is. -/
theorem map_bytes_of_rendered {batch : List (List UInt8)} {records : List Record}
    (h : Rendered batch records) (hn : ∀ r ∈ records, ∃ b : Buffer, r = .buffer b.content) :
    records.map Record.bytes = batch := by
  obtain ⟨now, rfl⟩ := h
  by_cases hlong : 25 < batch.length
  · obtain ⟨b, hb⟩ := hn (.notice now (batch.length - 2)) (by simp [noticeFor, hlong])
    cases hb
  · simp [noticeFor, kept, hlong, Function.comp_def, Record.bytes]

theorem map_bytes_of_settled {settled : List (List (List UInt8))}
    {records : List (List Record)} (h : List.Forall₂ Rendered settled records)
    (hn : ∀ r ∈ records.flatten, ∃ b : Buffer, r = .buffer b.content) :
    records.flatten.map Record.bytes = settled.flatten := by
  induction h with
  | nil => rfl
  | cons hbatch _ ih =>
      simp only [List.flatten_cons, List.mem_append] at hn
      have hfirst := map_bytes_of_rendered hbatch fun r hr => hn r (Or.inl hr)
      have hrest := ih fun r hr => hn r (Or.inr hr)
      rw [List.flatten_cons, List.map_append, hfirst, hrest, List.flatten_cons]

section Account

variable {l : Ledger} {lines : List (List UInt8)} {s : State}

/-- As long as nothing was dropped, what was passed to `output.append` is the
settled batches and the written part of the batch under way. -/
theorem map_bytes_output (h : l.Accounts lines s) (hn : noNotice s) :
    s.output.map Record.bytes = l.settled.flatten ++ l.written ∧ l.dropped = [] := by
  have hmem : ∀ r, r ∈ l.records.flatten ∨ r ∈ l.notice →
      ∃ b : Buffer, r = .buffer b.content := by
    intro r hr
    apply hn r
    rw [h.output]
    simp only [List.mem_append]
    tauto
  have hbatch : l.notice = [] ∧ l.dropped = [] := by
    cases hlate : late s.pc with
    | false => exact ⟨(h.early hlate).1, (h.early hlate).2.2⟩
    | true =>
        obtain ⟨now, hnotice, hkept⟩ := h.underway hlate
        by_cases hlong : 25 < (l.batch s).length
        · obtain ⟨b, hb⟩ := hmem (.notice now ((l.batch s).length - 2))
            (Or.inr (by simp [hnotice, noticeFor, hlong]))
          cases hb
        · refine ⟨by rw [hnotice, noticeFor, if_neg hlong], ?_⟩
          rw [kept, if_neg hlong, Ledger.batch, ← List.append_assoc] at hkept
          exact List.self_eq_append_right.1 hkept
  have hsettled := map_bytes_of_settled h.settled fun r hr => hmem r (Or.inl hr)
  refine ⟨?_, hbatch.2⟩
  rw [h.output, hbatch.1, List.map_append, hsettled]
  simp [Function.comp_def, Record.bytes]

/-- What the swaps took and what is pending make up all lines, as long as
nothing was dropped. -/
theorem taken_append_pending (h : l.Accounts lines s) (hn : noNotice s) :
    taken s ++ pending s = lines.flatten := by
  obtain ⟨houtput, hdropped⟩ := map_bytes_output h hn
  rw [← h.whole.flatten_eq, taken, pending, outputBytes, houtput, Ledger.batch, hdropped]
  simp

/-- What was passed to `output.append` is made of the first lines. -/
theorem exists_grouping_output (h : l.Accounts lines s) (hn : noNotice s) :
    ∃ seen, seen <+: lines ∧ Grouping seen (s.output.map Record.bytes) := by
  obtain ⟨houtput, -⟩ := map_bytes_output h hn
  have hwhole := h.whole
  rw [Ledger.batch, List.append_assoc, ← List.append_assoc, ← houtput] at hwhole
  obtain ⟨seen, unseen, rfl, hseen⟩ := hwhole.split
  exact ⟨seen, List.prefix_append _ _, hseen⟩

end Account

/-- Only a swap takes bytes. -/
theorem taken_step {w : WaitForSeconds} {s t : State} {a : Action} (hs : Shape s)
    (hshort : batchShort s a) (hstep : step w s a = some t) (hpc : s.pc ≠ .swap) :
    taken t = taken s := by
  obtain ⟨-, htrans⟩ := trans_of_step hstep
  cases htrans with
  | fault _ f hf => exact absurd hf (not_faultAt hs a f)
  | swap now hswap => exact absurd hswap hpc
  | drop now hdrop hlong =>
      have := hshort ⟨now, rfl⟩ hdrop
      omega
  | keep now hdrop hempty hle => simp [taken, outputBytes, unwritten, hdrop]
  | write now i b hwrite hbuf =>
      rw [taken, taken, unwritten_eq_cons hwrite hbuf]
      simp [outputBytes, unwritten, Record.bytes]
  | written now i hwrite hend =>
      have hlen := List.getElem?_eq_none_iff.1 hend
      have hnil : (s.buffersToWrite.map content).drop i = [] := by simpa using hlen
      simp [taken, outputBytes, unwritten, hwrite, hnil]
  | recycle now hrec hf =>
      obtain ⟨b1, b2, -, -, heq⟩ := recycle_eq hs hrec
      simp [heq, taken, outputBytes, unwritten, hrec]
  | start hmain hstart => simp [taken, outputBytes, unwritten, hstart]
  | startReturn | stop | stopReturn | callAppend | acquire | appendFits | appendFull
  | appendReturn => rfl
  | entry now hq | again now hq | leave now hq | lock now hq | waitSource now hq
  | waitReleased now hq | noWait now hq | waitLock now hq | waitEnter now hq | wake now hq
  | reacquireSource now hq | reacquireReleased now hq | waitUnlock now hq | unlock now hq
  | finish now hq => simp [taken, outputBytes, unwritten, hq]

/-- What every reachable state satisfies as long as no batch is dropped. -/
structure Consistent (s : State) : Prop where
  shape : Shape s
  lock : LockInv .released s
  ledger : ∃ l : Ledger, l.Accounts (s.appended.map stored) s
  noNotice : noNotice s
  flight : s.appended = s.returned ++ inFlight s
  kept : ((inFlight s).map stored).flatten <:+ content s.currentBuffer
  born : unborn s.pc = true → s.main = .created ∨ s.main = .starting
  joined : s.main = .stopped → s.pc = .exited

theorem Consistent.conserved {s : State} (h : Consistent s) :
    taken s ++ pending s = (s.appended.map stored).flatten := by
  obtain ⟨l, hl⟩ := h.ledger
  exact taken_append_pending hl h.noNotice

theorem consistent_create : Consistent create where
  shape := shape_create
  lock := lockInv_create .released
  ledger := ⟨_, Ledger.accounts_create⟩
  noNotice := by simp [AsyncLogging.noNotice, create]
  flight := rfl
  kept := List.nil_suffix
  born := fun _ => Or.inl rfl
  joined := by simp [create]

theorem inFlight_eq_nil {s : State} (h : ∀ i, s.owner ≠ some (.caller i)) :
    inFlight s = [] := by
  unfold inFlight
  split
  case h_1 i howner => exact absurd howner (h i)
  case h_2 => rfl

theorem inFlight_of_unlock {s : State} {i : ℕ} {line : List UInt8}
    (howner : s.owner = some (.caller i)) (hcaller : s.callers i = .unlock line) :
    inFlight s = [line] := by
  simp [inFlight, howner, hcaller]

theorem inFlight_of_body {s : State} {i : ℕ} {line : List UInt8}
    (howner : s.owner = some (.caller i)) (hcaller : s.callers i = .body line) :
    inFlight s = [] := by
  simp [inFlight, howner, hcaller]

/-- Nobody holds a stored line back before the step nor after it. -/
theorem flight_of_nil {s t : State} (h : Consistent s) (hs : inFlight s = [])
    (ht : inFlight t = []) (happended : t.appended = s.appended)
    (hreturned : t.returned = s.returned) :
    t.appended = t.returned ++ inFlight t ∧
      ((inFlight t).map stored).flatten <:+ content t.currentBuffer := by
  have hflight := h.flight
  rw [hs] at hflight
  rw [ht, happended, hreturned]
  exact ⟨hflight, List.nil_suffix⟩

/-- The step stores a line. -/
theorem flight_of_stored {s t : State} {i : ℕ} {line rest : List UInt8} (h : Consistent s)
    (hcaller : s.callers i = .body line) (howner : t.owner = s.owner)
    (ht : t.callers i = .unlock line) (happended : t.appended = s.appended ++ [line])
    (hreturned : t.returned = s.returned)
    (hcurrent : content t.currentBuffer = rest ++ stored line) :
    t.appended = t.returned ++ inFlight t ∧
      ((inFlight t).map stored).flatten <:+ content t.currentBuffer := by
  have hown := h.lock.owner_of_inside (i := i) (by simp [hcaller, inside])
  have hflight := h.flight
  rw [inFlight_of_body hown hcaller, List.append_nil] at hflight
  rw [inFlight_of_unlock (howner.trans hown) ht, happended, hreturned, hcurrent, hflight]
  exact ⟨rfl, by simp⟩

/-- The lines stored and not returned, one step later. -/
theorem flight_step {s t : State} {a : Action} (h : Consistent s)
    (hstep : step .released s a = some t) :
    t.appended = t.returned ++ inFlight t ∧
      ((inFlight t).map stored).flatten <:+ content t.currentBuffer := by
  have hlock := h.lock
  obtain ⟨-, htrans⟩ := trans_of_step hstep
  cases htrans with
  | fault _ f hf => exact absurd hf (not_faultAt h.shape a f)
  | start | startReturn | stop | stopReturn => exact ⟨h.flight, h.kept⟩
  | callAppend i line hcaller =>
      have hnot : s.owner ≠ some (.caller i) := by
        intro howner
        have := (hlock.caller i).1 howner
        simp [hcaller, inside] at this
      have hsame : inFlight { s with
          callers := Function.update s.callers i (.lock line) } = inFlight s := by
        unfold inFlight
        cases howner : s.owner with
        | none => rfl
        | some r =>
            cases r with
            | logger => rfl
            | caller j =>
                have hj : j ≠ i := by
                  rintro rfl
                  exact hnot howner
                simp [Function.update_of_ne hj]
      rw [hsame]
      exact ⟨h.flight, h.kept⟩
  | acquire i line hcaller howner =>
      exact flight_of_nil h (inFlight_eq_nil fun j => by simp [howner])
        (inFlight_of_body rfl (Function.update_self i _ _)) rfl rfl
  | appendFits i line b hcaller hcur hfit =>
      exact flight_of_stored h hcaller rfl (Function.update_self i _ _) rfl rfl
        (content_append_current hfit)
  | appendFull i line b hcaller hcur hfit =>
      have hfresh := (content_append_next h.shape line).2
      exact flight_of_stored h hcaller rfl (Function.update_self i _ _) rfl rfl
        (hfresh.trans (List.nil_append _).symm)
  | appendReturn i line hcaller =>
      have howner := hlock.owner_of_inside (i := i) (by simp [hcaller, inside])
      have hflight := h.flight
      rw [inFlight_of_unlock howner hcaller] at hflight
      rw [inFlight_eq_nil (by simp)]
      exact ⟨by simp [hflight], List.nil_suffix⟩
  | lock now hpc howner | reacquireReleased now hpc howner | waitLock now hpc howner =>
      exact flight_of_nil h (inFlight_eq_nil fun j => by simp [howner])
        (inFlight_eq_nil (by simp)) rfl rfl
  | waitReleased now hpc | unlock now hpc =>
      have howner := hlock.logger.2 (by simp [hpc, holds])
      exact flight_of_nil h (inFlight_eq_nil fun j => by simp [howner])
        (inFlight_eq_nil (by simp)) rfl rfl
  | swap now hpc =>
      have howner := hlock.logger.2 (by simp [hpc, holds])
      exact flight_of_nil h (inFlight_eq_nil fun j => by simp [howner])
        (inFlight_eq_nil fun j => by simp [swapBuffers, howner]) rfl rfl
  | waitEnter now hpc | waitUnlock now hpc =>
      have := hlock.reaches
      simp [hpc, reaches] at this
  | reacquireSource now hpc howner hw => cases hw
  | waitSource now hpc hempty hw => cases hw
  | recycle now hpc hf =>
      obtain ⟨b1, b2, -, -, heq⟩ := recycle_eq h.shape hpc
      rw [heq]
      exact ⟨h.flight, h.kept⟩
  | entry | again | leave | noWait | wake | drop | keep | write | written | finish =>
      exact ⟨h.flight, h.kept⟩

theorem born_step {s t : State} {a : Action} (h : Consistent s)
    (hstep : step .released s a = some t) :
    unborn t.pc = true → t.main = .created ∨ t.main = .starting := by
  obtain ⟨-, htrans⟩ := trans_of_step hstep
  cases htrans with
  | fault _ f hf => exact absurd hf (not_faultAt h.shape a f)
  | start => exact fun _ => Or.inr rfl
  | startReturn hmain hlatch =>
      intro hpc
      have := h.shape.latch hpc
      simp [hlatch] at this
  | stop hmain =>
      intro hpc
      have := h.born hpc
      simp [hmain] at this
  | stopReturn hmain hpc => simp [hpc, unborn]
  | callAppend | acquire | appendFits | appendFull | appendReturn => exact h.born
  | recycle now hpc hf =>
      obtain ⟨b1, b2, -, -, heq⟩ := recycle_eq h.shape hpc
      simp [heq, unborn]
  | _ => simp [unborn, swapBuffers]

theorem joined_step {s t : State} {a : Action} (h : Consistent s)
    (hstep : step .released s a = some t) : t.main = .stopped → t.pc = .exited := by
  obtain ⟨-, htrans⟩ := trans_of_step hstep
  have hjoined := h.joined
  cases htrans with
  | start | startReturn | stop => simp
  | stopReturn hmain hpc => exact fun _ => hpc
  | fault | callAppend | acquire | appendFits | appendFull | appendReturn => exact hjoined
  | recycle now hpc hf =>
      obtain ⟨b1, b2, -, -, heq⟩ := recycle_eq h.shape hpc
      intro hmain
      rw [heq] at hmain
      simp [hpc] at hjoined
      exact absurd hmain hjoined
  | swap now hpc =>
      intro hmain
      simp [hpc] at hjoined
      exact absurd hmain hjoined
  | _ => simp_all

theorem consistent_step {s t : State} {a : Action} (h : Consistent s)
    (ha : batchShort s a) (hstep : step .released s a = some t) :
    Consistent t where
  shape := shape_step h.shape hstep
  lock := lockInv_step h.lock hstep
  ledger := by
    obtain ⟨l, hl⟩ := h.ledger
    exact Ledger.accounts_step hl h.shape hstep
  noNotice := noNotice_step h.shape h.noNotice ha hstep
  flight := (flight_step h hstep).1
  kept := (flight_step h hstep).2
  born := born_step h hstep
  joined := joined_step h hstep

/-- `stop` has been called. -/
def stopCalled (s : State) : Prop :=
  s.running = false ∧ (s.main = .stopping ∨ s.main = .stopped)

theorem stopCalled_step {s t : State} {a : Action} (hs : Shape s) (h : stopCalled s)
    (hstep : step .released s a = some t) : stopCalled t := by
  obtain ⟨-, htrans⟩ := trans_of_step hstep
  obtain ⟨hrun, hmain⟩ := h
  cases htrans with
  | start hcreated => simp [hcreated] at hmain
  | startReturn hstarting => simp [hstarting] at hmain
  | stop hstarted => simp [hstarted] at hmain
  | stopReturn => exact ⟨hrun, Or.inr rfl⟩
  | recycle now hpc hf =>
      obtain ⟨b1, b2, -, -, heq⟩ := recycle_eq hs hpc
      rw [heq]
      exact ⟨hrun, hmain⟩
  | _ => exact ⟨hrun, hmain⟩

/-- After `stop` the logging thread starts no further iteration. -/
theorem beforeSwap_step {s t : State} {a : Action} (hs : Shape s) (h : stopCalled s)
    (hpc : beforeSwap s.pc = false) (hstep : step .released s a = some t) :
    beforeSwap t.pc = false := by
  obtain ⟨-, htrans⟩ := trans_of_step hstep
  cases htrans with
  | fault _ f hf => exact hpc
  | startReturn | stop | stopReturn | callAppend | acquire | appendFits | appendFull
  | appendReturn => exact hpc
  | again now hhead hrun =>
      have := h.1
      simp [hrun] at this
  | recycle now hrec hf =>
      obtain ⟨b1, b2, -, -, heq⟩ := recycle_eq hs hrec
      simp [heq, beforeSwap]
  | start | entry | leave | swap | unlock | drop | keep | write | written | finish => rfl
  | lock now hq | waitSource now hq | waitReleased now hq | noWait now hq | waitLock now hq
  | waitEnter now hq | wake now hq | reacquireSource now hq | reacquireReleased now hq
  | waitUnlock now hq => simp [hq, beforeSwap] at hpc

/-- Before its swap the logging thread goes to its swap. -/
theorem beforeSwap_or_swap {s t : State} {a : Action}
    (hpc : beforeSwap s.pc = true) (hstep : step .released s a = some t) :
    beforeSwap t.pc = true ∨ s.pc = .swap ∧ t = swapBuffers s := by
  obtain ⟨-, htrans⟩ := trans_of_step hstep
  cases htrans with
  | swap now hswap => exact Or.inr ⟨hswap, rfl⟩
  | fault | startReturn | stop | stopReturn | callAppend | acquire | appendFits | appendFull
  | appendReturn => exact Or.inl hpc
  | lock | waitSource | waitReleased | noWait | waitLock | waitEnter | wake
  | reacquireSource | reacquireReleased | waitUnlock => exact Or.inl rfl
  | start hmain hq => simp [hq, beforeSwap] at hpc
  | entry now hq | again now hq | leave now hq | unlock now hq | drop now hq | keep now hq
  | write now i b hq | written now i hq | recycle now hq | finish now hq =>
      simp [hq, beforeSwap] at hpc

theorem appended_step {w : WaitForSeconds} {s t : State} {a : Action} (hs : Shape s)
    (hstep : step w s a = some t) : s.appended <+: t.appended := by
  obtain ⟨-, htrans⟩ := trans_of_step hstep
  cases htrans with
  | appendFits | appendFull => exact List.prefix_append _ _
  | recycle now hpc hf =>
      obtain ⟨b1, b2, -, -, heq⟩ := recycle_eq hs hpc
      rw [heq]
  | _ => exact List.prefix_rfl

/-- A swap takes every line appended so far. -/
theorem taken_swapBuffers {s : State} (h : Consistent s) (hpc : s.pc = .swap) :
    taken (swapBuffers s) = (s.appended.map stored).flatten := by
  rw [← h.conserved]
  simp [taken, outputBytes, unwritten, swapBuffers, pending, hpc]

theorem consistent_of_exec {s t : State} {bs : List Action} (h : Consistent s)
    (hbs : (machine .released).along batchShort s bs)
    (hexec : (machine .released).exec s bs = some t) :
    Consistent t ∧ s.appended <+: t.appended := by
  refine (machine .released).exec_invariant
    (I := fun r => Consistent r ∧ s.appended <+: r.appended) ?_ ⟨h, List.prefix_rfl⟩ hbs hexec
  rintro r a u ⟨hr, happended⟩ ha hstep
  exact ⟨consistent_step hr ha hstep, happended.trans (appended_step hr.shape hstep)⟩

section AfterStop

variable {s t : State} {bs : List Action}

/-- `stop` finds the logging thread outside the stretch from its test to its
swap: nothing more is taken. -/
theorem taken_eq_of_not_beforeSwap (h : Consistent s) (hstop : stopCalled s)
    (hpc : beforeSwap s.pc = false)
    (hbs : (machine .released).along batchShort s bs)
    (hexec : (machine .released).exec s bs = some t) : taken t = taken s := by
  have hinv : Consistent t ∧ stopCalled t ∧ beforeSwap t.pc = false ∧ taken t = taken s := by
    refine (machine .released).exec_invariant
      (I := fun r => Consistent r ∧ stopCalled r ∧ beforeSwap r.pc = false ∧
        taken r = taken s) ?_ ⟨h, hstop, hpc, rfl⟩ hbs hexec
    rintro r a u ⟨hr, hrstop, hrpc, htaken⟩ ha hstep
    have hswap : r.pc ≠ .swap := by
      intro hswap
      simp [hswap, beforeSwap] at hrpc
    exact ⟨consistent_step hr ha hstep, stopCalled_step hr.shape hrstop hstep,
      beforeSwap_step hr.shape hrstop hrpc hstep,
      (taken_step hr.shape ha hstep hswap).trans htaken⟩
  exact hinv.2.2.2

/-- `stop` finds the logging thread before its swap: what was appended by then
is taken, unless the thread is still before its swap. -/
theorem appended_prefix_taken_of_beforeSwap (h : Consistent s) (hpc : beforeSwap s.pc = true)
    (hbs : (machine .released).along batchShort s bs)
    (hexec : (machine .released).exec s bs = some t) (ht : beforeSwap t.pc = false) :
    (s.appended.map stored).flatten <+: taken t := by
  have hinv : Consistent t ∧ s.appended <+: t.appended ∧
      (beforeSwap t.pc = true ∨ (s.appended.map stored).flatten <+: taken t) := by
    refine (machine .released).exec_invariant
      (I := fun r => Consistent r ∧ s.appended <+: r.appended ∧
        (beforeSwap r.pc = true ∨ (s.appended.map stored).flatten <+: taken r)) ?_
      ⟨h, List.prefix_rfl, Or.inl hpc⟩ hbs hexec
    rintro r a u ⟨hr, happended, hor⟩ ha hstep
    have hu := consistent_step hr ha hstep
    refine ⟨hu, happended.trans (appended_step hr.shape hstep), ?_⟩
    by_cases hbefore : beforeSwap r.pc = true
    · rcases beforeSwap_or_swap hbefore hstep with hnext | ⟨hswap, rfl⟩
      · exact Or.inl hnext
      · right
        rw [taken_swapBuffers hr hswap]
        exact (happended.map stored).flatten
    · have hswap : r.pc ≠ .swap := by
        intro hswap
        simp [hswap, beforeSwap] at hbefore
      rw [taken_step hr.shape ha hstep hswap]
      exact Or.inr (hor.resolve_left hbefore)
  rcases hinv.2.2 with hbefore | htaken
  · simp [ht] at hbefore
  · exact htaken

end AfterStop

/-- Once `stop` has returned, everything taken has been written. -/
theorem taken_eq_outputBytes {s : State} (h : Consistent s) (hmain : s.main = .stopped) :
    taken s = outputBytes s := by
  simp [taken, unwritten, h.joined hmain]

/-- Of two readings of the same bytes, the first part of the one fits into the
first part of the other exactly when nothing but the second part is left
over. -/
theorem prefix_iff_eq_of_append_eq {α : Type*} {taken pending returned flight : List α}
    (h : taken ++ pending = returned ++ flight) (hflight : flight <:+ pending) :
    returned <+: taken ↔ pending = flight := by
  obtain ⟨rest, rfl⟩ := hflight
  constructor
  · rintro ⟨extra, rfl⟩
    have hlen := congrArg List.length h
    simp only [List.length_append] at hlen
    have hrest : rest = [] := List.length_eq_zero_iff.1 (by omega)
    rw [hrest, List.nil_append]
  · intro hpending
    have hrest : rest = [] := by simpa using hpending
    have htaken : taken = returned := by simpa [hrest] using h
    rw [htaken]

/-- The bytes that `append` kept of the returned lines are written when `stop`
returns exactly when the logging thread was before its swap, or nothing of them
was pending. -/
theorem stored_prefix_output_iff {bs : List Action} {s u : State} (hs : Consistent s)
    (hshort : (machine .released).along batchShort s (.stop :: bs))
    (hrun : (machine .released).exec s (.stop :: bs) = some u) (hret : u.main = .stopped) :
    (s.returned.map stored).flatten <+: outputBytes u ↔
      beforeSwap s.pc = true ∨ pending s = ((inFlight s).map stored).flatten := by
  obtain ⟨t, hstep, hbs⟩ := ((machine .released).exec_cons_eq_some_iff s .stop bs u).1 hrun
  have hrest := hshort t hstep
  have ht : Consistent t := consistent_step hs hrest.1 hstep
  have hu := (consistent_of_exec ht hrest.2 hbs).1
  obtain ⟨-, htrans⟩ := trans_of_step (w := .released) (s := s) (t := t) (a := .stop) hstep
  cases htrans with
  | fault _ f hf => exact absurd hf (not_faultAt hs.shape _ f)
  | stop hmain =>
      rw [← taken_eq_outputBytes hu hret]
      have hflight : (s.appended.map stored).flatten =
          (s.returned.map stored).flatten ++ ((inFlight s).map stored).flatten := by
        rw [hs.flight, List.map_append, List.flatten_append]
      cases hpc : beforeSwap s.pc with
      | false =>
          have htaken := taken_eq_of_not_beforeSwap ht ⟨rfl, Or.inl rfl⟩ hpc hrest.2 hbs
          have hstored : ((inFlight s).map stored).flatten <:+ pending s := by
            rw [pending, List.flatten_append, List.flatten_singleton]
            exact hs.kept.trans (List.suffix_append _ _)
          have hsame : taken { s with running := false, main := .stopping } = taken s := rfl
          rw [htaken, hsame]
          simpa using prefix_iff_eq_of_append_eq (hs.conserved.trans hflight) hstored
      | true =>
          have hend : beforeSwap u.pc = false := by simp [hu.joined hret, beforeSwap]
          have htaken := appended_prefix_taken_of_beforeSwap ht hpc hrest.2 hbs hend
          have hreturned : (s.returned.map stored).flatten <+: (s.appended.map stored).flatten := by
            rw [hflight]
            exact List.prefix_append _ _
          simpa using hreturned.trans htaken

/-- The first lines are passed whole exactly when no buffer is too small for one
of them and their bytes are written. -/
theorem passed_iff {lines : List (List UInt8)} {s : State} (h : Consistent s)
    (hlines : lines <+: s.appended) :
    passed lines s ↔ (∀ line ∈ lines, line.length ≤ kLargeBuffer) ∧
      (lines.map stored).flatten <+: outputBytes s := by
  constructor
  · rintro ⟨rest, hgroup⟩
    have hfit : ∀ line ∈ lines, line.length ≤ kLargeBuffer := by
      intro line hline
      by_cases hempty : line = []
      · simp [hempty]
      · obtain ⟨chunk, hchunk, hinfix⟩ := hgroup.exists_infix
          (List.mem_append_left rest (mem_nonempty.2 ⟨hline, hempty⟩))
        obtain ⟨r, hr, rfl⟩ := List.mem_map.1 hchunk
        obtain ⟨b, rfl⟩ := h.noNotice r hr
        calc line.length ≤ b.content.length := hinfix.length_le
          _ = b.length := b.length_content
          _ ≤ kLargeBuffer := b.cur_le
    refine ⟨hfit, ?_⟩
    rw [map_stored_of_length_le hfit, outputBytes, hgroup.flatten_eq, List.flatten_append,
      flatten_nonempty]
    exact List.prefix_append _ _
  · rintro ⟨hfit, hbytes⟩
    obtain ⟨l, hl⟩ := h.ledger
    obtain ⟨seen, hseen, hgroup⟩ := exists_grouping_output hl h.noNotice
    rw [outputBytes, hgroup.flatten_eq] at hbytes
    obtain ⟨rest, hrest⟩ :=
      nonempty_prefix_of_length_le (hlines.map stored) hseen hbytes.length_le
    rw [map_stored_of_length_le hfit] at hrest
    exact ⟨rest, hrest ▸ hgroup.nonempty⟩

/-- In every run without a batch of more than 25 buffers, let `s` be the state in
which `stop` is called and `u` a state in which it has returned. The lines whose
`append` had returned in `s` have been passed to the output in `u` exactly when
none of them is longer than a whole buffer and `stop` found the logging thread
between its test of `running_` and its swap, or found no byte in `buffers_` and
the current buffer but those of an `append` still under way. -/
theorem passed_returned_iff {as bs : List Action} {s u : State}
    (hshort : (machine .released).along batchShort create (as ++ .stop :: bs))
    (hexec : (machine .released).exec create as = some s)
    (hrun : (machine .released).exec s (.stop :: bs) = some u) (hret : u.main = .stopped) :
    passed s.returned u ↔ (∀ line ∈ s.returned, line.length ≤ kLargeBuffer) ∧
      (beforeSwap s.pc = true ∨ pending s = ((inFlight s).map stored).flatten) := by
  have hs := (consistent_of_exec consistent_create
    ((machine .released).along_append_left hshort) hexec).1
  have hrest := (machine .released).along_append_right hshort hexec
  obtain ⟨hu, happended⟩ := consistent_of_exec hs hrest hrun
  have hreturned : s.returned <+: u.appended := by
    refine List.IsPrefix.trans ?_ happended
    rw [hs.flight]
    exact List.prefix_append _ _
  rw [passed_iff hu hreturned, stored_prefix_output_iff hs hrest hrun hret]

/-- A line, and the logging thread on its way to the mutex. -/
def oneLineTaken : List Action :=
  [.start, .logger "", .startReturn, .callAppend 0 [65, 10], .acquire 0, .appendBody 0,
    .appendReturn 0, .logger ""]

/-- The logging thread from its lock to its end, and the return of `stop`. -/
def lastIteration : List Action :=
  [.logger "", .logger "", .logger "", .logger "", .logger "", .logger "", .logger "",
    .logger "", .logger "", .logger "", .logger "", .logger "", .stopReturn]

theorem passed_returned_oneLineTaken :
    ∃ s u, (machine .released).exec create oneLineTaken = some s ∧
      (machine .released).exec s (.stop :: lastIteration) = some u ∧
      s.returned = [[65, 10]] ∧ u.main = .stopped ∧ passed s.returned u := by
  have hrun : ∃ s u, (machine .released).exec create oneLineTaken = some s ∧
      (machine .released).exec s (.stop :: lastIteration) = some u ∧
      s.returned = [[65, 10]] ∧ u.main = .stopped ∧ beforeSwap s.pc = true :=
    ⟨_, _, rfl, rfl, rfl, rfl, rfl⟩
  obtain ⟨s, u, hs, hu, hreturned, hmain, hpc⟩ := hrun
  refine ⟨s, u, hs, hu, hreturned, hmain, ?_⟩
  exact (passed_returned_iff (by decide) hs hu hmain).2
    ⟨by simp [hreturned, kLargeBuffer], Or.inl hpc⟩

/-- A line, and the logging thread still before its first test. -/
def oneLineLeft : List Action :=
  [.start, .logger "", .startReturn, .callAppend 0 [65, 10], .acquire 0, .appendBody 0,
    .appendReturn 0]

/-- `stop` comes before the logging thread has looked at `running_` for the
first time, and the line is lost. -/
theorem not_passed_oneLineLeft :
    ¬ ∀ as bs s u, (machine .released).along batchShort create (as ++ .stop :: bs) →
      (machine .released).exec create as = some s →
      (machine .released).exec s (.stop :: bs) = some u → u.main = .stopped →
      passed s.returned u := by
  intro h
  have hrun : ∃ s u, (machine .released).exec create oneLineLeft = some s ∧
      (machine .released).exec s [.stop, .logger "", .logger "", .stopReturn] = some u ∧
      s.returned = [[65, 10]] ∧ u.main = .stopped ∧ u.output = [] :=
    ⟨_, _, rfl, rfl, rfl, rfl, rfl⟩
  obtain ⟨s, u, hs, hu, hreturned, hmain, houtput⟩ := hrun
  obtain ⟨rest, hgroup⟩ := h oneLineLeft [.logger "", .logger "", .stopReturn] s u
    (by decide) hs hu hmain
  have hmem : [65, 10] ∈ nonempty s.returned ++ rest :=
    List.mem_append_left rest (mem_nonempty.2 (by simp [hreturned]))
  obtain ⟨chunk, hchunk, -⟩ := hgroup.exists_infix hmem
  simp [houtput] at hchunk

end AsyncLogging

end Base

end SoL
