import SoL.Base.AsyncLogging.Shutdown
import SoL.Base.LogFile.Rolling

/-!
# From the callers of the logger to the files

The logging thread has a `LogFile` of its own, which it creates when it starts and
which gets every buffer of every batch. `Pipeline` puts the two together: a step of
the logger that calls `output.append` is followed by what `LogFile` does with the
call, the rolls included, and the notice about dropped buffers is printed on the
standard error first, which may be redirected to a file of the log.

Whatever is dropped on the way, a file consists of whole lines and of notices, and
over all files no line comes twice or before one that was appended earlier
(`files_of_exec`). With space on the disk and without an oversized batch nothing is
dropped: the files hold the first lines, and the bytes of the others are in the
buffers (`files_exact_of_exec`).
-/

namespace SoL

namespace Base

open Container Sequence Transition

namespace LogFile

variable {cfg : LogFileConfig} {env : Readings} {s : LogFile} {lines : List (List UInt8)}

/-- What is printed on the standard error goes to the open file if it is redirected. -/
def printed (cfg : LogFileConfig) (text : List UInt8) : List (List UInt8) :=
  if cfg.dupStd then [text] else []

theorem Holds.print (h : Holds cfg env s lines)
    (hnames : Set.InjOn cfg.timebuf (Set.range env.clock)) (text : List UInt8) :
    Holds cfg env { s with directory := LogFile.print s.stderr s.directory text }
      (lines ++ printed cfg text) := by
  obtain ⟨earlier, current, hrolled, hlines⟩ := h
  cases hdup : cfg.dupStd with
  | false =>
      have hstderr : s.stderr = none := by rw [hrolled.stderr, hdup]; rfl
      refine ⟨earlier, current, { hrolled with directory := ?_ }, ?_⟩
      · simp only [hstderr, LogFile.print]
        exact hrolled.directory
      · simp [printed, hdup, hlines]
  | true =>
      have hstderr : s.stderr = some (getLogFileName cfg current.second) := by
        rw [hrolled.stderr, hdup]
        rfl
      refine ⟨earlier, { current with lines := current.lines ++ [text] },
        { hrolled with
          directory := ?_
          history := hrolled.history.replace rfl rfl
          probes := by simpa using hrolled.probes }, ?_⟩
      · simp only [hstderr, LogFile.print, hrolled.directory, List.map_append,
          List.map_singleton]
        rw [Roll.entry, Directory.write_concat (hrolled.notMem_names hnames)]
        simp [Roll.entry, Roll.content, hrolled.noticed]
      · simp [printed, hdup, ← hlines]

/-- With space on the disk writing is never forbidden. -/
theorem Holds.not_forbitWrite (h : Holds cfg env s lines) (hspace : ∀ n, env.low n = false) :
    s.forbitWrite = false := by
  obtain ⟨earlier, current, hrolled, -⟩ := h
  have hmem : current.low ∈ (earlier ++ [current]).map Roll.low :=
    List.mem_map_of_mem (by simp)
  rw [hrolled.history.space] at hmem
  obtain ⟨n, -, hn⟩ := List.mem_map.1 hmem
  rw [hrolled.forbitWrite, ← hn, hspace n]

/-- A file that ends with the notice of a roll is followed by one that was opened with
too little space. -/
theorem exists_low_of_noticed {rolls : List Roll} {current : Roll}
    (hchain : (rolls ++ [current]).IsChain fun r r' => r.noticed = (cfg.dupStd && r'.low))
    (hcurrent : current.noticed = false) {r : Roll} (hr : r ∈ rolls ++ [current])
    (hnoticed : r.noticed = true) : ∃ r' ∈ rolls ++ [current], r'.low = true := by
  induction rolls with
  | nil =>
      obtain rfl : r = current := by simpa using hr
      rw [hcurrent] at hnoticed
      cases hnoticed
  | cons q rolls ih =>
      rw [List.cons_append, List.isChain_cons] at hchain
      rcases List.mem_cons.1 hr with rfl | hr
      · -- The roll that wrote the notice is the next one.
        obtain ⟨next, hnext⟩ : ∃ next, (rolls ++ [current]).head? = some next := by
          cases rolls <;> exact ⟨_, rfl⟩
        have hlow := hchain.1 next hnext
        rw [hnoticed] at hlow
        refine ⟨next, List.mem_cons_of_mem _ (List.mem_of_head? hnext), ?_⟩
        exact (Bool.and_eq_true_iff.1 hlow.symm).2
      · obtain ⟨r', hr', hlow⟩ := ih hchain.2 hr
        exact ⟨r', List.mem_cons_of_mem _ hr', hlow⟩

theorem Rolled.exists_low {earlier : List Roll} {current : Roll}
    (h : Rolled cfg env s earlier current) {r : Roll} (hr : r ∈ earlier ++ [current])
    (hnoticed : r.noticed = true) : ∃ n, env.low n = true := by
  obtain ⟨r', hr', hlow⟩ := exists_low_of_noticed h.history.notices h.noticed hr hnoticed
  have hmem := List.mem_map_of_mem (f := Roll.low) hr'
  rw [h.history.space] at hmem
  obtain ⟨n, -, hn⟩ := List.mem_map.1 hmem
  exact ⟨n, hn.trans hlow⟩

end LogFile

/-- A piece of a file: a line of a caller or a buffer full of them, or a notice of the
logger itself. -/
inductive Text
  | line (bytes : List UInt8)
  | notice (bytes : List UInt8)

namespace Text

def bytes : Text → List UInt8
  | .line bs => bs
  | .notice bs => bs

def line? : Text → Option (List UInt8)
  | .line bs => some bs
  | .notice _ => none

/-- Buffers between notices can be read as the lines that they are made of. -/
theorem refine {lines : List (List UInt8)} {texts : List Text}
    (h : Grouping lines (texts.filterMap line?)) :
    ∃ fine : List Text, Grouping (fine.map bytes) (texts.map bytes) ∧
      fine.filterMap line? = lines ∧ ∀ t, .notice t ∈ fine → .notice t ∈ texts := by
  induction texts generalizing lines with
  | nil =>
      obtain ⟨groups, rfl, hgroups⟩ := h
      obtain rfl : groups = [] := by simpa using hgroups
      exact ⟨[], Grouping.nil, rfl, by simp⟩
  | cons text texts ih =>
      cases text with
      | line bs =>
          obtain ⟨groups, rfl, hgroups⟩ := h
          replace hgroups : groups.map List.flatten = bs :: texts.filterMap line? := hgroups
          obtain ⟨group, rest, rfl, rfl, hrest⟩ := List.map_eq_cons_iff.1 hgroups
          obtain ⟨fine, hfine, hlines, hnotices⟩ := ih ⟨rest, rfl, hrest⟩
          refine ⟨group.map line ++ fine, ?_, ?_, ?_⟩
          · rw [List.map_append, List.map_map]
            have hgroup := Grouping.flatten (group.map (bytes ∘ line))
            have hbytes : (group.map (bytes ∘ line)).flatten = group.flatten := by
              rw [show bytes ∘ line = id from rfl, List.map_id]
            rw [hbytes] at hgroup
            exact hgroup.append hfine
          · simp [List.filterMap_append, List.filterMap_map, Function.comp_def, line?, hlines]
          · intro t ht
            rcases List.mem_append.1 ht with ht | ht
            · simp at ht
            · exact List.mem_cons_of_mem _ (hnotices t ht)
      | notice bs =>
          rw [List.filterMap_cons_none rfl] at h
          obtain ⟨fine, hfine, hlines, hnotices⟩ := ih h
          refine ⟨notice bs :: fine, ?_, by rw [List.filterMap_cons_none rfl, hlines], ?_⟩
          · have hone := Grouping.flatten [bs]
            rw [List.flatten_singleton] at hone
            exact hone.append hfine
          · intro t ht
            rcases List.mem_cons.1 ht with ht | ht
            · exact ht ▸ List.mem_cons_self
            · exact List.mem_cons_of_mem _ (hnotices t ht)

end Text

namespace LogFile

variable {cfg : LogFileConfig} {env : Readings} {s : LogFile}

/-- The notice of the next roll at the end of a file. -/
def Roll.mark (r : Roll) : List Text := if r.noticed then [.notice notice] else []

/-- The files in order, where the lines of the rolls are some texts: the notices of the
rolls stand between them. -/
theorem exists_texts_of_rolls {rolls : List Roll} {texts : List Text}
    (h : rolls.flatMap Roll.lines = texts.map Text.bytes) :
    ∃ all : List Text, Grouping (all.map Text.bytes) (rolls.map Roll.content) ∧
      all.filterMap Text.line? = texts.filterMap Text.line? ∧
      ∀ t, .notice t ∈ all →
        .notice t ∈ texts ∨ t = notice ∧ ∃ r ∈ rolls, r.noticed = true := by
  induction rolls generalizing texts with
  | nil =>
      obtain rfl : texts = [] := by simpa using h.symm
      exact ⟨[], Grouping.nil, rfl, by simp⟩
  | cons r rolls ih =>
      rw [List.flatMap_cons] at h
      obtain ⟨first, last, rfl, hfirst, hlast⟩ := List.map_eq_append_iff.1 h.symm
      obtain ⟨all, hall, hlines, hnotices⟩ := ih hlast.symm
      refine ⟨first ++ r.mark ++ all, ?_, ?_, ?_⟩
      · have hcontent : ((first ++ r.mark).map Text.bytes).flatten = r.content := by
          rw [List.map_append, hfirst, Roll.content, List.flatten_append, Roll.mark]
          cases r.noticed <;> simp [Text.bytes]
        have hone := Grouping.flatten ((first ++ r.mark).map Text.bytes)
        rw [hcontent] at hone
        rw [List.map_append]
        exact hone.append hall
      · rw [List.filterMap_append, List.filterMap_append, List.filterMap_append, hlines,
          Roll.mark]
        cases r.noticed <;> simp [Text.line?]
      · intro t ht
        rcases List.mem_append.1 ht with ht | ht
        · rcases List.mem_append.1 ht with ht | ht
          · exact Or.inl (List.mem_append_left _ ht)
          · cases hnoticed : r.noticed with
            | false => simp [Roll.mark, hnoticed] at ht
            | true =>
                have htext : t = notice := by simpa [Roll.mark, hnoticed] using ht
                exact Or.inr ⟨htext, r, List.mem_cons_self, hnoticed⟩
        · rcases hnotices t ht with hold | ⟨htext, q, hq, hnoticed⟩
          · exact Or.inl (List.mem_append_right _ hold)
          · exact Or.inr ⟨htext, q, List.mem_cons_of_mem _ hq, hnoticed⟩

theorem Holds.exists_texts {texts : List Text} (h : Holds cfg env s (texts.map Text.bytes)) :
    ∃ all : List Text, Grouping (all.map Text.bytes) (s.directory.map Prod.snd) ∧
      all.filterMap Text.line? = texts.filterMap Text.line? ∧
      ∀ t, .notice t ∈ all → .notice t ∈ texts ∨ t = notice ∧ ∃ n, env.low n = true := by
  obtain ⟨earlier, current, hrolled, hlines⟩ := h
  obtain ⟨all, hall, hsame, hnotices⟩ := exists_texts_of_rolls hlines
  have hfiles : s.directory.map Prod.snd = (earlier ++ [current]).map Roll.content := by
    rw [hrolled.directory, List.map_map]
    rfl
  refine ⟨all, hfiles ▸ hall, hsame, fun t ht => ?_⟩
  rcases hnotices t ht with hold | ⟨htext, r, hr, hnoticed⟩
  · exact Or.inl hold
  · exact Or.inr ⟨htext, hrolled.exists_low hr hnoticed⟩

end LogFile

namespace AsyncLogging

/-- The contents of the buffer that a record hands over. -/
def Record.data? : Record → Option (List UInt8)
  | .notice _ _ => none
  | .buffer data => some data

/-- The logger and the `output` of its thread, which does not exist before the thread
runs. -/
structure Pipeline where
  logging : State
  output : Option LogFile

namespace Pipeline

section Model

variable (cfg : LogFileConfig) (env : Readings)

/-- One call of `output.append`. The notice about dropped buffers is printed on the
standard error before. `none` is a call without the object. -/
def deliver (output : Option LogFile) (r : Record) : Option (Option LogFile) := do
  let f ← output
  let f := match r with
    | .notice _ _ => { f with directory := LogFile.print f.stderr f.directory r.bytes }
    | .buffer _ => f
  return some (← f.append cfg env r.bytes)

/-- The calls of `output.append` in a step of the logger from `s` to `t`. -/
def calls (s t : State) : List Record := t.output.drop s.output.length

/-- A step of the logger, with what happens to its file. The object is created at the
entry of `threadFunc`. -/
def step (w : WaitForSeconds) (p : Pipeline) (a : Action) : Option Pipeline := do
  let t ← AsyncLogging.step w p.logging a
  let output := if p.logging.pc = .entry ∧ t.pc = .head then some (LogFile.create cfg env)
    else p.output
  return ⟨t, ← (calls p.logging t).foldlM (deliver cfg env) output⟩

def create : Pipeline := ⟨AsyncLogging.create, none⟩

def machine (w : WaitForSeconds) : Machine Pipeline Action where
  initial := fun p => p = create
  step := step cfg env w

end Model

section Invariant

variable {cfg : LogFileConfig} {env : Readings} {f : LogFile} {records : List Record}
  {texts : List Text}

/-- The files hold the texts, which are the buffers of the records in order and some
notices. With space on the disk no buffer is missing. -/
structure Carries (cfg : LogFileConfig) (env : Readings) (f : LogFile) (records : List Record)
    (texts : List Text) : Prop where
  holds : LogFile.Holds cfg env f (texts.map Text.bytes)
  buffers : (texts.filterMap Text.line?).Sublist (records.filterMap Record.data?)
  notices : ∀ t, .notice t ∈ texts →
    ∃ now n, .notice now n ∈ records ∧ t = (Record.notice now n).bytes
  complete : (∀ n, env.low n = false) →
    texts.filterMap Text.line? = records.filterMap Record.data?

/-- What is left of a text under `forbitWrite_`. -/
def admitted (f : LogFile) (t : Text) : List Text := if f.forbitWrite then [] else [t]

theorem map_bytes_admitted (f : LogFile) (t : Text) :
    (admitted f t).map Text.bytes = f.taken (.append t.bytes) := by
  unfold admitted LogFile.taken
  cases f.forbitWrite <;> rfl

theorem Carries.buffer (h : Carries cfg env f records texts) (hclock : Monotone env.clock)
    (hnames : Set.InjOn cfg.timebuf (Set.range env.clock)) (hcheck : 1 ≤ cfg.checkEveryN)
    (data : List UInt8) :
    ∃ f' texts', deliver cfg env (some f) (.buffer data) = some (some f') ∧
      Carries cfg env f' (records ++ [.buffer data]) texts' := by
  obtain ⟨f', hcall, hholds, -⟩ := h.holds.call hclock hnames hcheck (.append data)
  have hforbit := h.holds.not_forbitWrite
  refine ⟨f', texts ++ admitted f (.line data), ?_, ?_, ?_, ?_, ?_⟩
  · replace hcall : f.append cfg env data = some f' := hcall
    simp [deliver, Record.bytes, hcall]
  · rw [List.map_append, map_bytes_admitted]
    exact hholds
  · rw [List.filterMap_append, List.filterMap_append]
    refine h.buffers.append ?_
    unfold admitted
    cases f.forbitWrite <;> simp [Text.line?, Record.data?]
  · intro t ht
    rcases List.mem_append.1 ht with ht | ht
    · obtain ⟨now, n, hmem, rfl⟩ := h.notices t ht
      exact ⟨now, n, List.mem_append_left _ hmem, rfl⟩
    · unfold admitted at ht
      split at ht <;> simp at ht
  · intro hspace
    rw [List.filterMap_append, List.filterMap_append, h.complete hspace, admitted,
      hforbit hspace]
    rfl

/-- A notice goes to the standard error and to the file. -/
def announced (cfg : LogFileConfig) (f : LogFile) (text : List UInt8) : List Text :=
  (LogFile.printed cfg text).map .notice ++ admitted f (.notice text)

theorem map_bytes_announced (f : LogFile) (text : List UInt8) :
    (announced cfg f text).map Text.bytes =
      LogFile.printed cfg text ++ f.taken (.append text) := by
  rw [announced, List.map_append, List.map_map, map_bytes_admitted]
  simp [Function.comp_def, Text.bytes]

theorem eq_notice_of_mem_announced {text : List UInt8} {t : Text}
    (ht : t ∈ announced cfg f text) : t = .notice text := by
  unfold announced LogFile.printed admitted at ht
  rcases List.mem_append.1 ht with ht | ht
  · split at ht
    · simpa using ht
    · simp at ht
  · split at ht
    · simp at ht
    · simpa using ht

theorem filterMap_announced (f : LogFile) (text : List UInt8) :
    (announced cfg f text).filterMap Text.line? = [] := by
  refine List.filterMap_eq_nil_iff.2 fun t ht => ?_
  rw [eq_notice_of_mem_announced ht]
  rfl

theorem Carries.notice (h : Carries cfg env f records texts) (hclock : Monotone env.clock)
    (hnames : Set.InjOn cfg.timebuf (Set.range env.clock)) (hcheck : 1 ≤ cfg.checkEveryN)
    (now : String) (n : ℕ) :
    ∃ f' texts', deliver cfg env (some f) (.notice now n) = some (some f') ∧
      Carries cfg env f' (records ++ [.notice now n]) texts' := by
  obtain ⟨f', hcall, hholds, -⟩ := (h.holds.print hnames (Record.notice now n).bytes).call
    hclock hnames hcheck (.append (Record.notice now n).bytes)
  refine ⟨f', texts ++ announced cfg f (Record.notice now n).bytes, ?_, ?_, ?_, ?_, ?_⟩
  · simp only [LogFile.call] at hcall
    simp [deliver, hcall]
  · rw [List.map_append, map_bytes_announced, ← List.append_assoc]
    exact hholds
  · rw [List.filterMap_append, List.filterMap_append, filterMap_announced, List.append_nil]
    exact h.buffers.trans (List.sublist_append_left _ _)
  · intro t ht
    rcases List.mem_append.1 ht with ht | ht
    · obtain ⟨now', n', hmem, rfl⟩ := h.notices t ht
      exact ⟨now', n', List.mem_append_left _ hmem, rfl⟩
    · have htext := Text.notice.inj (eq_notice_of_mem_announced ht)
      exact ⟨now, n, by simp, htext⟩
  · intro hspace
    rw [List.filterMap_append, List.filterMap_append, filterMap_announced, h.complete hspace]
    rfl

theorem Carries.deliver (h : Carries cfg env f records texts) (hclock : Monotone env.clock)
    (hnames : Set.InjOn cfg.timebuf (Set.range env.clock)) (hcheck : 1 ≤ cfg.checkEveryN)
    (r : Record) :
    ∃ f' texts', deliver cfg env (some f) r = some (some f') ∧
      Carries cfg env f' (records ++ [r]) texts' := by
  cases r with
  | notice now n => exact h.notice hclock hnames hcheck now n
  | buffer data => exact h.buffer hclock hnames hcheck data

theorem carries_create (hpos : ∀ n, 0 < env.clock n) (hcheck : 1 ≤ cfg.checkEveryN) :
    Carries cfg env (LogFile.create cfg env) [] [] where
  holds := LogFile.holds_create hpos hcheck
  buffers := List.Sublist.refl []
  notices := by simp
  complete := fun _ => rfl

end Invariant

/-- A step of the logger starts its thread, or leaves the file alone, or makes one call
of `output.append` in the running thread. -/
theorem output_step {w : WaitForSeconds} {s t : State} {a : Action} (hs : Shape s)
    (hstep : AsyncLogging.step w s a = some t) :
    (s.pc = .entry ∧ t.pc = .head ∧ t.output = s.output) ∨
      (unborn t.pc = unborn s.pc ∧ t.output = s.output ∧ ¬ (s.pc = .entry ∧ t.pc = .head)) ∨
      (unborn s.pc = false ∧ unborn t.pc = false ∧ ∃ r, t.output = s.output ++ [r]) := by
  have hsame : ¬ (s.pc = .entry ∧ s.pc = .head) := by
    rintro ⟨hentry, hhead⟩
    rw [hentry] at hhead
    cases hhead
  obtain ⟨-, htrans⟩ := trans_of_step hstep
  cases htrans with
  | fault _ f hf => exact absurd hf (not_faultAt hs a f)
  | startReturn | stop | stopReturn | callAppend | acquire | appendFits | appendFull
  | appendReturn => exact Or.inr (Or.inl ⟨rfl, rfl, hsame⟩)
  | entry now hpc => exact Or.inl ⟨hpc, rfl, rfl⟩
  | drop now hpc | write now i b hpc =>
      exact Or.inr (Or.inr ⟨by simp [hpc, unborn], rfl, _, rfl⟩)
  | recycle now hpc hf =>
      obtain ⟨b1, b2, -, -, heq⟩ := recycle_eq hs hpc
      rw [heq]
      exact Or.inr (Or.inl ⟨by simp [hpc, unborn], rfl, by simp [hpc]⟩)
  | swap now hpc => exact Or.inr (Or.inl ⟨by simp [hpc, unborn, swapBuffers], rfl, by simp [hpc]⟩)
  | start hmain hpc => exact Or.inr (Or.inl ⟨by simp [hpc, unborn], rfl, by simp [hpc]⟩)
  | again now hpc | leave now hpc | lock now hpc | waitSource now hpc | waitReleased now hpc
  | noWait now hpc | waitLock now hpc | waitEnter now hpc | wake now hpc
  | reacquireSource now hpc | reacquireReleased now hpc | waitUnlock now hpc | unlock now hpc
  | keep now hpc | written now i hpc | finish now hpc =>
      exact Or.inr (Or.inl ⟨by simp [hpc, unborn], rfl, by simp [hpc]⟩)

section Run

variable {cfg : LogFileConfig} {env : Readings}

/-- The invariant: the file exists once the thread runs, and it has got every call. -/
structure Joined (cfg : LogFileConfig) (env : Readings) (s : State) (p : Pipeline) : Prop where
  logging : p.logging = s
  shape : Shape s
  ledger : ∃ l : Ledger, l.Accounts (s.appended.map stored) s
  absent : p.output = none → unborn s.pc = true ∧ s.output = []
  present : ∀ f, p.output = some f →
    unborn s.pc = false ∧ ∃ texts, Carries cfg env f s.output texts

theorem joined_create : Joined cfg env AsyncLogging.create create where
  logging := rfl
  shape := shape_create
  ledger := ⟨_, Ledger.accounts_create⟩
  absent := fun _ => ⟨rfl, rfl⟩
  present := by simp [create]

theorem step_eq {w : WaitForSeconds} {p : Pipeline} {t : State} {a : Action}
    {records : List Record} {before after : Option LogFile}
    (hstep : AsyncLogging.step w p.logging a = some t)
    (houtput : t.output = p.logging.output ++ records)
    (hbefore : (if p.logging.pc = .entry ∧ t.pc = .head then some (LogFile.create cfg env)
      else p.output) = before)
    (hafter : records.foldlM (deliver cfg env) before = some after) :
    step cfg env w p a = some ⟨t, after⟩ := by
  have hcalls : calls p.logging t = records := by rw [calls, houtput, List.drop_left]
  simp only [step, hstep, hcalls, hbefore, hafter, Option.bind_eq_bind, Option.bind_some]
  rfl

theorem Joined.step (hclock : Monotone env.clock) (hpos : ∀ n, 0 < env.clock n)
    (hnames : Set.InjOn cfg.timebuf (Set.range env.clock)) (hcheck : 1 ≤ cfg.checkEveryN)
    {w : WaitForSeconds} {s t : State} {a : Action} {p : Pipeline} (h : Joined cfg env s p)
    (hstep : AsyncLogging.step w s a = some t) :
    ∃ q, Pipeline.step cfg env w p a = some q ∧ Joined cfg env t q := by
  obtain ⟨rfl, hshape, ⟨l, hl⟩, habsent, hpresent⟩ := h
  have hshape' := shape_step hshape hstep
  have hledger := Ledger.accounts_step hl hshape hstep
  rcases output_step hshape hstep with ⟨hentry, hhead, hout⟩ | ⟨hborn, hout, hnew⟩ |
      ⟨hborn, hborn', r, hout⟩
  · -- The file is created.
    have hnone : p.logging.output = [] := by
      cases hp : p.output with
      | none => exact (habsent hp).2
      | some f =>
          have hborn := (hpresent f hp).1
          rw [hentry] at hborn
          cases hborn
    have hcalls : t.output = p.logging.output ++ [] := by rw [hout, List.append_nil]
    refine ⟨⟨t, some (LogFile.create cfg env)⟩, step_eq hstep hcalls
      (if_pos ⟨hentry, hhead⟩) rfl, rfl, hshape', hledger, by simp, ?_⟩
    intro f hf
    obtain rfl : LogFile.create cfg env = f := Option.some.inj hf
    refine ⟨by rw [hhead]; rfl, [], ?_⟩
    rw [hout, hnone]
    exact carries_create hpos hcheck
  · have hcalls : t.output = p.logging.output ++ [] := by rw [hout, List.append_nil]
    refine ⟨⟨t, p.output⟩, step_eq hstep hcalls (if_neg hnew) rfl, rfl, hshape', hledger, ?_, ?_⟩
    · intro hp
      rw [hborn, hout]
      exact habsent hp
    · intro f hf
      rw [hborn, hout]
      exact hpresent f hf
  · -- The file exists and gets the call.
    obtain ⟨f, hf⟩ : ∃ f, p.output = some f := by
      cases hp : p.output with
      | none =>
          rw [(habsent hp).1] at hborn
          cases hborn
      | some f => exact ⟨f, rfl⟩
    obtain ⟨-, texts, hcarries⟩ := hpresent f hf
    obtain ⟨f', texts', hdeliver, hcarries'⟩ := hcarries.deliver hclock hnames hcheck r
    have hnew : ¬ (p.logging.pc = .entry ∧ t.pc = .head) := by
      rintro ⟨hentry, -⟩
      rw [hentry] at hborn
      cases hborn
    refine ⟨⟨t, some f'⟩, step_eq hstep hout (if_neg hnew) ?_, rfl, hshape', hledger,
      by simp, ?_⟩
    · rw [hf, List.foldlM_cons, hdeliver]
      rfl
    · intro g hg
      obtain rfl : f' = g := Option.some.inj hg
      exact ⟨hborn', texts', hout ▸ hcarries'⟩

theorem joined_of_exec (hclock : Monotone env.clock) (hpos : ∀ n, 0 < env.clock n)
    (hnames : Set.InjOn cfg.timebuf (Set.range env.clock)) (hcheck : 1 ≤ cfg.checkEveryN)
    {w : WaitForSeconds} {as : List Action} {s : State}
    (hexec : (AsyncLogging.machine w).exec AsyncLogging.create as = some s) :
    ∃ p, (machine cfg env w).exec create as = some p ∧ Joined cfg env s p :=
  (AsyncLogging.machine w).exec_simulates (machine cfg env w) (P := fun _ _ => True)
    (fun _ _ _ _ hR _ hstep => hR.step hclock hpos hnames hcheck hstep) joined_create
    ((AsyncLogging.machine w).along_of_forall_mem (fun _ _ => trivial) _) hexec

/-- A batch hands over some of its buffers. -/
theorem sublist_of_rendered {batch : List (List UInt8)} {records : List Record}
    (h : Rendered batch records) : (records.filterMap Record.data?).Sublist batch := by
  obtain ⟨now, rfl⟩ := h
  have hnotice : (noticeFor now batch).filterMap Record.data? = [] := by
    unfold noticeFor
    split <;> rfl
  have hkept : (kept batch).Sublist batch := by
    unfold kept
    split
    · exact List.take_sublist 2 batch
    · exact List.Sublist.refl batch
  rw [List.filterMap_append, hnotice, List.nil_append, List.filterMap_map]
  have hdata : Record.data? ∘ Record.buffer = some := rfl
  rwa [hdata, List.filterMap_some]

theorem sublist_of_settled {settled : List (List (List UInt8))} {records : List (List Record)}
    (h : List.Forall₂ Rendered settled records) :
    (records.flatten.filterMap Record.data?).Sublist settled.flatten := by
  induction h with
  | nil => exact List.Sublist.refl []
  | cons hbatch _ ih =>
      rw [List.flatten_cons, List.flatten_cons, List.filterMap_append]
      exact (sublist_of_rendered hbatch).append ih

/-- The buffers handed over are some of those that the lines went through. -/
theorem exists_lines_of_accounts {l : Ledger} {lines : List (List UInt8)} {s : State}
    (h : l.Accounts lines s) {chunks : List (List UInt8)}
    (hchunks : chunks.Sublist (s.output.filterMap Record.data?)) :
    ∃ lines' : List (List UInt8), lines'.Sublist lines ∧ Grouping lines' chunks := by
  refine h.whole.sublist (hchunks.trans ?_)
  have hnotice : l.notice.filterMap Record.data? = [] := by
    cases hlate : late s.pc with
    | false => rw [(h.early hlate).1]; rfl
    | true =>
        obtain ⟨now, hnotice, -⟩ := h.underway hlate
        rw [hnotice]
        unfold noticeFor
        split <;> rfl
  have hdata : Record.data? ∘ Record.buffer = some := rfl
  rw [h.output, List.filterMap_append, List.filterMap_append, hnotice, List.nil_append,
    List.filterMap_map, hdata, List.filterMap_some, Ledger.batch, List.append_assoc]
  exact (sublist_of_settled h.settled).append (List.sublist_append_left _ _)

/-- What the files of the log consist of: whole lines in the order in which they were
stored, none of them twice, and the notices that a full disk or a full logger gave rise
to. -/
structure Faithful (env : Readings) (s : State) (f : LogFile) (texts : List Text) : Prop where
  files : Grouping (texts.map Text.bytes) (f.directory.map Prod.snd)
  lines : (texts.filterMap Text.line?).Sublist (s.appended.map stored)
  notices : ∀ t, .notice t ∈ texts → (t = LogFile.notice ∧ ∃ n, env.low n = true) ∨
    ∃ now n, .notice now n ∈ s.output ∧ t = (Record.notice now n).bytes

/-- Every run of the logger, in any interleaving, is one with files: the file exists as
soon as the thread runs, no call fails, and the files are faithful to the lines. -/
theorem files_of_exec (hclock : Monotone env.clock) (hpos : ∀ n, 0 < env.clock n)
    (hnames : Set.InjOn cfg.timebuf (Set.range env.clock)) (hcheck : 1 ≤ cfg.checkEveryN)
    {w : WaitForSeconds} {as : List Action} {s : State}
    (hexec : (AsyncLogging.machine w).exec AsyncLogging.create as = some s) :
    ∃ output, (machine cfg env w).exec create as = some ⟨s, output⟩ ∧
      output.isSome = !unborn s.pc ∧
      ∀ f, output = some f → ∃ texts, Faithful env s f texts := by
  obtain ⟨⟨s', output⟩, hrun, hjoined⟩ := joined_of_exec hclock hpos hnames hcheck hexec
  obtain rfl : s' = s := hjoined.logging
  refine ⟨output, hrun, ?_, ?_⟩
  · cases hout : output with
    | none => simp [(hjoined.absent hout).1]
    | some f => simp [(hjoined.present f hout).1]
  · intro f hf
    obtain ⟨-, texts, hcarries⟩ := hjoined.present f hf
    obtain ⟨all, hall, hsame, hnotices⟩ := hcarries.holds.exists_texts
    obtain ⟨l, hl⟩ := hjoined.ledger
    obtain ⟨lines, hsub, hlines⟩ := exists_lines_of_accounts hl hcarries.buffers
    rw [← hsame] at hlines
    obtain ⟨fine, hfine, rfl, hfrom⟩ := Text.refine hlines
    refine ⟨fine, hfine.trans hall, hsub, fun t ht => ?_⟩
    rcases hnotices t (hfrom t ht) with hold | hlow
    · exact Or.inr (hcarries.notices t hold)
    · exact Or.inl hlow

/-- One second, and space on the disk. -/
def steady : Readings where
  clock _ := 1
  available _ := 400 * 2 ^ 20

theorem injOn_steady (timebuf : ℤ → List UInt8) :
    Set.InjOn timebuf (Set.range steady.clock) := by
  rintro _ ⟨m, rfl⟩ _ ⟨n, rfl⟩ _
  rfl

/-- A line that is taken and written before `stop` returns. -/
def oneLineWritten : List Action := oneLineTaken ++ .stop :: lastIteration

theorem files_oneLineWritten :
    ∃ s, (AsyncLogging.machine .released).exec AsyncLogging.create oneLineWritten = some s ∧
      s.appended = [[65, 10]] ∧ ∃ output,
        (machine LogFile.redirected steady .released).exec create oneLineWritten =
          some ⟨s, output⟩ ∧
        output.isSome = !unborn s.pc ∧
        ∀ f, output = some f → ∃ texts, Faithful steady s f texts := by
  have hrun : ∃ s, (AsyncLogging.machine .released).exec AsyncLogging.create oneLineWritten =
      some s ∧ s.appended = [[65, 10]] := ⟨_, rfl, rfl⟩
  obtain ⟨s, hexec, happended⟩ := hrun
  exact ⟨s, hexec, happended, files_of_exec (fun _ _ _ => le_rfl) (fun _ => Int.one_pos)
    (injOn_steady _) (by decide) hexec⟩

theorem noNotice_of_exec {w : WaitForSeconds} {as : List Action} {s : State}
    (hshort : (AsyncLogging.machine w).along batchShort AsyncLogging.create as)
    (hexec : (AsyncLogging.machine w).exec AsyncLogging.create as = some s) : noNotice s := by
  have hinv : Shape s ∧ noNotice s := by
    refine (AsyncLogging.machine w).exec_invariant (I := fun r => Shape r ∧ noNotice r) ?_
      ⟨shape_create, by simp [noNotice, AsyncLogging.create]⟩ hshort hexec
    rintro r a t ⟨hr, hn⟩ ha hstep
    exact ⟨shape_step hr hstep, noNotice_step hr hn ha hstep⟩
  exact hinv.2

/-- Texts without a notice. -/
theorem map_bytes_of_noNotice {texts : List Text} (h : ∀ t, .notice t ∉ texts) :
    texts.map Text.bytes = texts.filterMap Text.line? := by
  induction texts with
  | nil => rfl
  | cons text texts ih =>
      have hrest := ih fun t ht => h t (List.mem_cons_of_mem _ ht)
      cases text with
      | line bs => simp [Text.bytes, Text.line?, hrest]
      | notice bs => exact absurd List.mem_cons_self (h bs)

theorem filterMap_data_of_noNotice {records : List Record}
    (h : ∀ r ∈ records, ∃ b : Buffer, r = .buffer b.content) :
    records.filterMap Record.data? = records.map Record.bytes := by
  induction records with
  | nil => rfl
  | cons r records ih =>
      obtain ⟨b, rfl⟩ := h r List.mem_cons_self
      have hrest := ih fun q hq => h q (List.mem_cons_of_mem _ hq)
      simp [Record.data?, Record.bytes, hrest]

/-- With space on the disk and without an oversized batch, the files in order consist of
the first lines, each as a whole in one file, and the bytes of all other lines are in the
buffers. -/
theorem files_exact_of_exec (hclock : Monotone env.clock) (hpos : ∀ n, 0 < env.clock n)
    (hnames : Set.InjOn cfg.timebuf (Set.range env.clock)) (hcheck : 1 ≤ cfg.checkEveryN)
    (hspace : ∀ n, env.low n = false) {w : WaitForSeconds} {as : List Action} {s : State}
    (hshort : (AsyncLogging.machine w).along batchShort AsyncLogging.create as)
    (hexec : (AsyncLogging.machine w).exec AsyncLogging.create as = some s) :
    ∃ output, (machine cfg env w).exec create as = some ⟨s, output⟩ ∧
      ∀ f, output = some f → ∃ seen unseen, s.appended.map stored = seen ++ unseen ∧
        Grouping seen (f.directory.map Prod.snd) ∧
        unseen.flatten = (unwritten s).flatten ++ pending s := by
  obtain ⟨⟨s', output⟩, hrun, hjoined⟩ := joined_of_exec hclock hpos hnames hcheck hexec
  obtain rfl : s' = s := hjoined.logging
  have hn := noNotice_of_exec hshort hexec
  refine ⟨output, hrun, fun f hf => ?_⟩
  obtain ⟨-, texts, hcarries⟩ := hjoined.present f hf
  obtain ⟨all, hall, hsame, hnotices⟩ := hcarries.holds.exists_texts
  have hquiet : ∀ t, .notice t ∉ all := by
    intro t ht
    rcases hnotices t ht with hold | ⟨-, n, hlow⟩
    · obtain ⟨now, n, hmem, -⟩ := hcarries.notices t hold
      obtain ⟨b, hb⟩ := hn _ hmem
      cases hb
    · rw [hspace n] at hlow
      cases hlow
  rw [map_bytes_of_noNotice hquiet, hsame, hcarries.complete hspace,
    filterMap_data_of_noNotice hn] at hall
  obtain ⟨l, hl⟩ := hjoined.ledger
  obtain ⟨seen, ⟨unseen, hlines⟩, hseen⟩ := exists_grouping_output hl hn
  refine ⟨seen, unseen, hlines.symm, hseen.trans hall, ?_⟩
  have hconserved := taken_append_pending hl hn
  rw [← hlines, List.flatten_append, ← hseen.flatten_eq, taken, outputBytes,
    List.append_assoc] at hconserved
  exact (List.append_cancel_left hconserved).symm

theorem files_exact_oneLineWritten :
    ∃ s, (AsyncLogging.machine .released).exec AsyncLogging.create oneLineWritten = some s ∧
      s.appended = [[65, 10]] ∧ ∃ output,
        (machine LogFile.redirected steady .released).exec create oneLineWritten =
          some ⟨s, output⟩ ∧
        ∀ f, output = some f → ∃ seen unseen, s.appended.map stored = seen ++ unseen ∧
          Grouping seen (f.directory.map Prod.snd) ∧
          unseen.flatten = (unwritten s).flatten ++ pending s := by
  have hrun : ∃ s, (AsyncLogging.machine .released).exec AsyncLogging.create oneLineWritten =
      some s ∧ s.appended = [[65, 10]] := ⟨_, rfl, rfl⟩
  obtain ⟨s, hexec, happended⟩ := hrun
  exact ⟨s, hexec, happended, files_exact_of_exec (fun _ _ _ => le_rfl) (fun _ => Int.one_pos)
    (injOn_steady _) (by decide) (fun _ => rfl) (by decide) hexec⟩

end Run

end Pipeline

end AsyncLogging

end Base

end SoL
