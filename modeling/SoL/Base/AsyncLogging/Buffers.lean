import SoL.Base.AsyncLogging.Step

/-!
# Who owns which buffer

Five places hold buffers: the current one, the next one, the full ones, the two
spares of the logging thread and the vector that it writes out. `Shape` says
which of them are filled at each point of `threadFunc`, that every buffer
waiting for its use is empty, and that a missing `nextBuffer_` means that some
`append` has pushed a full buffer since the last swap. This is what makes every
dereference and every assertion safe, so no fault is reachable
(`not_faultAt`), whatever `waitForSeconds` does.
-/

namespace SoL

namespace Base

namespace AsyncLogging

/-- The points at which the logging thread works on a batch. -/
def busy : LoggerPc → Bool
  | .unlock | .drop | .write _ | .recycle => true
  | _ => false

/-- The points at which `threadFunc` has not built its buffers yet. -/
def unborn : LoggerPc → Bool
  | .notStarted | .entry => true
  | _ => false

structure Shape (s : State) : Prop where
  fault : s.fault = none
  current : s.currentBuffer ≠ none
  full : none ∉ s.buffers
  batch : none ∉ s.buffersToWrite
  next : content s.nextBuffer = []
  next_null : s.nextBuffer = none → s.buffers ≠ []
  spare1 : content s.newBuffer1 = []
  spare2 : content s.newBuffer2 = []
  latch : unborn s.pc = true → s.latch = 1
  entry : s.pc = .entry → s.running = true ∧ s.main = .starting
  idle : unborn s.pc = false → busy s.pc = false →
    s.newBuffer1 ≠ none ∧ s.newBuffer2 ≠ none ∧ s.buffersToWrite = []
  work : busy s.pc = true →
    s.newBuffer1 = none ∧ s.buffersToWrite ≠ [] ∧
      (s.newBuffer2 = none → 2 ≤ s.buffersToWrite.length)

theorem shape_create : Shape create where
  fault := rfl
  current := by simp [create]
  full := by simp [create]
  batch := by simp [create]
  next := rfl
  next_null := by simp [create]
  spare1 := rfl
  spare2 := rfl
  latch := fun _ => rfl
  entry := by simp [create]
  idle := by simp [create, unborn]
  work := by simp [create, busy]

theorem content_some (b : Buffer) : content (some b) = b.content := rfl

theorem spareReady_eq_true {p : BufferPtr} (hp : p ≠ none) (hc : content p = []) :
    spareReady p = true := by
  cases p with
  | none => exact absurd rfl hp
  | some b =>
      have hlen : b.length = 0 := (b.content_eq_nil_iff).1 hc
      simp [spareReady, hlen]

/-- Taking a spare back succeeds on a vector without null pointers that is not
empty when it is needed, and gives an empty buffer. -/
theorem takeBack_eq_ok {spare : BufferPtr} {v : List BufferPtr}
    (hspare : content spare = []) (hnull : none ∉ v) (hv : spare = none → v ≠ []) :
    ∃ b, takeBack spare v = .ok (some b, if spare = none then v.dropLast else v) ∧
      b.content = [] := by
  cases spare with
  | some b => exact ⟨b, by simp [takeBack], hspare⟩
  | none =>
      obtain ⟨p, hp⟩ := Option.ne_none_iff_exists'.1
        (mt List.getLast?_eq_none_iff.1 (hv rfl))
      cases p with
      | none => exact absurd (List.mem_of_getLast? hp) hnull
      | some b => exact ⟨b.reset, by simp [takeBack, hp], b.content_reset⟩

/-- The end of the loop body, in a state of the right shape: the spares are
back and empty, the vector is cleared, nothing else changes. -/
theorem recycle_eq {s : State} (h : Shape s) (hpc : s.pc = .recycle) :
    ∃ b1 b2 : Buffer, b1.content = [] ∧ b2.content = [] ∧
      recycle s = { s with
        newBuffer1 := some b1
        newBuffer2 := some b2
        buffersToWrite := []
        pc := .head } := by
  obtain ⟨hspare1, hne, htwo⟩ := h.work (by simp [hpc, busy])
  set kept := if 2 < s.buffersToWrite.length then s.buffersToWrite.take 2
    else s.buffersToWrite with hkept
  have hnull : none ∉ kept := by
    rw [hkept]
    split
    · exact fun hmem => h.batch (List.mem_of_mem_take hmem)
    · exact h.batch
  have hlen : 1 ≤ kept.length ∧ (s.newBuffer2 = none → 2 ≤ kept.length) := by
    have hpos := List.length_pos_of_ne_nil hne
    rw [hkept]
    split
    · rw [List.length_take]
      omega
    · exact ⟨hpos, htwo⟩
  obtain ⟨b1, hb1, hc1⟩ := takeBack_eq_ok h.spare1 hnull
    (fun _ => List.ne_nil_of_length_pos hlen.1)
  have hleft : s.newBuffer2 = none → kept.dropLast ≠ [] := by
    intro h2
    apply List.ne_nil_of_length_pos
    rw [List.length_dropLast]
    have := hlen.2 h2
    omega
  obtain ⟨b2, hb2, hc2⟩ := takeBack_eq_ok h.spare2
    (fun hmem => hnull (List.mem_of_mem_dropLast hmem)) hleft
  refine ⟨b1, b2, hc1, hc2, ?_⟩
  rw [if_pos hspare1] at hb1
  simp only [recycle, ← hkept, hb1, hb2]

/-- No step from a state of the right shape runs into a fault. -/
theorem not_faultAt {s : State} (h : Shape s) (a : Action) (f : Fault) :
    ¬ FaultAt s a f := by
  intro hf
  cases hf with
  | append i line hcaller hnull => exact h.current hnull
  | entry now hpc hrun =>
      have := (h.entry hpc).1
      simp [hrun] at this
  | head now hpc hready =>
      obtain ⟨hn1, hn2, hempty⟩ := h.idle (by simp [hpc, unborn]) (by simp [hpc, busy])
      simp [spareReady_eq_true hn1 h.spare1, spareReady_eq_true hn2 h.spare2,
        hempty] at hready
  | drop now hpc hempty => exact (h.work (by simp [hpc, busy])).2.1 hempty
  | write now i hpc hnull => exact h.batch (List.mem_of_getElem? hnull)
  | recycle now f hpc hf =>
      obtain ⟨b1, b2, -, -, heq⟩ := recycle_eq h hpc
      simp [heq, h.fault] at hf

/-- A step of the logging thread between two points outside the work on a
batch, with all buffers left alone. -/
theorem Shape.move {s : State} (h : Shape s) {owner : Option Thread} {pc : LoggerPc}
    (hs : unborn s.pc = false ∧ busy s.pc = false)
    (ht : unborn pc = false ∧ busy pc = false) :
    Shape { s with owner := owner, pc := pc } where
  fault := h.fault
  current := h.current
  full := h.full
  batch := h.batch
  next := h.next
  next_null := h.next_null
  spare1 := h.spare1
  spare2 := h.spare2
  latch := fun hpc => by simp [ht.1] at hpc
  entry := fun hpc => by
    have : pc = .entry := hpc
    simp [this, unborn] at ht
  idle := fun _ _ => h.idle hs.1 hs.2
  work := fun hpc => by simp [ht.2] at hpc

/-- A step inside the work on a batch that leaves the buffers alone. -/
theorem Shape.proceed {s : State} (h : Shape s) {owner : Option Thread} {pc : LoggerPc}
    {output : List Record} (hs : busy s.pc = true) (ht : unborn pc = false ∧ busy pc = true) :
    Shape { s with owner := owner, output := output, pc := pc } where
  fault := h.fault
  current := h.current
  full := h.full
  batch := h.batch
  next := h.next
  next_null := h.next_null
  spare1 := h.spare1
  spare2 := h.spare2
  latch := fun hpc => by simp [ht.1] at hpc
  entry := fun hpc => by
    have : pc = .entry := hpc
    simp [this, unborn] at ht
  idle := fun _ hpc => by simp [ht.2] at hpc
  work := fun _ => h.work hs

theorem shape_swapBuffers {s : State} (h : Shape s) (hpc : s.pc = .swap) :
    Shape (swapBuffers s) := by
  obtain ⟨hn1, hn2, hempty⟩ := h.idle (by simp [hpc, unborn]) (by simp [hpc, busy])
  have hcur := h.current.symm
  refine ⟨h.fault, hn1, ?_, ?_, ?_, ?_, rfl, ?_, ?_, ?_, ?_, ?_⟩
  · simp [swapBuffers, hempty]
  · simpa [swapBuffers, h.full] using hcur
  · cases hnext : s.nextBuffer with
    | none => simpa [swapBuffers, hnext] using h.spare2
    | some b => simpa [swapBuffers, hnext] using h.next
  · cases hnext : s.nextBuffer with
    | none => simp [swapBuffers, hnext, hn2]
    | some b => simp [swapBuffers, hnext]
  · cases hnext : s.nextBuffer with
    | none => simp [swapBuffers, hnext, content]
    | some b => simpa [swapBuffers, hnext] using h.spare2
  · simp [swapBuffers, unborn]
  · simp [swapBuffers]
  · simp [swapBuffers, busy]
  · intro _
    refine ⟨rfl, by simp [swapBuffers], fun h2 => ?_⟩
    cases hnext : s.nextBuffer with
    | none =>
        have hpos : 1 ≤ s.buffers.length := List.length_pos_of_ne_nil (h.next_null hnext)
        simpa [swapBuffers] using hpos
    | some b => simp [swapBuffers, hnext, hn2] at h2

theorem shape_step {w : WaitForSeconds} {s t : State} {a : Action} (h : Shape s)
    (hstep : step w s a = some t) : Shape t := by
  obtain ⟨-, htrans⟩ := trans_of_step hstep
  cases htrans with
  | fault _ f hf => exact absurd hf (not_faultAt h a f)
  | start hmain hpc =>
      exact { h with
        latch := fun _ => h.latch (by simp [hpc, unborn])
        entry := fun _ => ⟨rfl, rfl⟩
        idle := by simp [unborn]
        work := by simp [busy] }
  | startReturn hmain hlatch =>
      refine { h with entry := fun hpc => ?_ }
      have := h.latch (by simp [show s.pc = .entry from hpc, unborn])
      simp [hlatch] at this
  | stop hmain =>
      refine { h with entry := fun hpc => ?_ }
      have := (h.entry hpc).2
      simp [hmain] at this
  | stopReturn hmain hpc => exact { h with entry := fun he => by simp [hpc] at he }
  | callAppend i line hcaller => exact { h with }
  | acquire i line hcaller howner => exact { h with }
  | appendFits i line b hcaller hcur hfit => exact { h with current := by simp }
  | appendFull i line b hcaller hcur hfit =>
      exact { h with
        current := by simp
        full := by simpa using h.full
        next := rfl
        next_null := by simp }
  | appendReturn i line hcaller => exact { h with }
  | entry now hpc hrun =>
      exact { h with
        batch := by simp
        spare1 := rfl
        spare2 := rfl
        latch := by simp [unborn]
        entry := by simp
        idle := by simp
        work := by simp [busy] }
  | again now hpc hrun => exact h.move (by simp [hpc, unborn, busy]) (by simp [unborn, busy])
  | leave now hpc hrun => exact h.move (by simp [hpc, unborn, busy]) (by simp [unborn, busy])
  | lock now hpc howner => exact h.move (by simp [hpc, unborn, busy]) (by simp [unborn, busy])
  | waitSource now hpc hempty hw =>
      exact h.move (by simp [hpc, unborn, busy]) (by simp [unborn, busy])
  | waitReleased now hpc hempty hw =>
      exact h.move (by simp [hpc, unborn, busy]) (by simp [unborn, busy])
  | noWait now hpc hempty => exact h.move (by simp [hpc, unborn, busy]) (by simp [unborn, busy])
  | waitLock now hpc howner => exact h.move (by simp [hpc, unborn, busy]) (by simp [unborn, busy])
  | waitEnter now hpc => exact h.move (by simp [hpc, unborn, busy]) (by simp [unborn, busy])
  | wake now hpc => exact h.move (by simp [hpc, unborn, busy]) (by simp [unborn, busy])
  | reacquireSource now hpc howner hw =>
      exact h.move (by simp [hpc, unborn, busy]) (by simp [unborn, busy])
  | reacquireReleased now hpc howner hw =>
      exact h.move (by simp [hpc, unborn, busy]) (by simp [unborn, busy])
  | waitUnlock now hpc => exact h.move (by simp [hpc, unborn, busy]) (by simp [unborn, busy])
  | swap now hpc => exact shape_swapBuffers h hpc
  | unlock now hpc => exact h.proceed (by simp [hpc, busy]) (by simp [unborn, busy])
  | drop now hpc hlong =>
      have hwork := h.work (by simp [hpc, busy])
      have hlen : (s.buffersToWrite.take 2).length = 2 := by
        rw [List.length_take]
        omega
      have hne : s.buffersToWrite.take 2 ≠ [] := by
        intro hnil
        simp [hnil] at hlen
      exact { h with
        batch := fun hmem => h.batch (List.mem_of_mem_take hmem)
        latch := by simp [unborn]
        entry := by simp
        idle := by simp [busy]
        work := fun _ => ⟨hwork.1, hne, fun _ => hlen.ge⟩ }
  | keep now hpc hempty hshort => exact h.proceed (by simp [hpc, busy]) (by simp [unborn, busy])
  | write now i b hpc hbuf => exact h.proceed (by simp [hpc, busy]) (by simp [unborn, busy])
  | written now i hpc hend => exact h.proceed (by simp [hpc, busy]) (by simp [unborn, busy])
  | recycle now hpc hf =>
      obtain ⟨b1, b2, hb1, hb2, heq⟩ := recycle_eq h hpc
      rw [heq]
      exact { h with
        batch := by simp
        spare1 := hb1
        spare2 := hb2
        latch := by simp [unborn]
        entry := by simp
        idle := by simp
        work := by simp [busy] }
  | finish now hpc => exact h.move (by simp [hpc, unborn, busy]) (by simp [unborn, busy])

/-- In no run does an assertion fail or a null pointer get dereferenced. -/
theorem shape_of_exec {w : WaitForSeconds} {as : List Action} {s : State}
    (h : (machine w).exec create as = some s) : Shape s :=
  (machine w).exec_invariant_of_step (fun _ _ _ hs hstep => shape_step hs hstep)
    shape_create h

/-- `buffersToWrite` after `resize(2)`. -/
def resized (v : List BufferPtr) : List BufferPtr := if 2 < v.length then v.take 2 else v

theorem resized_ne_nil {v : List BufferPtr} (h : v ≠ []) : resized v ≠ [] := by
  unfold resized
  split
  · rename_i hlong
    exact List.ne_nil_of_length_pos (by rw [List.length_take]; omega)
  · exact h

/-- The second spare finds a buffer after the first one has taken its own. -/
theorem ne_nil_of_takeBack {s : State} (h : Shape s) (hpc : s.pc = .recycle)
    {spare : BufferPtr} {left : List BufferPtr}
    (hfirst : takeBack s.newBuffer1 (resized s.buffersToWrite) = .ok (spare, left))
    (hsecond : s.newBuffer2 = none) : left ≠ [] := by
  rintro rfl
  have hassert : recycle s = { s with fault := some .assertTakeBack } := by
    unfold resized at hfirst
    simp only [recycle, hfirst, hsecond]
    rfl
  obtain ⟨b1, b2, -, -, hrecycle⟩ := recycle_eq h hpc
  have hfault := congrArg State.fault (hassert.symm.trans hrecycle)
  rw [h.fault] at hfault
  cases hfault

/-- In every run no assertion of `threadFunc` has failed and no null pointer has
been dereferenced. At the head of every iteration the spares are there and empty
and the vector is empty; after the swap the vector is not empty, and neither is
it when a spare is taken back from it; and `append` finds its buffer. -/
theorem assertions_of_exec {w : WaitForSeconds} {as : List Action} {s : State}
    (h : (machine w).exec create as = some s) :
    s.fault = none ∧
    (s.pc = .head → (∃ b : Buffer, s.newBuffer1 = some b ∧ b.length = 0) ∧
      (∃ b : Buffer, s.newBuffer2 = some b ∧ b.length = 0) ∧ s.buffersToWrite = []) ∧
    (s.pc = .unlock ∨ s.pc = .drop → s.buffersToWrite ≠ []) ∧
    (s.pc = .recycle →
      (s.newBuffer1 = none → resized s.buffersToWrite ≠ []) ∧
      ∀ spare left, takeBack s.newBuffer1 (resized s.buffersToWrite) = .ok (spare, left) →
        s.newBuffer2 = none → left ≠ []) ∧
    (∀ i line, s.callers i = .body line → ∃ b, s.currentBuffer = some b) := by
  have hshape := shape_of_exec h
  have hspare : ∀ p : BufferPtr, p ≠ none → content p = [] → ∃ b : Buffer,
      p = some b ∧ b.length = 0 := by
    intro p hp hempty
    obtain ⟨b, rfl⟩ := Option.ne_none_iff_exists'.1 hp
    exact ⟨b, rfl, (b.content_eq_nil_iff).1 hempty⟩
  refine ⟨hshape.fault, fun hpc => ?_, fun hpc => ?_, fun hpc => ⟨fun _ => ?_, ?_⟩,
    fun _ _ _ => Option.ne_none_iff_exists'.1 hshape.current⟩
  · obtain ⟨h1, h2, hempty⟩ := hshape.idle (by simp [hpc, unborn]) (by simp [hpc, busy])
    exact ⟨hspare _ h1 hshape.spare1, hspare _ h2 hshape.spare2, hempty⟩
  · have hbusy : busy s.pc = true := by
      obtain hpc | hpc := hpc
      · simp [hpc, busy]
      · simp [hpc, busy]
    exact (hshape.work hbusy).2.1
  · exact resized_ne_nil (hshape.work (by simp [hpc, busy])).2.1
  · exact fun spare left hfirst hsecond => ne_nil_of_takeBack hshape hpc hfirst hsecond

/-- A line has been stored, and the logging thread is at the head of its second
iteration. -/
def secondIteration : List Action :=
  [.callAppend 0 [65, 10], .acquire 0, .appendBody 0, .appendReturn 0, .start, .logger "",
    .logger "", .logger "", .logger "", .logger "", .logger "", .logger "", .logger "",
    .logger "", .logger "", .logger "", .logger ""]

theorem assertions_secondIteration :
    ∃ s, (machine .released).exec create secondIteration = some s ∧ s.pc = .head ∧
      s.output.length = 1 ∧ s.fault = none ∧ s.buffersToWrite = [] := by
  have hexec : ∃ s, (machine .released).exec create secondIteration = some s ∧ s.pc = .head ∧
      s.output.length = 1 := ⟨_, rfl, rfl, rfl⟩
  obtain ⟨s, hs, hpc, houtput⟩ := hexec
  have hassertions := assertions_of_exec hs
  exact ⟨s, hs, hpc, houtput, hassertions.1, (hassertions.2.1 hpc).2.2⟩

end AsyncLogging

end Base

end SoL
