import SoL.Transition.Machine
import Mathlib.Tactic

/-!
# The life of a thread

The owner of a `Thread` starts it, joins it and destroys it, in any order that its assertions
allow; one that does not hold ends the program. `start` gives a `ThreadData` to the new
thread, which deletes it at its end; if there is no new thread, `start` deletes it, and may be
called again. The function of the thread returns after any time or never, and throws nothing.

In every interleaving each `ThreadData` is deleted once and not used after that, and the thread
is joined or detached, not both. After the destructor, when the thread has ended, nothing is
left (`released_of_exec`).
-/

namespace SoL

namespace Base

open Transition

namespace Thread

/-- Between the calls, or in `start` with the address of the `ThreadData`, or in `join`. -/
inductive OwnerPc
  | idle
  | creating (data : ℕ)
  | failed (data : ℕ)
  | deleting (data : ℕ)
  | joining
  | destroyed
  | aborted
  deriving DecidableEq

/-- `startThread`, before, in and after `runInThread`. -/
inductive ThreadPc
  | entry
  | running
  | deleting
  | exited
  deriving DecidableEq

structure Pthread where
  pc : ThreadPc
  obj : ℕ
  deriving DecidableEq

/-- The object with its owner, the `ThreadData` by their addresses, the threads by their ids,
and the ids that were joined and detached. -/
structure State where
  started : Bool
  joined : Bool
  pthreadId : Option ℕ
  owner : OwnerPc
  allocated : ℕ
  deleted : List ℕ
  threads : List Pthread
  joins : List (Option ℕ)
  detaches : List (Option ℕ)
  deriving DecidableEq

/-- A step of the owner, where `create` says whether `pthread_create` succeeds, or of a thread. -/
inductive Action
  | start
  | create (succeeds : Bool)
  | reset
  | delete
  | join
  | joinReturn
  | destroy
  | thread (id : ℕ)

/-- The constructor. -/
def new : State where
  started := false
  joined := false
  pthreadId := none
  owner := .idle
  allocated := 0
  deleted := []
  threads := []
  joins := []
  detaches := []

def startCall (s : State) : State :=
  if s.started then { s with owner := .aborted }
  else { s with started := true, owner := .creating s.allocated, allocated := s.allocated + 1 }

def joinCall (s : State) : State :=
  if !s.started || s.joined then { s with owner := .aborted }
  else { s with joined := true, owner := .joining, joins := s.joins ++ [s.pthreadId] }

/-- The destructor. -/
def destroyCall (s : State) : State :=
  if s.started && !s.joined then
    { s with owner := .destroyed, detaches := s.detaches ++ [s.pthreadId] }
  else { s with owner := .destroyed }

def threadStep (s : State) (id : ℕ) (p : Pthread) : Option State :=
  match p.pc with
  | .entry => some { s with threads := s.threads.set id ⟨.running, p.obj⟩ }
  | .running => some { s with threads := s.threads.set id ⟨.deleting, p.obj⟩ }
  | .deleting =>
      some { s with
        threads := s.threads.set id ⟨.exited, p.obj⟩
        deleted := s.deleted ++ [p.obj] }
  | .exited => none

/-- The thread that `pthreadId_` names has ended. -/
def hasExited (s : State) : Bool :=
  match s.pthreadId.bind fun id => s.threads[id]? with
  | some p => p.pc = .exited
  | none => false

def step (s : State) : Action → Option State
  | .start => if s.owner = .idle then some (startCall s) else none
  | .create succeeds =>
      match s.owner with
      | .creating data =>
          if succeeds then
            some { s with
              owner := .idle
              pthreadId := some s.threads.length
              threads := s.threads ++ [⟨.entry, data⟩] }
          else some { s with owner := .failed data }
      | _ => none
  | .reset =>
      match s.owner with
      | .failed data => some { s with started := false, owner := .deleting data }
      | _ => none
  | .delete =>
      match s.owner with
      | .deleting data => some { s with owner := .idle, deleted := s.deleted ++ [data] }
      | _ => none
  | .join => if s.owner = .idle then some (joinCall s) else none
  | .joinReturn =>
      if s.owner = .joining ∧ hasExited s = true then some { s with owner := .idle } else none
  | .destroy => if s.owner = .idle then some (destroyCall s) else none
  | .thread id =>
      if s.owner = .aborted then none else s.threads[id]?.bind fun p => threadStep s id p

def machine : Machine State Action where
  initial := fun s => s = new
  step := step

/-- The `ThreadData` that the owner has to delete. -/
def OwnerPc.held : OwnerPc → List ℕ
  | .creating data | .failed data | .deleting data => [data]
  | .idle | .joining | .destroyed | .aborted => []

/-- In `start`, before `started_` is taken back. -/
def OwnerPc.starting : OwnerPc → Bool
  | .creating _ | .failed _ => true
  | .idle | .deleting _ | .joining | .destroyed | .aborted => false

def Pthread.held (p : Pthread) : List ℕ := if p.pc = .exited then [] else [p.obj]

/-- The `ThreadData` that are not deleted. -/
def held (s : State) : List ℕ := s.owner.held ++ s.threads.flatMap Pthread.held

def released (s : State) : List (Option ℕ) := s.joins ++ s.detaches

/-- Before a thread is created. -/
structure Unborn (s : State) : Prop where
  threads : s.threads = []
  joined : s.joined = false
  started : s.started = s.owner.starting
  released : released s = []

/-- After a thread has been created. -/
structure Born (s : State) (p : Pthread) : Prop where
  threads : s.threads = [p]
  owner : s.owner.held = []
  pthreadId : s.pthreadId = some 0
  started : s.started = true
  released : released s = if s.joined || s.owner = .destroyed then [some 0] else []

/-- The invariant: the `ThreadData` are deleted in the order in which they are allocated. -/
structure Kept (s : State) : Prop where
  memory : s.deleted ++ held s = List.range s.allocated
  born : Unborn s ∨ ∃ p, Born s p

section

variable {s t : State} {p : Pthread} {a : Action}

theorem kept_new : Kept new := ⟨rfl, .inl ⟨rfl, rfl, rfl, rfl⟩⟩

theorem Unborn.kept (h : Unborn s) (hmemory : s.deleted ++ s.owner.held = List.range s.allocated) :
    Kept s := by
  refine ⟨?_, .inl h⟩
  rw [held, h.threads, List.flatMap_nil, List.append_nil]
  exact hmemory

theorem Born.kept (h : Born s p) (hmemory : s.deleted ++ p.held = List.range s.allocated) :
    Kept s := by
  refine ⟨?_, .inr ⟨p, h⟩⟩
  rw [held, h.threads, h.owner, List.nil_append, List.flatMap_singleton]
  exact hmemory

theorem Unborn.memory (h : Unborn s) (hs : Kept s) :
    s.deleted ++ s.owner.held = List.range s.allocated := by
  have hmemory := hs.memory
  rwa [held, h.threads, List.flatMap_nil, List.append_nil] at hmemory

theorem Born.memory (h : Born s p) (hs : Kept s) :
    s.deleted ++ p.held = List.range s.allocated := by
  have hmemory := hs.memory
  rwa [held, h.threads, h.owner, List.nil_append, List.flatMap_singleton] at hmemory

/-- The steps before there is a thread. -/
theorem Unborn.step (h : Unborn s) (hs : Kept s) (hstep : step s a = some t) : Kept t := by
  have hmemory := h.memory hs
  have hstarted := h.started
  cases a with
  | start =>
      obtain ⟨hidle, ⟨⟩⟩ := Option.ite_none_right_eq_some.1 hstep
      rw [hidle] at hstarted hmemory
      have hcall : startCall s = { s with
          started := true
          owner := .creating s.allocated
          allocated := s.allocated + 1 } := if_neg (by simp [hstarted, OwnerPc.starting])
      rw [hcall]
      refine Unborn.kept ⟨h.threads, h.joined, rfl, h.released⟩ ?_
      change s.deleted ++ [s.allocated] = List.range (s.allocated + 1)
      rw [List.range_succ, ← hmemory]
      simp [OwnerPc.held]
  | create succeeds =>
      cases howner : s.owner with
      | creating data =>
          rw [howner] at hstarted hmemory
          simp only [Thread.step, howner] at hstep
          cases succeeds with
          | true =>
              cases hstep
              refine Born.kept (p := ⟨.entry, data⟩) ⟨?_, rfl, ?_, hstarted, ?_⟩ hmemory
              · simp [h.threads]
              · simp [h.threads]
              · exact h.released.trans (if_neg (by simp [h.joined])).symm
          | false =>
              cases hstep
              exact Unborn.kept ⟨h.threads, h.joined, hstarted, h.released⟩ hmemory
      | idle | failed | deleting | joining | destroyed | aborted =>
          simp [Thread.step, howner] at hstep
  | reset =>
      cases howner : s.owner with
      | failed data =>
          rw [howner] at hmemory
          simp only [Thread.step, howner] at hstep
          cases hstep
          exact Unborn.kept ⟨h.threads, h.joined, rfl, h.released⟩ hmemory
      | idle | creating | deleting | joining | destroyed | aborted =>
          simp [Thread.step, howner] at hstep
  | delete =>
      cases howner : s.owner with
      | deleting data =>
          rw [howner] at hstarted hmemory
          simp only [Thread.step, howner] at hstep
          cases hstep
          refine Unborn.kept ⟨h.threads, h.joined, hstarted, h.released⟩ ?_
          exact (List.append_nil _).trans hmemory
      | idle | creating | failed | joining | destroyed | aborted =>
          simp [Thread.step, howner] at hstep
  | join =>
      obtain ⟨hidle, ⟨⟩⟩ := Option.ite_none_right_eq_some.1 hstep
      rw [hidle] at hstarted hmemory
      have hcall : joinCall s = { s with owner := .aborted } :=
        if_pos (by simp [hstarted, OwnerPc.starting])
      rw [hcall]
      exact Unborn.kept ⟨h.threads, h.joined, hstarted, h.released⟩ hmemory
  | joinReturn =>
      obtain ⟨⟨-, hexited⟩, -⟩ := Option.ite_none_right_eq_some.1 hstep
      cases hid : s.pthreadId <;> simp [hasExited, hid, h.threads] at hexited
  | destroy =>
      obtain ⟨hidle, ⟨⟩⟩ := Option.ite_none_right_eq_some.1 hstep
      rw [hidle] at hstarted hmemory
      have hcall : destroyCall s = { s with owner := .destroyed } :=
        if_neg (by simp [hstarted, OwnerPc.starting])
      rw [hcall]
      exact Unborn.kept ⟨h.threads, h.joined, hstarted, h.released⟩ hmemory
  | thread id =>
      obtain ⟨-, hthread⟩ := Option.ite_none_left_eq_some.1 hstep
      simp [h.threads] at hthread

/-- The owner goes on, and the thread is neither joined nor detached by that. -/
theorem Born.setOwner (h : Born s p) (hs : Kept s) {pc : OwnerPc} (hheld : pc.held = [])
    (hsame : s.joined = true ∨ s.owner ≠ .destroyed ∧ pc ≠ .destroyed) :
    Kept { s with owner := pc } := by
  refine Born.kept ⟨h.threads, hheld, h.pthreadId, h.started, ?_⟩ (h.memory hs)
  refine h.released.trans ?_
  obtain hjoined | ⟨howner, hpc⟩ := hsame
  · simp [hjoined]
  · simp [howner, hpc]

/-- The steps of the thread. -/
theorem Born.threadStep (h : Born s p) (hs : Kept s) (hstep : threadStep s 0 p = some t) :
    Kept t := by
  have hmemory := h.memory hs
  have hset : ∀ q, s.threads.set 0 q = [q] := fun q => by rw [h.threads]; rfl
  unfold Thread.threadStep at hstep
  cases hpc : p.pc with
  | exited => simp [hpc] at hstep
  | entry | running =>
      simp only [hpc] at hstep
      cases hstep
      refine Born.kept ⟨hset _, h.owner, h.pthreadId, h.started, h.released⟩ ?_
      simpa [Pthread.held, hpc] using hmemory
  | deleting =>
      simp only [hpc] at hstep
      cases hstep
      refine Born.kept ⟨hset _, h.owner, h.pthreadId, h.started, h.released⟩ ?_
      simpa [Pthread.held, hpc] using hmemory

/-- The steps once there is a thread. -/
theorem Born.step (h : Born s p) (hs : Kept s) (hstep : step s a = some t) : Kept t := by
  have hmemory := h.memory hs
  have hreleased := h.released
  have howner := h.owner
  cases a with
  | start =>
      obtain ⟨hidle, ⟨⟩⟩ := Option.ite_none_right_eq_some.1 hstep
      have hcall : startCall s = { s with owner := .aborted } := if_pos h.started
      rw [hcall]
      exact h.setOwner hs rfl (.inr ⟨by simp [hidle], nofun⟩)
  | create succeeds =>
      cases hpc : s.owner <;> simp [hpc, OwnerPc.held, Thread.step] at howner hstep
  | reset => cases hpc : s.owner <;> simp [hpc, OwnerPc.held, Thread.step] at howner hstep
  | delete => cases hpc : s.owner <;> simp [hpc, OwnerPc.held, Thread.step] at howner hstep
  | join =>
      obtain ⟨hidle, ⟨⟩⟩ := Option.ite_none_right_eq_some.1 hstep
      cases hjoined : s.joined with
      | true =>
          have hcall : joinCall s = { s with owner := .aborted } := if_pos (by simp [hjoined])
          rw [hcall]
          exact h.setOwner hs rfl (.inl hjoined)
      | false =>
          have hcall : joinCall s = { s with
              joined := true
              owner := .joining
              joins := s.joins ++ [s.pthreadId] } := if_neg (by simp [hjoined, h.started])
          rw [hcall]
          refine Born.kept ⟨h.threads, rfl, h.pthreadId, h.started, ?_⟩ hmemory
          obtain ⟨hjoins, hdetaches⟩ : s.joins = [] ∧ s.detaches = [] := by
            simpa [hjoined, hidle, Thread.released] using hreleased
          simp [Thread.released, hjoins, hdetaches, h.pthreadId]
  | joinReturn =>
      obtain ⟨⟨hjoining, -⟩, ⟨⟩⟩ := Option.ite_none_right_eq_some.1 hstep
      exact h.setOwner hs rfl (.inr ⟨by simp [hjoining], nofun⟩)
  | destroy =>
      obtain ⟨hidle, ⟨⟩⟩ := Option.ite_none_right_eq_some.1 hstep
      cases hjoined : s.joined with
      | true =>
          have hcall : destroyCall s = { s with owner := .destroyed } := if_neg (by simp [hjoined])
          rw [hcall]
          exact h.setOwner hs rfl (.inl hjoined)
      | false =>
          have hcall : destroyCall s = { s with
              owner := .destroyed
              detaches := s.detaches ++ [s.pthreadId] } := if_pos (by simp [hjoined, h.started])
          rw [hcall]
          refine Born.kept ⟨h.threads, rfl, h.pthreadId, h.started, ?_⟩ hmemory
          obtain ⟨hjoins, hdetaches⟩ : s.joins = [] ∧ s.detaches = [] := by
            simpa [hjoined, hidle, Thread.released] using hreleased
          simp [Thread.released, hjoins, hdetaches, h.pthreadId]
  | thread id =>
      obtain ⟨-, hthread⟩ := Option.ite_none_left_eq_some.1 hstep
      obtain ⟨q, hq, hstepq⟩ := Option.bind_eq_some_iff.1 hthread
      rw [h.threads] at hq
      obtain ⟨rfl, rfl⟩ : id = 0 ∧ p = q := by
        cases id with
        | zero => exact ⟨rfl, Option.some.inj hq⟩
        | succ id => cases hq
      exact h.threadStep hs hstepq

theorem kept_step (hs : Kept s) (hstep : step s a = some t) : Kept t := by
  obtain h | ⟨p, h⟩ := hs.born
  · exact h.step hs hstep
  · exact h.step hs hstep

/-- In every interleaving of the owner and the thread, every `ThreadData` is deleted at most
once, and none that a thread still uses; at most one thread is created, and it is joined or
detached at most once. When the object is destroyed and no thread runs, every `ThreadData` has
been deleted, and a thread that was created has been joined or detached. -/
theorem released_of_exec {as : List Action} (h : machine.exec new as = some s) :
    s.deleted.Nodup ∧ (∀ p ∈ s.threads, p.pc ≠ .exited → p.obj ∉ s.deleted) ∧
      s.threads.length ≤ 1 ∧ (released s).Sublist (s.threads.map fun _ => some 0) ∧
      (s.owner = .destroyed → (∀ p ∈ s.threads, p.pc = .exited) →
        s.deleted = List.range s.allocated ∧ released s = s.threads.map fun _ => some 0) := by
  have hs : Kept s := machine.exec_invariant_of_step (fun _ _ _ hs hstep => kept_step hs hstep)
    kept_new h
  have hmemory := hs.memory
  have hnodup : (s.deleted ++ held s).Nodup := hmemory ▸ List.nodup_range
  obtain ⟨hdeleted, -, hdisjoint⟩ := List.nodup_append'.1 hnodup
  refine ⟨hdeleted, fun p hp hpc hmem => ?_, ?_⟩
  · have hobj : p.obj ∈ held s :=
      List.mem_append_right _ (List.mem_flatMap.2 ⟨p, hp, by simp [Pthread.held, hpc]⟩)
    exact hdisjoint hmem hobj
  · obtain h | ⟨p, h⟩ := hs.born
    · rw [h.threads, h.released]
      refine ⟨Nat.zero_le 1, .slnil, fun howner _ => ⟨?_, rfl⟩⟩
      have hall := h.memory hs
      rwa [howner, OwnerPc.held, List.append_nil] at hall
    · rw [h.threads, h.released]
      refine ⟨le_rfl, ?_, fun howner hexited => ⟨?_, by simp [howner]⟩⟩
      · split
        · exact .refl _
        · exact List.nil_sublist _
      · have hall := h.memory hs
        have hpc : p.pc = .exited := hexited p (List.mem_singleton_self p)
        rwa [Pthread.held, if_pos hpc, List.append_nil] at hall

/-- `pthread_create` fails and then succeeds, and the object is destroyed while the thread
runs. -/
def detached : List Action :=
  [.start, .create false, .reset, .delete, .start, .create true, .thread 0, .destroy, .thread 0,
    .thread 0]

theorem released_detached :
    ∃ s, machine.exec new detached = some s ∧ s.deleted = List.range 2 ∧
      released s = s.threads.map fun _ => some 0 := by
  have hexec : machine.exec new detached = some _ := rfl
  obtain ⟨-, -, -, -, hrest⟩ := released_of_exec hexec
  exact ⟨_, hexec, hrest rfl (by decide)⟩

end

end Thread

end Base

end SoL
