import SoL.Net.EventLoop.Machine

/-!
# Queued functors run once, in order

The functors called so far, the rest of the local vector of `doPendingFunctors`
and `pendingFunctors_`, read in this order, are all functors ever pushed, in the
order of the mutex. A call of `doPendingFunctors` works on the vector that it
swapped out and on nothing else, so it calls the functors pushed before its swap
and leaves those that a running functor queues to the next call.
-/

namespace SoL

namespace Net

namespace EventLoop

variable {Φ : Type*}

/-- The functors of the local vector that have not been called yet. -/
def rest (s : State Φ) : List Φ :=
  match s.pc with
  | .call i => s.functors.drop i
  | .inFunctor i => s.functors.drop (i + 1)
  | _ => []

/-- Nothing is lost, called twice or reordered. -/
def fifo (s : State Φ) : Prop :=
  s.executed ++ rest s ++ s.pendingFunctors = s.pushed

theorem fifo_create (channels : ChannelId → Channel) (wakeupChannel : ChannelId) :
    fifo (create Φ channels wakeupChannel) := rfl

theorem rest_eq_cons {s : State Φ} {i : ℕ} {f : Φ} (hpc : s.pc = .call i)
    (hf : s.functors[i]? = some f) : rest s = f :: s.functors.drop (i + 1) := by
  obtain ⟨hi, hget⟩ := List.getElem?_eq_some_iff.1 hf
  simp only [rest, hpc]
  rw [List.drop_eq_getElem_cons hi, hget]

theorem rest_eq_nil {s : State Φ} {i : ℕ} (hpc : s.pc = .call i)
    (hend : s.functors[i]? = none) : rest s = [] := by
  simpa [rest, hpc] using hend

/-- The places that `handleEvents` goes to are outside `doPendingFunctors`. -/
theorem rest_afterEvents {s : State Φ} {channel : Channel} {c : ChannelId}
    {active : List ChannelId} (hpc : s.pc = afterEvents channel c active) : rest s = [] := by
  unfold rest
  rw [hpc]
  unfold afterEvents
  cases channel.firstHandler with
  | some h => rfl
  | none => cases channel.reachesWrite <;> rfl

theorem rest_afterHandler {s : State Φ} {h : Handler} {c : ChannelId}
    {active : List ChannelId} (hpc : s.pc = afterHandler h c active) : rest s = [] := by
  unfold rest
  rw [hpc]
  cases h <;> rfl

theorem fifo_step {s t : State Φ} {a : Action Φ} (h : fifo s)
    (hstep : step s a = some t) : fifo t := by
  unfold fifo at h ⊢
  cases trans_of_step hstep with
  | push r f hout =>
      have hrest : rest { s with
          pendingFunctors := s.pendingFunctors ++ [f]
          pushed := s.pushed ++ [f]
          callers := Function.update s.callers r (.decide s.pushed.length) } = rest s := rfl
      rw [hrest, ← h]
      simp
  | decide | wake | user | accept => exact h
  | swap hpc =>
      have hbefore : rest s = [] := by simp [rest, hpc]
      rw [hbefore] at h
      simpa [rest] using h
  | call i f hpc hf =>
      rw [rest_eq_cons hpc hf] at h
      simpa [rest] using h
  | called i hpc hend =>
      rw [rest_eq_nil hpc hend] at h
      simpa [rest] using h
  | functorReturn i hpc => simpa [rest, hpc] using h
  | dispatch c active hpc =>
      rw [rest_afterEvents rfl]
      simpa [rest, hpc] using h
  | handlerReturn c g active hpc =>
      rw [rest_afterHandler rfl]
      simpa [rest, hpc] using h
  | testWrite c active hpc =>
      cases hwrite : (s.poller.channels c).handlesWrite <;>
        simpa [rest, hpc, hwrite] using h
  | enter hpc | dispatched hpc | setCalling hpc | pollReturn events hpc =>
      simpa [rest, hpc] using h

/-- The loop thread is between the swap of `doPendingFunctors` and its end. -/
def inCall (s : State Φ) : Prop :=
  (∃ i, s.pc = .call i) ∨ ∃ i, s.pc = .inFunctor i

instance (s : State Φ) : Decidable (inCall s) :=
  match h : s.pc with
  | .call i => isTrue (.inl ⟨i, h⟩)
  | .inFunctor i => isTrue (.inr ⟨i, h⟩)
  | .idle | .poll | .dispatch _ | .running _ _ _ | .testWrite _ _ | .setCalling | .swap =>
      isFalse (by simp [inCall, h])

/-- `doPendingFunctors` has called every functor of its vector. -/
def callDone (s : State Φ) : Prop :=
  ∃ i, s.pc = .call i ∧ s.functors[i]? = none

/-- Inside one call of `doPendingFunctors` the vector stays as it is, and a
functor moves from the rest to the executed ones when it is called. -/
theorem call_step {s t : State Φ} {a : Action Φ} (hs : inCall s) (ht : inCall t)
    (hstep : step s a = some t) :
    t.functors = s.functors ∧ t.executed ++ rest t = s.executed ++ rest s := by
  cases trans_of_step hstep with
  | push | decide | wake | user | accept => exact ⟨rfl, rfl⟩
  | call i f hpc hf =>
      refine ⟨rfl, ?_⟩
      rw [rest_eq_cons hpc hf]
      simp [rest]
  | functorReturn i hpc => exact ⟨rfl, by simp [rest, hpc]⟩
  | called i hpc hend => simp [inCall] at ht
  | enter hpc | dispatched hpc | setCalling hpc | swap hpc | pollReturn events hpc
  | dispatch c active hpc | handlerReturn c g active hpc | testWrite c active hpc =>
      simp [inCall, hpc] at hs

/-- In every reachable state the functors are executed once and in order, and a
call of `doPendingFunctors` that swaps in a reachable state `s` works off
exactly the functors pushed before: as long as it lasts, the executed functors
and the rest of its vector are those pushed in `s`, whatever is queued
meanwhile, and at its end they are all executed. -/
theorem fifo_of_exec {channels : ChannelId → Channel} {wakeupChannel : ChannelId}
    {as : List (Action Φ)} {s : State Φ}
    (hexec : (machine Φ).exec (create Φ channels wakeupChannel) as = some s) :
    fifo s ∧
      ∀ t bs u, s.pc = .swap → step s .loop = some t → (machine Φ).exec t bs = some u →
        (machine Φ).always inCall t bs →
          u.functors = s.pendingFunctors ∧ u.executed ++ rest u = s.pushed ∧
            (callDone u → u.executed = s.pushed) := by
  have hfifo : fifo s := (machine Φ).exec_invariant_of_step
    (fun _ _ _ h hstep => fifo_step h hstep) (fifo_create channels wakeupChannel) hexec
  refine ⟨hfifo, fun t bs u hpc hstep hrun hcall => ?_⟩
  have hstart : t.functors = s.pendingFunctors ∧ t.executed ++ rest t = s.pushed := by
    have hrest : rest s = [] := by simp [rest, hpc]
    rw [fifo, hrest, List.append_nil] at hfifo
    cases trans_of_step hstep with
    | swap => exact ⟨rfl, by simpa [rest] using hfifo⟩
    | enter hq | dispatched hq | setCalling hq | dispatch c active hq | testWrite c active hq
    | call i f hq | called i hq => simp [hpc] at hq
  have hend : u.functors = s.pendingFunctors ∧ u.executed ++ rest u = s.pushed :=
    (machine Φ).exec_invariant_of_always
      (I := fun r => r.functors = s.pendingFunctors ∧ r.executed ++ rest r = s.pushed)
      (fun r a q hr hin hout hq => by
        obtain ⟨hfunctors, hexecuted⟩ := call_step hin hout hq
        exact ⟨hfunctors.trans hr.1, hexecuted.trans hr.2⟩)
      hstart hcall hrun
  refine ⟨hend.1, hend.2, ?_⟩
  rintro ⟨i, hq, hnone⟩
  have hexecuted := hend.2
  rw [rest_eq_nil hq hnone, List.append_nil] at hexecuted
  exact hexecuted

/-- The functor 7 is queued from outside, and the loop comes to its swap. -/
def queueSeven : List (Action ℕ) :=
  [.push (.other 0) 7, .decide (.other 0), .wake (.other 0), .loop, .pollReturn [(4, EPOLLIN)],
    .loop, .ret, .loop, .loop, .loop]

/-- The functor 7, while it runs, queues the functor 8. -/
def requeue : List (Action ℕ) := queueSeven ++ [.loop, .loop, .push .loop 8]

/-- The rest of the call after the swap. -/
def requeueCall : List (Action ℕ) := [.loop, .push .loop 8, .decide .loop, .ret]

/-- The wakeup channel on descriptor 4. -/
def wakeupOnly : ChannelId → Channel := fun _ => Channel.new 4 false false false

theorem fifo_requeue :
    ∃ s t u, (machine ℕ).exec (create ℕ wakeupOnly 0) queueSeven = some s ∧ fifo s ∧
      s.pc = .swap ∧ step s .loop = some t ∧ (machine ℕ).exec t requeueCall = some u ∧
      callDone u ∧ u.functors = s.pendingFunctors ∧ u.executed = s.pushed ∧
      u.executed = [7] ∧ u.pendingFunctors = [8] := by
  have hrun : (((machine ℕ).exec (create ℕ wakeupOnly 0) queueSeven).bind fun s =>
      (step s .loop).bind fun t => ((machine ℕ).exec t requeueCall).map fun u =>
        (decide (s.pc = .swap ∧ (machine ℕ).always inCall t requeueCall ∧ u.pc = .call 1),
          u.functors, u.executed, u.pendingFunctors)) = some (true, [7], [7], [8]) := by
    decide +kernel
  obtain ⟨s, hs, hrun⟩ := Option.bind_eq_some_iff.1 hrun
  obtain ⟨t, ht, hrun⟩ := Option.bind_eq_some_iff.1 hrun
  obtain ⟨u, hu, hrun⟩ := Option.map_eq_some_iff.1 hrun
  simp only [Prod.mk.injEq, decide_eq_true_iff] at hrun
  obtain ⟨⟨hswap, hcall, hpc⟩, hfunctors, hexecuted, hpending⟩ := hrun
  have hdone : callDone u := ⟨1, hpc, by rw [hfunctors]; rfl⟩
  obtain ⟨hfifo, hcalls⟩ := fifo_of_exec hs
  obtain ⟨hvector, -, hall⟩ := hcalls t requeueCall u hswap ht hu hcall
  exact ⟨s, t, u, hs, hfifo, hswap, ht, hu, hdone, hvector, hall hdone, hexecuted, hpending⟩

end EventLoop

end Net

end SoL
