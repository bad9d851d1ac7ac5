import SoL.Net.EventLoop.Functors

/-!
# How long a functor waits

The loop thread works off one vector of functors at a time and looks at the active
channels in between, of which there are at most `EVENTSNUM`. So a functor that has been
queued is called after a bounded number of steps of the loop thread, whatever is queued
behind it, by other threads or by the functors that run before it (`latency_of_exec`).
Before it runs `epoll_wait` returns at most once. That `epoll_wait` returns at all is the
business of the wakeups.
-/

namespace SoL

namespace Net

namespace EventLoop

open Transition

variable {Φ : Type*}

/-- A step of the loop thread that is not a call of the user's code. -/
def byLoop : Action Φ → Bool
  | .loop | .ret | .pollReturn _ => true
  | _ => false

def isPollReturn : Action Φ → Bool
  | .pollReturn _ => true
  | _ => false

/-- The active channels that are left. -/
def activeLeft : LoopPc → ℕ
  | .dispatch rest | .running _ _ rest | .testWrite _ rest => rest.length
  | _ => 0

/-- The steps of the loop thread from `epoll_wait` to the swap, at most: four for a channel
with a read and a write handler. -/
def pollToSwap : ℕ := 4 * EVENTSNUM + 4

/-- The steps of the loop thread to its next swap, at most. -/
def toSwap (s : State Φ) : ℕ :=
  match s.pc with
  | .swap => 1
  | .setCalling => 2
  | .dispatch rest => 4 * rest.length + 3
  | .running _ .read rest => 4 * rest.length + 6
  | .running _ _ rest => 4 * rest.length + 4
  | .testWrite _ rest => 4 * rest.length + 5
  | .poll => pollToSwap
  | .idle => pollToSwap + 1
  | .call _ => pollToSwap + 2 * (rest s).length + 1
  | .inFunctor _ => pollToSwap + 2 * (rest s).length + 2

/-- The steps of the loop thread to its next call of a functor of the vector. -/
def toCall : LoopPc → ℕ
  | .call _ => 1
  | .inFunctor _ => 2
  | _ => 0

/-- The steps of the loop thread until the functor at position `k` is called. -/
def delay (k : ℕ) (s : State Φ) : ℕ :=
  if k < s.executed.length + (rest s).length then 2 * (k - s.executed.length) + toCall s.pc
  else toSwap s + 2 * (k - s.executed.length - (rest s).length) + 1

/-- The returns of `epoll_wait` before the next swap. -/
def pollsToSwap : LoopPc → ℕ
  | .idle | .poll | .call _ | .inFunctor _ => 1
  | _ => 0

/-- The returns of `epoll_wait` until the functor at position `k` is called. -/
def pollsLeft (k : ℕ) (s : State Φ) : ℕ :=
  if k < s.executed.length + (rest s).length then 0 else pollsToSwap s.pc

/-- The functor at position `k` has been queued, and the batch is not too long. -/
structure Queued (k : ℕ) (s : State Φ) : Prop where
  fifo : fifo s
  active : activeLeft s.pc ≤ EVENTSNUM
  lt : k < s.pushed.length

def isCalled (k : ℕ) (s : State Φ) : Prop := k < s.executed.length

variable {s t : State Φ} {a : Action Φ} {k : ℕ}

theorem length_getEventsRequest_le (p : Epoll) (events : List (Fd × UInt32)) :
    (p.getEventsRequest events).2.length ≤ events.length := by
  induction events generalizing p with
  | nil => simp [Epoll.getEventsRequest]
  | cons e events ih =>
      simp only [Epoll.getEventsRequest]
      split
      · exact (ih p).trans (Nat.le_succ _)
      · exact Nat.succ_le_succ (ih _)

theorem activeLeft_afterEvents (channel : Channel) (c : ChannelId) (active : List ChannelId) :
    activeLeft (afterEvents channel c active) = active.length := by
  unfold afterEvents
  split
  · rfl
  · split <;> rfl

theorem active_step (h : activeLeft s.pc ≤ EVENTSNUM) (hstep : step s a = some t) :
    activeLeft t.pc ≤ EVENTSNUM := by
  cases trans_of_step hstep with
  | pollReturn events hpc =>
      obtain ⟨⟨-, -, -, hlength, -⟩, -⟩ := Option.ite_none_right_eq_some.1 hstep
      exact (length_getEventsRequest_le s.poller events).trans hlength
  | dispatch c active hpc =>
      rw [activeLeft_afterEvents]
      simp only [hpc, activeLeft, List.length_cons] at h
      omega
  | testWrite c active hpc =>
      simp only [hpc, activeLeft] at h
      split <;> exact h
  | handlerReturn c g active hpc =>
      simp only [hpc, activeLeft] at h
      cases g <;> exact h
  | push | decide | wake | user | accept => exact h
  | enter | dispatched | setCalling | swap | call | called | functorReturn => exact Nat.zero_le _

theorem pushed_step (hstep : step s a = some t) : s.pushed <+: t.pushed := by
  cases trans_of_step hstep with
  | push => exact List.prefix_append _ _
  | _ => exact List.prefix_rfl

theorem queued_step (h : Queued k s) (hstep : step s a = some t) : Queued k t :=
  ⟨fifo_step h.fifo hstep, active_step h.active hstep,
    h.lt.trans_le (pushed_step hstep).length_le⟩

theorem queued_of_exec {channels : ChannelId → Channel} {wakeupChannel : ChannelId}
    {as : List (Action Φ)} (hexec : (machine Φ).exec (create Φ channels wakeupChannel) as = some s)
    (hk : k < s.pushed.length) : Queued k s := by
  have hinitial : fifo (create Φ channels wakeupChannel) ∧
      activeLeft (create Φ channels wakeupChannel).pc ≤ EVENTSNUM :=
    ⟨fifo_create channels wakeupChannel, Nat.zero_le _⟩
  obtain ⟨hfifo, hactive⟩ := (machine Φ).exec_invariant_of_step
    (I := fun s => fifo s ∧ activeLeft s.pc ≤ EVENTSNUM)
    (fun _ _ _ h hstep => ⟨fifo_step h.1 hstep, active_step h.2 hstep⟩) hinitial hexec
  exact ⟨hfifo, hactive, hk⟩

/-- A functor that has been called is the one that was queued at its position. -/
theorem Queued.getElem?_executed (h : Queued k s) (hk : isCalled k s) :
    s.executed[k]? = s.pushed[k]? := by
  rw [← h.fifo, List.append_assoc, List.getElem?_append_left hk]

theorem isCalled_step (hstep : step s a = some t) (h : isCalled k s) : isCalled k t := by
  cases trans_of_step hstep with
  | call i f =>
      simp only [isCalled, List.length_append]
      exact Nat.lt_add_right _ h
  | _ => exact h

/-- Outside `doPendingFunctors` the functor waits for the next swap. -/
theorem delay_eq (hrest : rest s = []) (hk : ¬ isCalled k s) :
    delay k s = toSwap s + 2 * (k - s.executed.length) + 1 := by
  have hlt : ¬ k < s.executed.length + 0 := hk
  simp only [delay, hrest, List.length_nil, if_neg hlt, Nat.sub_zero]

/-- A step of the loop thread outside the calls. -/
theorem delay_of_outside (hs : rest s = []) (ht : rest t = [])
    (hexecuted : t.executed = s.executed) (hk : ¬ isCalled k t) (hlt : toSwap t < toSwap s) :
    delay k t + 1 ≤ delay k s := by
  have hks : ¬ isCalled k s := by rwa [isCalled, ← hexecuted]
  rw [delay_eq hs hks, delay_eq ht hk, hexecuted]
  omega

theorem pollsLeft_of_outside {n : ℕ} (hs : rest s = []) (ht : rest t = [])
    (hexecuted : t.executed = s.executed) (hk : ¬ isCalled k t)
    (hle : pollsToSwap t.pc + n ≤ pollsToSwap s.pc) : pollsLeft k t + n ≤ pollsLeft k s := by
  have hlt : ¬ k < s.executed.length + 0 := by rwa [isCalled, hexecuted] at hk
  simpa only [pollsLeft, hs, ht, hexecuted, List.length_nil, if_neg hlt] using hle

/-- The functor is in the vector that the swap takes out. -/
theorem Queued.lt_of_swap (h : Queued k s) (hpc : s.pc = .swap) :
    k < s.executed.length + s.pendingFunctors.length := by
  have hrest : rest s = [] := by simp [rest, hpc]
  have hfifo := congrArg List.length h.fifo
  simp only [hrest, List.append_nil, List.length_append] at hfifo
  rw [hfifo]
  exact h.lt

theorem toSwap_afterEvents (channel : Channel) (c : ChannelId) (active : List ChannelId)
    (ht : t.pc = afterEvents channel c active) : toSwap t < 4 * (active.length + 1) + 3 := by
  unfold toSwap
  rw [ht]
  unfold afterEvents
  cases channel.firstHandler with
  | some h =>
      cases h <;> simp only <;> omega
  | none =>
      cases channel.reachesWrite <;> simp only [if_true, if_false, Bool.false_eq_true] <;> omega

/-- The step of the loop thread that calls the next functor. -/
theorem delay_call {i : ℕ} {f : Φ} (hpc : s.pc = .call i) (hf : s.functors[i]? = some f)
    (hk : ¬ isCalled k { s with executed := s.executed ++ [f], pc := .inFunctor i }) :
    delay k { s with executed := s.executed ++ [f], pc := .inFunctor i } + 1 ≤ delay k s := by
  have hrest := rest_eq_cons hpc hf
  have hlength : (rest s).length = (s.functors.drop (i + 1)).length + 1 := by
    rw [hrest, List.length_cons]
  simp only [isCalled, List.length_append, List.length_singleton] at hk
  have hafter : rest { s with executed := s.executed ++ [f], pc := .inFunctor i } =
      s.functors.drop (i + 1) := rfl
  simp only [delay, hafter, hlength, toSwap, hpc, toCall, List.length_append,
    List.length_singleton]
  split <;> split <;> omega

/-- Every step of the loop thread brings it closer to the call. -/
theorem delay_step (h : Queued k s) (hstep : step s a = some t) (hk : ¬ isCalled k t) :
    delay k t + (if byLoop a then 1 else 0) ≤ delay k s := by
  cases trans_of_step hstep with
  | push | decide | wake | user | accept => exact le_rfl
  | enter hpc | dispatched hpc | setCalling hpc =>
      exact delay_of_outside (by simp [rest, hpc]) rfl rfl hk (by simp [toSwap, hpc])
  | pollReturn events hpc =>
      have hactive := active_step h.active hstep
      simp only [activeLeft] at hactive
      refine delay_of_outside (by simp [rest, hpc]) rfl rfl hk ?_
      simp only [toSwap, hpc, pollToSwap]
      omega
  | dispatch c active hpc =>
      refine delay_of_outside (by simp [rest, hpc]) (rest_afterEvents rfl) rfl hk ?_
      have hlt := toSwap_afterEvents (s.poller.channels c) c active (t := { s with
        poller := s.poller.setEvents c 0
        pc := afterEvents (s.poller.channels c) c active }) rfl
      simpa only [toSwap, hpc, List.length_cons] using hlt
  | testWrite c active hpc =>
      cases hwrite : (s.poller.channels c).handlesWrite
      all_goals
        simp only [hwrite] at hk ⊢
        exact delay_of_outside (by simp [rest, hpc]) rfl rfl hk (by simp [toSwap, hpc])
  | handlerReturn c g active hpc =>
      refine delay_of_outside (by simp [rest, hpc]) (rest_afterHandler rfl) rfl hk ?_
      cases g <;> simp [toSwap, hpc, afterHandler]
  | swap hpc =>
      have hlt := h.lt_of_swap hpc
      have hbefore := delay_eq (s := s) (by simp [rest, hpc]) hk
      rw [hbefore]
      simp only [delay, rest, List.drop_zero, if_pos hlt, toCall, toSwap, hpc, byLoop, if_true]
      omega
  | call i f hpc hf => exact delay_call hpc hf hk
  | called i hpc hend =>
      have hrest := rest_eq_nil hpc hend
      refine delay_of_outside hrest rfl rfl hk ?_
      simp [toSwap, hpc]
  | functorReturn i hpc =>
      have hsame : rest { s with pc := .call (i + 1) } = rest s := by simp [rest, hpc]
      simp only [delay, hsame, hpc, toSwap, toCall, byLoop, if_true]
      split <;> omega

/-- `epoll_wait` returns at most once more. -/
theorem pollsLeft_step (h : Queued k s) (hstep : step s a = some t) (hk : ¬ isCalled k t) :
    pollsLeft k t + (if isPollReturn a then 1 else 0) ≤ pollsLeft k s := by
  cases trans_of_step hstep with
  | push | decide | wake | user | accept => exact le_rfl
  | enter hpc | dispatched hpc | setCalling hpc | pollReturn events hpc =>
      exact pollsLeft_of_outside (by simp [rest, hpc]) rfl rfl hk
        (by simp [pollsToSwap, hpc, isPollReturn])
  | dispatch c active hpc =>
      refine pollsLeft_of_outside (by simp [rest, hpc]) (rest_afterEvents rfl) rfl hk ?_
      simp only [afterEvents]
      cases (s.poller.channels c).firstHandler with
      | some g => simp [pollsToSwap, isPollReturn]
      | none => cases (s.poller.channels c).reachesWrite <;> simp [pollsToSwap, isPollReturn]
  | testWrite c active hpc =>
      cases hwrite : (s.poller.channels c).handlesWrite
      all_goals
        simp only [hwrite] at hk ⊢
        exact pollsLeft_of_outside (by simp [rest, hpc]) rfl rfl hk
          (by simp [pollsToSwap, isPollReturn])
  | handlerReturn c g active hpc =>
      refine pollsLeft_of_outside (by simp [rest, hpc]) (rest_afterHandler rfl) rfl hk ?_
      cases g <;> simp [afterHandler, pollsToSwap, isPollReturn]
  | swap hpc =>
      have hlt := h.lt_of_swap hpc
      simp [pollsLeft, rest, hlt, isPollReturn]
  | call i f hpc hf =>
      have hsum : (s.executed ++ [f]).length + (s.functors.drop (i + 1)).length =
          s.executed.length + (rest s).length := by
        rw [rest_eq_cons hpc hf, List.length_cons, List.length_append, List.length_singleton]
        omega
      have hafter : rest { s with executed := s.executed ++ [f], pc := .inFunctor i } =
          s.functors.drop (i + 1) := rfl
      simp only [pollsLeft, hafter, hsum, hpc, pollsToSwap]
      exact le_rfl
  | called i hpc hend =>
      exact pollsLeft_of_outside (rest_eq_nil hpc hend) rfl rfl hk
        (by simp [pollsToSwap, hpc, isPollReturn])
  | functorReturn i hpc => simp [pollsLeft, rest, hpc, pollsToSwap, isPollReturn]

theorem toSwap_le (h : activeLeft s.pc ≤ EVENTSNUM) :
    toSwap s ≤ 4 * EVENTSNUM + 6 + 2 * (rest s).length := by
  unfold toSwap pollToSwap
  unfold activeLeft at h
  split <;> simp_all <;> omega

theorem toCall_le (pc : LoopPc) : toCall pc ≤ 2 := by
  cases pc <;> simp [toCall]

theorem delay_le (h : Queued k s) :
    delay k s ≤ 2 * (k - s.executed.length) + 4 * EVENTSNUM + 7 := by
  have hswap := toSwap_le h.active
  have hcall := toCall_le s.pc
  unfold delay
  split <;> omega

theorem pollsLeft_le (k : ℕ) (s : State Φ) : pollsLeft k s ≤ 1 := by
  unfold pollsLeft pollsToSwap
  split
  · exact Nat.zero_le 1
  · split <;> omega

/-- A functor that waits in a reachable state is called after a bounded number of steps of
the loop thread, and `epoll_wait` returns at most once before, whatever else happens in the
run: as long as the functor has not been called, these steps are at most two for a functor
before it, four for an active channel, and seven. -/
theorem latency_of_exec {channels : ChannelId → Channel} {wakeupChannel : ChannelId}
    {as bs : List (Action Φ)}
    (hexec : (machine Φ).exec (create Φ channels wakeupChannel) as = some s)
    (hk : k < s.pushed.length) (hrun : (machine Φ).exec s bs = some t) :
    t.executed[k]? = s.pushed[k]? ∨
      t.executed.length ≤ k ∧ bs.countP isPollReturn ≤ 1 ∧
        bs.countP byLoop ≤ 2 * (k - s.executed.length) + 4 * EVENTSNUM + 7 := by
  have hs := queued_of_exec hexec hk
  have hpushed : s.pushed <+: t.pushed := (machine Φ).exec_invariant_of_step
    (I := fun u => s.pushed <+: u.pushed) (fun _ _ _ h hstep => h.trans (pushed_step hstep))
    List.prefix_rfl hrun
  obtain ⟨ht, -, hloop⟩ := (machine Φ).countP_le_of_variant (P := fun _ => True) (p := byLoop)
    (fun u a v hu _ hstep => ⟨queued_step hu hstep, isCalled_step hstep, delay_step hu hstep⟩)
    hs (fun _ _ => trivial) hrun
  obtain ⟨-, -, hpolls⟩ := (machine Φ).countP_le_of_variant (P := fun _ => True)
    (p := isPollReturn)
    (fun u a v hu _ hstep => ⟨queued_step hu hstep, isCalled_step hstep, pollsLeft_step hu hstep⟩)
    hs (fun _ _ => trivial) hrun
  by_cases hcalled : isCalled k t
  · left
    rw [ht.getElem?_executed hcalled]
    obtain ⟨rest, hrest⟩ := hpushed
    rw [← hrest, List.getElem?_append_left hk]
  · right
    have hdelay := delay_le hs
    have hleft := pollsLeft_le k s
    have hloopBound := hloop hcalled
    have hpollBound := hpolls hcalled
    exact ⟨not_lt.1 hcalled, by omega, by omega⟩

/-- The functor 7 is called although it is not the only thing that happens. -/
theorem latency_requeue :
    ∃ s t : State ℕ, (machine ℕ).exec (create ℕ wakeupOnly 0) [.push (.other 0) 7] = some s ∧
      s.pushed[0]? = some 7 ∧ (machine ℕ).exec s requeue.tail = some t ∧
      t.executed[0]? = s.pushed[0]? := by
  have hexec : (machine ℕ).exec (create ℕ wakeupOnly 0) [.push (.other 0) 7] = some _ := rfl
  have hlength : ((machine ℕ).exec (create ℕ wakeupOnly 0) requeue).map
      (fun t => t.executed.length) = some 1 := by decide +kernel
  obtain ⟨t, ht, hone⟩ := Option.map_eq_some_iff.1 hlength
  obtain ⟨s, hs, hrun⟩ := ((machine ℕ).exec_cons_eq_some_iff _ _ requeue.tail t).1 ht
  cases Option.some.inj hs
  refine ⟨_, t, hexec, rfl, hrun, ?_⟩
  obtain hcalled | ⟨hnone, -⟩ := latency_of_exec (k := 0) hexec Nat.one_pos hrun
  · exact hcalled
  · omega

end EventLoop

end Net

end SoL
