import SoL.Net.EventLoop.Functors

/-!
# Wakeups

A thread that has pushed a functor tests `callingPendingFunctors_` and writes to
the eventfd only when the flag is off. The flag is on from just before the swap
of `doPendingFunctors` to its end, so a test that finds it on is harmless only
before the swap: afterwards the functor has missed the swap and nothing is left
that would end the next `epoll_wait` for it. This is what happens to every
functor that is queued by a running functor (`lostWakeup_requeue`). In a run in
which no test goes wrong in this way, a functor that waits always has a positive
counter, a swap still to come or a caller on its way to the eventfd
(`attended`).
-/

namespace SoL

namespace Net

namespace EventLoop

variable {Φ : Type*}

/-- The loop thread comes to a swap before it comes to `epoll_wait`. -/
def beforeSwap : LoopPc → Bool
  | .dispatch _ | .running _ _ _ | .testWrite _ _ | .setCalling | .swap => true
  | .idle | .poll | .call _ | .inFunctor _ => false

/-- How many functors the swaps have taken out of `pendingFunctors_`. -/
def taken (s : State Φ) : ℕ := s.pushed.length - s.pendingFunctors.length

/-- A caller finds `callingPendingFunctors_` set after the swap, with its own
functor still in `pendingFunctors_`. -/
def missesWakeup (s : State Φ) : Action Φ → Bool
  | .decide r =>
      match s.callers r with
      | .decide k => s.callingPendingFunctors && s.pc != .swap && decide (taken s ≤ k)
      | _ => false
  | _ => false

/-- A caller with a functor in `pendingFunctors_` is on its way to the eventfd. -/
def pendingCaller (s : State Φ) (r : Thread) : Prop :=
  ∃ k, (s.callers r = .decide k ∨ s.callers r = .wake k) ∧ taken s ≤ k

/-- Every functor that waits is taken care of. -/
def attended (s : State Φ) : Prop :=
  s.pendingFunctors ≠ [] →
    0 < s.counter ∨ beforeSwap s.pc = true ∨ ∃ r, pendingCaller s r

theorem attended_create (channels : ChannelId → Channel) (wakeupChannel : ChannelId) :
    attended (create Φ channels wakeupChannel) := fun h => absurd rfl h

theorem eventfdWrite_pos (counter : ℕ) : 0 < eventfdWrite counter := by
  unfold eventfdWrite
  split <;> omega

theorem beforeSwap_afterEvents (channel : Channel) (c : ChannelId)
    (active : List ChannelId) : beforeSwap (afterEvents channel c active) = true := by
  unfold afterEvents
  cases channel.firstHandler with
  | some h => rfl
  | none => cases channel.reachesWrite <;> rfl

theorem beforeSwap_afterHandler (h : Handler) (c : ChannelId) (active : List ChannelId) :
    beforeSwap (afterHandler h c active) = true := by
  cases h <;> rfl

/-- A step that leaves the queue, the counter and the callers alone and does not
pass the swap. -/
theorem attended_of_frame {s t : State Φ} (h : attended s)
    (hpending : t.pendingFunctors = s.pendingFunctors) (hpushed : t.pushed = s.pushed)
    (hcallers : t.callers = s.callers) (hcounter : t.counter = s.counter)
    (hpc : beforeSwap s.pc = true → beforeSwap t.pc = true) : attended t := by
  intro hne
  rw [hpending] at hne
  rcases h hne with hpos | hswap | ⟨r, k, hr, hk⟩
  · exact .inl (hcounter ▸ hpos)
  · exact .inr (.inl (hpc hswap))
  · refine .inr (.inr ⟨r, k, hcallers ▸ hr, ?_⟩)
    rwa [taken, hpending, hpushed]

/-- A caller that has just pushed is on its way. -/
theorem attended_push (s : State Φ) (r : Thread) (f : Φ) :
    attended { s with
      pendingFunctors := s.pendingFunctors ++ [f]
      pushed := s.pushed ++ [f]
      callers := Function.update s.callers r (.decide s.pushed.length) } := by
  intro _
  refine .inr (.inr ⟨r, s.pushed.length, .inl (by simp), ?_⟩)
  simp [taken]

theorem attended_decide {s : State Φ} {r : Thread} {k : ℕ} (h : attended s)
    (hcaller : s.callers r = .decide k) (hmiss : missesWakeup s (.decide r) = false) :
    attended { s with
      callers := Function.update s.callers r
        (if s.callingPendingFunctors then .out else .wake k) } := by
  intro hne
  rcases h hne with hpos | hswap | ⟨q, j, hq, hj⟩
  · exact .inl hpos
  · exact .inr (.inl hswap)
  · by_cases hqr : q = r
    · subst q
      obtain rfl : k = j := by simpa [hcaller] using hq
      cases hcalling : s.callingPendingFunctors with
      | false => exact .inr (.inr ⟨r, k, .inr (by simp), hj⟩)
      | true =>
          -- the flag is on, so the caller leaves without a write: it has pushed before the swap
          have hpc : s.pc = .swap := by
            simpa [missesWakeup, hcaller, hcalling, hj] using hmiss
          exact .inr (.inl (by simp [hpc, beforeSwap]))
    · refine .inr (.inr ⟨q, j, ?_, hj⟩)
      simpa [Function.update_of_ne hqr] using hq

theorem attended_step {s t : State Φ} {a : Action Φ} (h : attended s)
    (hmiss : missesWakeup s a = false) (hstep : step s a = some t) : attended t := by
  cases trans_of_step hstep with
  | push r f hout => exact attended_push s r f
  | decide r k hcaller => exact attended_decide h hcaller hmiss
  | wake r k hcaller => exact fun _ => .inl (eventfdWrite_pos s.counter)
  | swap hpc => exact fun hne => absurd rfl hne
  | handlerReturn c g active hpc =>
      exact fun _ => .inr (.inl (beforeSwap_afterHandler g c active))
  | pollReturn events hpc => exact fun _ => .inr (.inl rfl)
  | setCalling hpc => exact fun _ => .inr (.inl rfl)
  | dispatched hpc => exact fun _ => .inr (.inl rfl)
  | dispatch c active hpc => exact fun _ => .inr (.inl (beforeSwap_afterEvents _ c active))
  | testWrite c active hpc =>
      refine fun _ => .inr (.inl ?_)
      cases hwrite : (s.poller.channels c).handlesWrite <;> simp [beforeSwap]
  | user | accept => exact attended_of_frame h rfl rfl rfl rfl id
  | enter hpc | call i f hpc | called i hpc | functorReturn i hpc =>
      exact attended_of_frame h rfl rfl rfl rfl (by simp [hpc, beforeSwap])

/-- In every run without a missed wakeup, `pendingFunctors_` is empty whenever
the loop is blocked in `epoll_wait` with the counter of the eventfd at zero and
every call of `queueInLoop` is over. -/
theorem pendingFunctors_eq_nil_of_exec {channels : ChannelId → Channel}
    {wakeupChannel : ChannelId} {as : List (Action Φ)} {s : State Φ}
    (hexec : (machine Φ).exec (create Φ channels wakeupChannel) as = some s)
    (hwakeups : (machine Φ).along (fun s a => missesWakeup s a = false)
      (create Φ channels wakeupChannel) as)
    (hpc : s.pc = .poll) (hcounter : s.counter = 0) (hout : ∀ r, s.callers r = .out) :
    s.pendingFunctors = [] := by
  have hattended : attended s := (machine Φ).exec_invariant
    (fun _ _ _ h hmiss hstep => attended_step h hmiss hstep)
    (attended_create channels wakeupChannel) hwakeups hexec
  by_contra hne
  rcases hattended hne with hpos | hswap | ⟨r, k, hr, -⟩
  · exact absurd hcounter hpos.ne'
  · simp [hpc, beforeSwap] at hswap
  · simp [hout r] at hr

/-- A thread that has queued nothing is outside `queueInLoop`. -/
theorem callers_eq_out {channels : ChannelId → Channel} {wakeupChannel : ChannelId}
    {as : List (Action Φ)} {s : State Φ} {r : Thread} (hpush : ∀ a ∈ as, ∀ f, a ≠ .push r f)
    (hexec : (machine Φ).exec (create Φ channels wakeupChannel) as = some s) :
    s.callers r = .out := by
  refine (machine Φ).exec_invariant (I := fun s => s.callers r = .out) ?_ rfl
    ((machine Φ).along_of_forall_mem hpush _) hexec
  intro s a t hout hlabel hstep
  -- the step of another thread does not change where `r` is
  have hne : ∀ q k, s.callers q = .decide k ∨ s.callers q = .wake k → r ≠ q := by
    rintro q k hq rfl
    simp [hout] at hq
  cases trans_of_step hstep with
  | push q f hq =>
      have hrq : r ≠ q := fun h => hlabel f (h ▸ rfl)
      simpa [Function.update_of_ne hrq] using hout
  | decide q k hq => simpa [Function.update_of_ne (hne q k (.inl hq))] using hout
  | wake q k hq => simpa [Function.update_of_ne (hne q k (.inr hq))] using hout
  | _ => exact hout

/-- A functor from another thread wakes the loop up and runs. -/
def oneFunctor : List (Action ℕ) :=
  [.push (.other 0) 7, .decide (.other 0), .wake (.other 0), .loop, .pollReturn [(4, EPOLLIN)],
    .loop, .ret, .loop, .loop, .loop, .loop, .loop, .ret, .loop]

theorem pendingFunctors_eq_nil_oneFunctor :
    ∃ s, (machine ℕ).exec (create ℕ wakeupOnly 0) oneFunctor = some s ∧
      s.executed = [7] ∧ s.pc = .poll ∧ s.pendingFunctors = [] := by
  have hrun : ((machine ℕ).exec (create ℕ wakeupOnly 0) oneFunctor).map
      (fun s => (s.executed, s.pc, s.counter, s.callers (.other 0))) =
        some ([7], .poll, 0, .out) := by decide +kernel
  obtain ⟨s, hs, heq⟩ := Option.map_eq_some_iff.1 hrun
  simp only [Prod.mk.injEq] at heq
  obtain ⟨hexecuted, hpc, hcounter, hzero⟩ := heq
  have hout : ∀ r, s.callers r = .out := by
    intro r
    by_cases hr : r = .other 0
    · exact hr ▸ hzero
    · exact callers_eq_out (by simp [oneFunctor, Ne.symm hr]) hs
  exact ⟨s, hs, hexecuted, hpc,
    pendingFunctors_eq_nil_of_exec hs (by decide +kernel) hpc hcounter hout⟩

/-- The functor 7 queues the functor 8 while it runs. The loop goes back to
`epoll_wait` with nothing to end it, and the functor 8 waits. -/
def requeueLost : List (Action ℕ) := requeue ++ [.decide .loop, .ret, .loop]

theorem lostWakeup_requeue :
    ∃ s, (machine ℕ).exec (create ℕ wakeupOnly 0) requeueLost = some s ∧
      s.pc = .poll ∧ s.counter = 0 ∧ (∀ r, s.callers r = .out) ∧ s.pendingFunctors = [8] := by
  have hrun : ((machine ℕ).exec (create ℕ wakeupOnly 0) requeueLost).map
      (fun s => (s.pc, s.counter, s.callers .loop, s.callers (.other 0), s.pendingFunctors)) =
        some (.poll, 0, .out, .out, [8]) := by decide +kernel
  obtain ⟨s, hs, heq⟩ := Option.map_eq_some_iff.1 hrun
  simp only [Prod.mk.injEq] at heq
  obtain ⟨hpc, hcounter, hloop, hzero, hpending⟩ := heq
  refine ⟨s, hs, hpc, hcounter, fun r => ?_, hpending⟩
  by_cases hr : r = .loop ∨ r = .other 0
  · rcases hr with rfl | rfl
    · exact hloop
    · exact hzero
  · obtain ⟨hnloop, hnzero⟩ := not_or.1 hr
    exact callers_eq_out
      (by simp [requeueLost, requeue, queueSeven, Ne.symm hnloop, Ne.symm hnzero]) hs

end EventLoop

end Net

end SoL
