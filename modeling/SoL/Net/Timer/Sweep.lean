import SoL.Net.Timer.Manager
import SoL.Transition.Machine

/-!
# Lazy deletion

A run of the timers under any calls: `addTimer` with any timeouts, `clearReq`
and `setDeleted` of any nodes at any time, and `handleExpiredEvent`, which looks
only at the top of the queue and stops at the first node that is neither deleted
nor due. The order of the queue is enough for that: behind such a node there is
no node that is due (`handleExpiredEvent_sweeps`).

A reading of the clock is the value that `isValid` compares with the key of a
node, which is the time within the window.
-/

namespace SoL

namespace Net

namespace TimerManager

open Container Transition

inductive Call
  | addTimer (now : Timeval) (timeout : Int32)
  | clearReq (id : NodeId)
  | setDeleted (id : NodeId)
  | handleExpiredEvent (now : ℕ → Timeval)

/-- A node is marked through a shared pointer to it, in the queue or no longer in
it. -/
def step (S : Selector NodeId ℕ) (m : TimerManager) : Call → Option TimerManager
  | .addTimer now timeout => some (m.addTimer now timeout)
  | .clearReq id =>
      if id < m.count then
        some { m with nodes := Function.update m.nodes id (m.nodes id).clearReq }
      else none
  | .setDeleted id =>
      if id < m.count then
        some { m with nodes := Function.update m.nodes id (m.nodes id).setDeleted }
      else none
  | .handleExpiredEvent now => some (m.handleExpiredEvent S now)

def machine (S : Selector NodeId ℕ) : Machine TimerManager Call where
  initial := fun m => m = create
  step := step S

variable {S : Selector NodeId ℕ} {m t : TimerManager}

/-- The queue holds each node once, and only nodes that were created. -/
structure Queued (m : TimerManager) : Prop where
  nodup : m.timerNodeQueue.Nodup
  created : ∀ id ∈ m.timerNodeQueue, id < m.count

theorem queued_create : Queued create := by
  constructor <;> simp [create]

theorem queued_addTimer (h : Queued m) (now : Timeval) (timeout : Int32) :
    Queued (m.addTimer now timeout) where
  nodup := List.nodup_cons.2 ⟨fun hmem => (h.created _ hmem).false, h.nodup⟩
  created := by
    intro id hid
    obtain rfl | hmem := List.mem_cons.1 hid
    · exact Nat.lt_succ_self _
    · exact (h.created id hmem).trans (Nat.lt_succ_self _)

theorem queued_handleExpiredEvent (h : Queued m) (now : ℕ → Timeval) :
    Queued (m.handleExpiredEvent S now) := by
  have hsub := (handleExpiredEvent_sweptBy S h.nodup now).1.sublist
  exact ⟨h.nodup.sublist hsub, fun id hid => h.created id (hsub.subset hid)⟩

theorem queued_step {c : Call} (h : Queued m) (hstep : step S m c = some t) : Queued t := by
  cases c with
  | addTimer now timeout =>
      obtain rfl := Option.some.inj hstep
      exact queued_addTimer h now timeout
  | clearReq id =>
      obtain ⟨-, hmarked⟩ := Option.ite_none_right_eq_some.1 hstep
      obtain rfl := Option.some.inj hmarked
      exact ⟨h.nodup, h.created⟩
  | setDeleted id =>
      obtain ⟨-, hmarked⟩ := Option.ite_none_right_eq_some.1 hstep
      obtain rfl := Option.some.inj hmarked
      exact ⟨h.nodup, h.created⟩
  | handleExpiredEvent now =>
      obtain rfl := Option.some.inj hstep
      exact queued_handleExpiredEvent h now

theorem queued_of_exec {cs : List Call} (h : (machine S).exec create cs = some m) :
    Queued m :=
  (machine S).exec_invariant_of_step (fun _ _ _ hm hstep => queued_step hm hstep)
    queued_create h

/-- The nodes that a call of `handleExpiredEvent` removes. -/
def removed (S : Selector NodeId ℕ) (m : TimerManager) (now : ℕ → Timeval) : List NodeId :=
  m.timerNodeQueue.diff (m.handleExpiredEvent S now).timerNodeQueue

/-- After any calls, and for readings that do not decrease, `handleExpiredEvent`
comes to an end within as many rounds as there are nodes. It removes nodes that
were deleted or due at the last reading and leaves nodes that are not due then,
the one on top not deleted. The removed and the remaining nodes are the nodes
before. -/
theorem handleExpiredEvent_sweeps {cs : List Call}
    (h : (machine S).exec create cs = some m) (now : ℕ → Timeval)
    (hnow : ∀ i j, i ≤ j → (now i).inWindow ≤ (now j).inWindow) :
    (∀ rounds, m.timerNodeQueue.length ≤ rounds →
      m.sweep S now rounds = m.sweep S now m.timerNodeQueue.length) ∧
    (∀ id ∈ m.removed S now, (m.nodes id).deleted = true ∨
      0 < m.readings S now ∧
        (m.nodes id).expiredTime ≤ (now (m.readings S now - 1)).inWindow) ∧
    (∀ id ∈ (m.handleExpiredEvent S now).timerNodeQueue, 0 < m.readings S now ∧
      (now (m.readings S now - 1)).inWindow <
        ((m.handleExpiredEvent S now).nodes id).expiredTime) ∧
    (∀ id, S.top (fun id => ((m.handleExpiredEvent S now).nodes id).expiredTime)
        (m.handleExpiredEvent S now).timerNodeQueue = some id →
      ((m.handleExpiredEvent S now).nodes id).deleted = false) ∧
    (m.removed S now ++ (m.handleExpiredEvent S now).timerNodeQueue).Perm
      m.timerNodeQueue := by
  have hnodup := (queued_of_exec h).nodup
  obtain ⟨hswept, hleft, htop⟩ := handleExpiredEvent_sweptBy S hnodup now
  have hkey := hswept.key
  dsimp only at hkey
  refine ⟨fun rounds hrounds => S.drain_eq_of_length_le hrounds le_rfl _, fun id hid => ?_,
    fun id hid => ?_, fun id hid => ?_, ?_⟩
  · obtain ⟨hmem, hnot⟩ := hnodup.mem_sdiff_iff.1 hid
    obtain hdel | ⟨i, hi, hdue⟩ := hswept.gone id hmem hnot
    · exact .inl hdel
    · exact .inr ⟨Nat.zero_lt_of_lt hi, hdue.trans (hnow i _ (Nat.le_pred_of_lt hi))⟩
  · rw [hkey]
    exact hleft id hid
  · simp only [hkey] at hid
    have hflag := hswept.flag id (S.mem_of_top _ _ id hid)
    exact hflag.trans (htop id hid)
  · exact List.perm_append_comm.trans
      (List.subperm_append_diff_self_of_count_le fun id _ => hswept.sublist.count_le id)

/-- Three timers; the last one has been deleted, and two seconds later the first
one is due. -/
def threeTimers : List Call :=
  [.addTimer ⟨7, 0, Timeval.usec_zero⟩ 1000, .addTimer ⟨7, 0, Timeval.usec_zero⟩ 5000,
    .addTimer ⟨7, 0, Timeval.usec_zero⟩ 3000, .clearReq 2]

theorem handleExpiredEvent_sweeps_threeTimers :
    ∃ m, (machine (.argmin NodeId ℕ)).exec create threeTimers = some m ∧
      m.removed (.argmin NodeId ℕ) (fun _ => ⟨9, 0, by decide⟩) = [2, 0] ∧
      ∀ id ∈ m.removed (.argmin NodeId ℕ) fun _ => ⟨9, 0, by decide⟩,
        (m.nodes id).deleted = true ∨ 0 < m.readings (.argmin NodeId ℕ)
          (fun _ => ⟨9, 0, by decide⟩) ∧ (m.nodes id).expiredTime ≤ 9000 := by
  have hexec : (machine (.argmin NodeId ℕ)).exec create threeTimers = some _ := rfl
  have hsweeps := handleExpiredEvent_sweeps hexec (fun _ => ⟨9, 0, by decide⟩)
    fun _ _ _ => le_rfl
  exact ⟨_, hexec, by decide, hsweeps.2.1⟩

end TimerManager

end Net

end SoL
