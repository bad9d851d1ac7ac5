import SoL.Net.Timer.Manager
import SoL.Transition.Machine

/-!
# Deadlines

A run of the timers: `addTimer` with positive timeouts, `clearReq` and
`handleExpiredEvent`, at wall-clock times that do not decrease. The history
variables are the creation time and the timeout of every node and the nodes
deleted by `clearReq`.

A node never leaves the queue before its deadline. It may stay too long: its key
belongs to the window of 10000 seconds in which it was created, and for every
window that begins before the node is tested, the test is late by a whole window
(`along_onTime`).
-/

namespace SoL

namespace Net

namespace TimerManager

open Container Transition Timeval

structure History where
  manager : TimerManager
  clock : ℕ
  created : NodeId → ℕ
  timeout : NodeId → ℕ
  cancelled : NodeId → Bool

inductive Action
  | add (now : Timeval) (timeout : Int32)
  | clearReq (id : NodeId)
  | handle (now : Timeval)

namespace History

def create : History where
  manager := TimerManager.create
  clock := 0
  created := fun _ => 0
  timeout := fun _ => 0
  cancelled := fun _ => false

def step (S : Selector NodeId ℕ) (s : History) : Action → Option History
  | .add now timeout =>
      if s.clock ≤ now.millis ∧ 0 < timeout.toInt then
        some {
          manager := s.manager.addTimer now timeout
          clock := now.millis
          created := Function.update s.created s.manager.count now.millis
          timeout := Function.update s.timeout s.manager.count timeout.toInt.toNat
          cancelled := Function.update s.cancelled s.manager.count false }
      else none
  | .clearReq id =>
      if id < s.manager.count then
        some { s with
          manager := { s.manager with
            nodes := Function.update s.manager.nodes id (s.manager.nodes id).clearReq }
          cancelled := Function.update s.cancelled id true }
      else none
  | .handle now =>
      if s.clock ≤ now.millis then
        some { s with
          manager := s.manager.handleExpiredEvent S fun _ => now
          clock := now.millis }
      else none

def machine (S : Selector NodeId ℕ) : Machine History Action where
  initial := fun s => s = create
  step := step S

/-- The true deadline of a node. -/
def deadline (s : History) (id : NodeId) : ℕ := s.created id + s.timeout id

/-- At the time `t` the nodes past their deadlines have left the queue, and the
others are in it unless they were deleted. -/
def onTime (s : History) (t : ℕ) : Prop :=
  ∀ id < s.manager.count,
    (s.deadline id ≤ t → id ∉ s.manager.timerNodeQueue) ∧
      (s.cancelled id = false → t < s.deadline id → id ∈ s.manager.timerNodeQueue)

/-- The queue is on time after a call of `handleExpiredEvent`. -/
def handlesOnTime (S : Selector NodeId ℕ) (s : History) (a : Action) : Prop :=
  ∀ now t, a = .handle now → step S s a = some t → t.onTime now.millis

/-- No node in the queue is past its deadline by less than a whole window for
each window that began since its creation. -/
def checksInWindow (s : History) : Action → Prop
  | .handle now => ∀ id ∈ s.manager.timerNodeQueue,
      now.millis < s.deadline id ∨
        s.deadline id + (now.millis / window - s.created id / window) * window ≤ now.millis
  | .add _ _ | .clearReq _ => True

instance (s : History) (a : Action) : Decidable (checksInWindow s a) :=
  match a with
  | .handle now => inferInstanceAs (Decidable (∀ id ∈ s.manager.timerNodeQueue,
      now.millis < s.deadline id ∨
        s.deadline id + (now.millis / window - s.created id / window) * window ≤ now.millis))
  | .add _ _ | .clearReq _ => isTrue trivial

/-- The keys of the nodes, and what the queue and the flags say about them. -/
structure Tracked (s : History) : Prop where
  nodup : s.manager.timerNodeQueue.Nodup
  queued : ∀ id ∈ s.manager.timerNodeQueue, id < s.manager.count
  key : ∀ id < s.manager.count,
    (s.manager.nodes id).expiredTime = s.created id % window + s.timeout id
  created_le : ∀ id < s.manager.count, s.created id ≤ s.clock
  flag : ∀ id ∈ s.manager.timerNodeQueue, (s.manager.nodes id).deleted = s.cancelled id
  gone : ∀ id < s.manager.count, id ∉ s.manager.timerNodeQueue → s.cancelled id = false →
    s.deadline id ≤ s.clock

theorem tracked_create : Tracked create := by
  constructor <;> simp [create, TimerManager.create]

/-- A key is due exactly when the deadline is past by a window for each window
that began since the creation. -/
theorem key_le_iff {c d t : ℕ} (h : c ≤ t) :
    c % window + d ≤ t % window ↔ c + d + (t / window - c / window) * window ≤ t := by
  unfold window
  omega

theorem expiry_eq (now : Timeval) {timeout : Int32} (h : 0 < timeout.toInt) :
    TimerNode.expiry now timeout = now.millis % window + timeout.toInt.toNat := by
  have hlt := timeout.toInt_lt
  have hwindow : now.millis % window < window := Nat.mod_lt _ (by decide)
  rw [TimerNode.expiry, inWindow_eq]
  unfold window at hwindow ⊢
  omega

theorem tracked_add {s : History} (h : Tracked s) {now : Timeval} {timeout : Int32}
    (hclock : s.clock ≤ now.millis) (hpos : 0 < timeout.toInt) :
    Tracked {
      manager := s.manager.addTimer now timeout
      clock := now.millis
      created := Function.update s.created s.manager.count now.millis
      timeout := Function.update s.timeout s.manager.count timeout.toInt.toNat
      cancelled := Function.update s.cancelled s.manager.count false } := by
  have hne : ∀ id ∈ s.manager.timerNodeQueue, id ≠ s.manager.count :=
    fun id hid => (h.queued id hid).ne
  constructor
  · exact List.nodup_cons.2 ⟨fun hmem => hne _ hmem rfl, h.nodup⟩
  · intro id hid
    rcases List.mem_cons.1 hid with rfl | hold
    · exact Nat.lt_succ_self _
    · exact Nat.lt_succ_of_lt (h.queued id hold)
  · intro id hid
    rcases Nat.lt_succ_iff_lt_or_eq.1 hid with hold | rfl
    · simpa [addTimer, Function.update_of_ne hold.ne] using h.key id hold
    · simpa [addTimer, TimerNode.new] using expiry_eq now hpos
  · intro id hid
    rcases Nat.lt_succ_iff_lt_or_eq.1 hid with hold | rfl
    · simpa [Function.update_of_ne hold.ne] using (h.created_le id hold).trans hclock
    · simp
  · intro id hid
    rcases List.mem_cons.1 hid with rfl | hold
    · simp [addTimer, TimerNode.new]
    · simpa [addTimer, Function.update_of_ne (hne id hold)] using h.flag id hold
  · intro id hid hnot hcancel
    rcases Nat.lt_succ_iff_lt_or_eq.1 hid with hold | rfl
    · have hcancelled : s.cancelled id = false := by
        simpa [Function.update_of_ne hold.ne] using hcancel
      have hgone := h.gone id hold (fun hmem => hnot (List.mem_cons_of_mem _ hmem)) hcancelled
      simpa [deadline, Function.update_of_ne hold.ne] using hgone.trans hclock
    · exact absurd List.mem_cons_self hnot

theorem tracked_clearReq {s : History} (h : Tracked s) (id : NodeId) :
    Tracked { s with
      manager := { s.manager with
        nodes := Function.update s.manager.nodes id (s.manager.nodes id).clearReq }
      cancelled := Function.update s.cancelled id true } := by
  refine ⟨h.nodup, h.queued, ?_, h.created_le, ?_, ?_⟩
  · intro x hx
    by_cases hid : x = id
    · subst hid
      simpa [TimerNode.clearReq, TimerNode.setDeleted] using h.key x hx
    · simpa [Function.update_of_ne hid] using h.key x hx
  · intro x hx
    by_cases hid : x = id
    · subst hid
      simp [TimerNode.clearReq, TimerNode.setDeleted]
    · simpa [Function.update_of_ne hid] using h.flag x hx
  · intro x hx hnot hcancel
    have hid : x ≠ id := by
      rintro rfl
      simp at hcancel
    exact h.gone x hx hnot (by simpa [Function.update_of_ne hid] using hcancel)

variable {S : Selector NodeId ℕ} {s t : History} {now : Timeval} {id : NodeId}

/-- A queued node that a call at the time `now` pops was deleted or is late by
its windows. -/
theorem due_of_popped (h : Tracked s) (hclock : s.clock ≤ now.millis)
    (hid : id ∈ s.manager.timerNodeQueue) (hcancel : s.cancelled id = false)
    (hpopped : id ∉ (s.manager.handleExpiredEvent S fun _ => now).timerNodeQueue) :
    s.deadline id + (now.millis / window - s.created id / window) * window ≤ now.millis := by
  have hlt := h.queued id hid
  obtain ⟨hswept, -⟩ := handleExpiredEvent_spec S h.nodup now
  rcases hswept.gone id hid hpopped with hdeleted | hdue
  · simp [h.flag id hid, hcancel] at hdeleted
  · rw [h.key id hlt, inWindow_eq] at hdue
    exact (key_le_iff ((h.created_le id hlt).trans hclock)).1 hdue

/-- A node that a call at the time `now` leaves is not late by its windows. -/
theorem not_due_of_left (h : Tracked s) (hclock : s.clock ≤ now.millis)
    (hleft : id ∈ (s.manager.handleExpiredEvent S fun _ => now).timerNodeQueue) :
    id ∈ s.manager.timerNodeQueue ∧
      now.millis <
        s.deadline id + (now.millis / window - s.created id / window) * window := by
  obtain ⟨hswept, hvalid⟩ := handleExpiredEvent_spec S h.nodup now
  have hid := hswept.sublist.subset hleft
  have hlt := h.queued id hid
  refine ⟨hid, ?_⟩
  have hkey := hvalid id hleft
  rw [h.key id hlt, inWindow_eq] at hkey
  by_contra hdue
  exact absurd ((key_le_iff ((h.created_le id hlt).trans hclock)).2 (not_lt.1 hdue))
    (not_le.2 hkey)

theorem tracked_handle (h : Tracked s) (hclock : s.clock ≤ now.millis) :
    Tracked { s with
      manager := s.manager.handleExpiredEvent S fun _ => now
      clock := now.millis } := by
  obtain ⟨hswept, -⟩ := handleExpiredEvent_spec S h.nodup now
  constructor
  · exact h.nodup.sublist hswept.sublist
  · exact fun id hid => h.queued id (hswept.sublist.subset hid)
  · exact fun id hid => (hswept.key id).trans (h.key id hid)
  · exact fun id hid => (h.created_le id hid).trans hclock
  · exact fun id hid => (hswept.flag id hid).trans (h.flag id (hswept.sublist.subset hid))
  · intro id hid hnot hcancel
    by_cases hold : id ∈ s.manager.timerNodeQueue
    · have hdue := due_of_popped h hclock hold hcancel hnot
      exact (Nat.le_add_right _ _).trans hdue
    · exact (h.gone id hid hold hcancel).trans hclock

theorem tracked_step {a : Action} (h : Tracked s) (hstep : step S s a = some t) :
    Tracked t := by
  cases a with
  | add now timeout =>
      obtain ⟨⟨hclock, hpos⟩, ⟨⟩⟩ := Option.ite_none_right_eq_some.1 hstep
      exact tracked_add h hclock hpos
  | clearReq id =>
      obtain ⟨-, ⟨⟩⟩ := Option.ite_none_right_eq_some.1 hstep
      exact tracked_clearReq h id
  | handle now =>
      obtain ⟨hclock, ⟨⟩⟩ := Option.ite_none_right_eq_some.1 hstep
      exact tracked_handle h hclock

theorem handlesOnTime_of_checksInWindow {a : Action} (h : Tracked s)
    (hchecks : checksInWindow s a) : handlesOnTime S s a := by
  rintro now t rfl hstep id hid
  obtain ⟨hclock, ⟨⟩⟩ := Option.ite_none_right_eq_some.1 hstep
  constructor
  · intro hdeadline hleft
    obtain ⟨hqueued, hnot⟩ := not_due_of_left h hclock hleft
    rcases hchecks id hqueued with hearly | hdue
    · exact absurd hdeadline (not_le.2 hearly)
    · exact absurd hdue (not_le.2 hnot)
  · intro hcancel hearly
    by_contra hpopped
    exact absurd ((tracked_handle h hclock).gone id hid hpopped hcancel) (not_le.2 hearly)

theorem checksInWindow_of_handlesOnTime {a : Action} (h : Tracked s)
    (hcancel : ∀ id, s.cancelled id = false) (hstep : step S s a = some t)
    (htime : handlesOnTime S s a) : checksInWindow s a := by
  cases a with
  | add now timeout => trivial
  | clearReq id => trivial
  | handle now =>
      obtain ⟨hclock, ⟨⟩⟩ := Option.ite_none_right_eq_some.1 hstep
      intro id hid
      rcases lt_or_ge now.millis (s.deadline id) with hearly | hlate
      · exact .inl hearly
      · have hpopped := (htime now _ rfl hstep id (h.queued id hid)).1 hlate
        exact .inr (due_of_popped h hclock hid (hcancel id) hpopped)

/-- The labels of `addTimer` and `handleExpiredEvent`. -/
def addsOrHandles : Action → Bool
  | .clearReq _ => false
  | .add _ _ | .handle _ => true

theorem cancelled_step {a : Action} (h : ∀ id, s.cancelled id = false)
    (ha : addsOrHandles a = true) (hstep : step S s a = some t) :
    ∀ id, t.cancelled id = false := by
  cases a with
  | add now timeout =>
      obtain ⟨-, ⟨⟩⟩ := Option.ite_none_right_eq_some.1 hstep
      intro id
      by_cases hid : id = s.manager.count
      · simp [hid]
      · simpa [Function.update_of_ne hid] using h id
  | clearReq id => simp [addsOrHandles] at ha
  | handle now =>
      obtain ⟨-, ⟨⟩⟩ := Option.ite_none_right_eq_some.1 hstep
      exact h

/-- In every run, the queue is on time after every call of `handleExpiredEvent`
if at each of these calls no queued node is past its deadline by less than a
window for each window that began since its creation. In a run of `addTimer` and
`handleExpiredEvent` alone, it is on time only if this is so. -/
theorem along_onTime (S : Selector NodeId ℕ) (as : List Action) :
    ((machine S).along checksInWindow create as →
        (machine S).along (handlesOnTime S) create as) ∧
      ((∀ a ∈ as, addsOrHandles a = true) → (machine S).along (handlesOnTime S) create as →
        (machine S).along checksInWindow create as) := by
  constructor
  · intro hchecks
    exact (machine S).along_of_invariant
      (fun _ _ _ h _ hstep => tracked_step h hstep)
      (fun _ _ _ h hchecks _ => handlesOnTime_of_checksInWindow h hchecks) tracked_create
      hchecks
  · intro hlabels htime
    have hboth := (machine S).along_and ((machine S).along_of_forall_mem hlabels create) htime
    exact (machine S).along_of_invariant
      (I := fun s => Tracked s ∧ ∀ id, s.cancelled id = false)
      (fun _ _ _ h ha hstep => ⟨tracked_step h.1 hstep, cancelled_step h.2 ha.1 hstep⟩)
      (fun _ _ _ h ha hstep => checksInWindow_of_handlesOnTime h.1 h.2 hstep ha.2)
      ⟨tracked_create, fun _ => rfl⟩ hboth

/-- A timer of 500 ms, created one second before a window ends, and a check
after 600 ms. -/
def sameWindow : List Action :=
  [.add ⟨1571409999, 0, by decide⟩ 500, .handle ⟨1571409999, 600000, by decide⟩]

theorem along_onTime_sameWindow :
    (∃ s, (machine (.argmin _ _)).exec create sameWindow = some s ∧
        s.manager.timerNodeQueue = []) ∧
      (machine (.argmin _ _)).along (handlesOnTime (.argmin _ _)) create sameWindow :=
  ⟨⟨_, rfl, rfl⟩, (along_onTime _ _).1 (by decide)⟩

/-- The same timer, checked one second after its creation, when the next window
has begun. -/
def nextWindow : List Action :=
  [.add ⟨1571409999, 0, by decide⟩ 500, .handle ⟨1571410000, 0, by decide⟩]

/-- The timer is past its deadline and still in the queue. -/
theorem not_onTime_nextWindow :
    ¬ (machine (.argmin _ _)).along (handlesOnTime (.argmin _ _)) create nextWindow := by
  intro h
  have hhandle := ((h _ rfl).2 _ rfl).1 _ _ rfl rfl 0 (by decide)
  exact hhandle.1 (by decide) (by decide)

end History

end TimerManager

end Net

end SoL
