import SoL.Container.PriorityQueue
import Mathlib.Tactic

/-!
# Timers

`TimerManager` keeps shared pointers to `TimerNode`s in a priority queue. The
nodes live in a store under the order of their creation, and the queue holds
their numbers. Time is read by `gettimeofday`, and both the key of a node and
the test against it use the milliseconds within a window of 10000 seconds.

The queue is `std::priority_queue` under `TimerCmp`, with any least element on
top. `handleExpiredEvent` reads the clock once for each node that it tests, so
it takes the sequence of these readings. The `Channel` that a node holds is not
used by any of the functions.
-/

namespace SoL

namespace Net

open Container

/-- `struct timeval`, at a time after the epoch. -/
structure Timeval where
  sec : ℕ
  usec : ℕ
  usec_lt : usec < 1000000

namespace Timeval

theorem usec_zero : 0 < 1000000 := by decide

/-- The time in milliseconds. -/
def millis (now : Timeval) : ℕ := now.sec * 1000 + now.usec / 1000

/-- `((now.tv_sec % 10000) * 1000) + (now.tv_usec / 1000)`. -/
def inWindow (now : Timeval) : ℕ := now.sec % 10000 * 1000 + now.usec / 1000

/-- The length of the window in milliseconds. -/
def window : ℕ := 10000000

theorem inWindow_eq (now : Timeval) : now.inWindow = now.millis % window := by
  have husec := now.usec_lt
  simp only [inWindow, millis, window]
  omega

end Timeval

structure TimerNode where
  deleted : Bool
  expiredTime : ℕ
  deriving DecidableEq

namespace TimerNode

/-- The key of a node: `int` is added in `long`, and the sum is stored as a
`size_t`. -/
def expiry (now : Timeval) (timeout : Int32) : ℕ :=
  ((now.inWindow + timeout.toInt) % 2 ^ 64).toNat

/-- `TimerNode::TimerNode`. -/
def new (now : Timeval) (timeout : Int32) : TimerNode where
  deleted := false
  expiredTime := expiry now timeout

def update (node : TimerNode) (now : Timeval) (timeout : Int32) : TimerNode :=
  { node with expiredTime := expiry now timeout }

def setDeleted (node : TimerNode) : TimerNode := { node with deleted := true }

def clearReq (node : TimerNode) : TimerNode := node.setDeleted

/-- `isValid`, with the node after it. -/
def isValid (node : TimerNode) (now : Timeval) : Bool × TimerNode :=
  if now.inWindow < node.expiredTime then (true, node) else (false, node.setDeleted)

end TimerNode

/-- The number of a node in the order of creation. -/
abbrev NodeId := ℕ

structure TimerManager where
  nodes : NodeId → TimerNode
  count : ℕ
  timerNodeQueue : List NodeId

namespace TimerManager

def create : TimerManager where
  nodes := fun _ => ⟨false, 0⟩
  count := 0
  timerNodeQueue := []

def addTimer (m : TimerManager) (now : Timeval) (timeout : Int32) : TimerManager where
  nodes := Function.update m.nodes m.count (.new now timeout)
  count := m.count + 1
  timerNodeQueue := m.count :: m.timerNodeQueue

/-- The loop body of `handleExpiredEvent`: is the node on top popped? The state
is the nodes and the number of clock readings so far. -/
def expired (now : ℕ → Timeval) (s : (NodeId → TimerNode) × ℕ) (id : NodeId) :
    Bool × ((NodeId → TimerNode) × ℕ) :=
  if (s.1 id).deleted then (true, s)
  else
    let answer := (s.1 id).isValid (now s.2)
    (!answer.1, (Function.update s.1 id answer.2, s.2 + 1))

def handleExpiredEvent (S : Selector NodeId ℕ) (m : TimerManager) (now : ℕ → Timeval) :
    TimerManager :=
  let swept := S.drain (fun id => (m.nodes id).expiredTime) (expired now)
    m.timerNodeQueue.length (m.nodes, 0) m.timerNodeQueue
  { m with nodes := swept.1.1, timerNodeQueue := swept.2 }

/-- The nodes and the queue after some pops at the time `now`: what is missing
was deleted or due, and nothing else has changed. -/
structure Swept (m : TimerManager) (now : Timeval) (nodes : NodeId → TimerNode)
    (queue : List NodeId) : Prop where
  sublist : queue.Sublist m.timerNodeQueue
  key : ∀ id, (nodes id).expiredTime = (m.nodes id).expiredTime
  flag : ∀ id ∈ queue, (nodes id).deleted = (m.nodes id).deleted
  gone : ∀ id ∈ m.timerNodeQueue, id ∉ queue →
    (m.nodes id).deleted = true ∨ (m.nodes id).expiredTime ≤ now.inWindow

/-- The same when the clock is read anew for every node: a node was due at one
of the readings so far. -/
structure SweptBy (m : TimerManager) (now : ℕ → Timeval) (s : (NodeId → TimerNode) × ℕ)
    (queue : List NodeId) : Prop where
  sublist : queue.Sublist m.timerNodeQueue
  key : ∀ id, (s.1 id).expiredTime = (m.nodes id).expiredTime
  flag : ∀ id ∈ queue, (s.1 id).deleted = (m.nodes id).deleted
  gone : ∀ id ∈ m.timerNodeQueue, id ∉ queue →
    (m.nodes id).deleted = true ∨ ∃ i < s.2, (m.nodes id).expiredTime ≤ (now i).inWindow

variable {m : TimerManager} {now : ℕ → Timeval} {s t : (NodeId → TimerNode) × ℕ}
  {queue : List NodeId} {id : NodeId}

theorem sweptBy_refl (m : TimerManager) (now : ℕ → Timeval) :
    SweptBy m now (m.nodes, 0) m.timerNodeQueue where
  sublist := List.Sublist.refl _
  key := fun _ => rfl
  flag := fun _ _ => rfl
  gone := fun _ h hnot => absurd h hnot

/-- Popping a node that was deleted or due. -/
theorem sweptBy_erase (h : SweptBy m now s queue) (hnodup : m.timerNodeQueue.Nodup)
    {node : TimerNode} (hkey : node.expiredTime = (s.1 id).expiredTime)
    (hnodes : t.1 = Function.update s.1 id node) (hle : s.2 ≤ t.2)
    (hdue : (m.nodes id).deleted = true ∨
      ∃ i < t.2, (m.nodes id).expiredTime ≤ (now i).inWindow) :
    SweptBy m now t (queue.erase id) where
  sublist := List.erase_sublist.trans h.sublist
  key := by
    intro x
    rw [hnodes]
    by_cases hx : x = id
    · subst hx
      simpa [hkey] using h.key x
    · simpa [Function.update_of_ne hx] using h.key x
  flag := by
    intro x hx
    obtain ⟨hne, hmem⟩ := (hnodup.sublist h.sublist).mem_erase_iff.1 hx
    simpa [hnodes, Function.update_of_ne hne] using h.flag x hmem
  gone := by
    intro x hx hnot
    by_cases hid : x = id
    · exact hid ▸ hdue
    · obtain hdel | ⟨i, hi, hread⟩ :=
        h.gone x hx fun hmem => hnot ((List.mem_erase_of_ne hid).2 hmem)
      · exact .inl hdel
      · exact .inr ⟨i, hi.trans_le hle, hread⟩

/-- A node is popped without a reading if it is deleted, and otherwise if it is
due at the next reading. -/
theorem expired_eq_true (h : expired now s id = (true, t)) :
    ((s.1 id).deleted = true ∨ ∃ i < t.2, (s.1 id).expiredTime ≤ (now i).inWindow) ∧
      s.2 ≤ t.2 ∧ ∃ node : TimerNode, node.expiredTime = (s.1 id).expiredTime ∧
        t.1 = Function.update s.1 id node := by
  unfold expired at h
  cases hdel : (s.1 id).deleted with
  | true =>
      obtain rfl : s = t := by simpa [hdel] using h
      exact ⟨.inl rfl, le_rfl, s.1 id, rfl, (Function.update_eq_self id s.1).symm⟩
  | false =>
      by_cases hvalid : (now s.2).inWindow < (s.1 id).expiredTime
      · simp [hdel, TimerNode.isValid, hvalid] at h
      · simp only [hdel, Bool.false_eq_true, if_false, TimerNode.isValid, hvalid, Prod.mk.injEq]
          at h
        obtain ⟨-, rfl⟩ := h
        exact ⟨.inr ⟨s.2, Nat.lt_succ_self _, not_lt.1 hvalid⟩, Nat.le_succ _,
          (s.1 id).setDeleted, rfl, rfl⟩

/-- A node that is kept was not deleted and not due at the reading just made. -/
theorem expired_eq_false (h : expired now s id = (false, t)) :
    (s.1 id).deleted = false ∧ (now s.2).inWindow < (s.1 id).expiredTime ∧
      t = (s.1, s.2 + 1) := by
  unfold expired at h
  cases hdel : (s.1 id).deleted with
  | true => simp [hdel] at h
  | false =>
      by_cases hvalid : (now s.2).inWindow < (s.1 id).expiredTime
      · simp only [hdel, Bool.false_eq_true, if_false, TimerNode.isValid, hvalid, if_true,
          Prod.mk.injEq, Function.update_eq_self] at h
        exact ⟨rfl, hvalid, h.2.symm⟩
      · simp [hdel, TimerNode.isValid, hvalid] at h

/-- The loop of `handleExpiredEvent` after at most so many rounds. -/
def sweep (S : Selector NodeId ℕ) (m : TimerManager) (now : ℕ → Timeval) (rounds : ℕ) :
    ((NodeId → TimerNode) × ℕ) × List NodeId :=
  S.drain (fun id => (m.nodes id).expiredTime) (expired now) rounds (m.nodes, 0)
    m.timerNodeQueue

/-- The number of clock readings that a call makes. -/
def readings (S : Selector NodeId ℕ) (m : TimerManager) (now : ℕ → Timeval) : ℕ :=
  (m.sweep S now m.timerNodeQueue.length).1.2

/-- A call pops only nodes that were deleted or due at one of its readings. The
nodes that it leaves are not due at the last reading, and the top one of them
was not deleted. -/
theorem handleExpiredEvent_sweptBy (S : Selector NodeId ℕ) (hnodup : m.timerNodeQueue.Nodup)
    (now : ℕ → Timeval) :
    SweptBy m now ((m.handleExpiredEvent S now).nodes, m.readings S now)
        (m.handleExpiredEvent S now).timerNodeQueue ∧
      (∀ id ∈ (m.handleExpiredEvent S now).timerNodeQueue, 0 < m.readings S now ∧
        (now (m.readings S now - 1)).inWindow < (m.nodes id).expiredTime) ∧
      ∀ id, S.top (fun id => (m.nodes id).expiredTime)
          (m.handleExpiredEvent S now).timerNodeQueue = some id →
        (m.nodes id).deleted = false := by
  refine S.drain_rule (I := fun s l => SweptBy m now s l)
    (Q := fun s l => SweptBy m now s l ∧
      (∀ id ∈ l, 0 < s.2 ∧ (now (s.2 - 1)).inWindow < (m.nodes id).expiredTime) ∧
      ∀ id, S.top (fun id => (m.nodes id).expiredTime) l = some id →
        (m.nodes id).deleted = false) ?_ ?_ ?_ le_rfl (sweptBy_refl m now)
  · rintro s l a t hswept htop htest
    obtain ⟨hdue, hle, node, hkey, hnodes⟩ := expired_eq_true htest
    rw [hswept.key, hswept.flag a (S.mem_of_top _ l a htop)] at hdue
    exact sweptBy_erase hswept hnodup hkey hnodes hle hdue
  · rintro s l a t hswept htop htest
    obtain ⟨hlive, hvalid, rfl⟩ := expired_eq_false htest
    rw [hswept.flag a (S.mem_of_top _ l a htop)] at hlive
    rw [hswept.key] at hvalid
    refine ⟨⟨hswept.sublist, hswept.key, hswept.flag, fun id hid hnot => ?_⟩,
      fun id hid => ⟨Nat.succ_pos _, hvalid.trans_le (S.le_of_top _ l a htop id hid)⟩,
      fun id hid => ?_⟩
    · obtain hdel | ⟨i, hi, hread⟩ := hswept.gone id hid hnot
      · exact .inl hdel
      · exact .inr ⟨i, hi.trans (Nat.lt_succ_self _), hread⟩
    · obtain rfl : a = id := Option.some.inj (htop.symm.trans hid)
      exact hlive
  · refine fun s hswept => ⟨hswept, by simp, fun id hid => ?_⟩
    exact absurd (S.mem_of_top _ [] id hid) List.not_mem_nil

/-- A call at the time `now` pops only nodes that were deleted or due by their
keys, and leaves only nodes that are not due. -/
theorem handleExpiredEvent_spec (S : Selector NodeId ℕ) (hnodup : m.timerNodeQueue.Nodup)
    (now : Timeval) :
    Swept m now (m.handleExpiredEvent S fun _ => now).nodes
        (m.handleExpiredEvent S fun _ => now).timerNodeQueue ∧
      ∀ id ∈ (m.handleExpiredEvent S fun _ => now).timerNodeQueue,
        now.inWindow < (m.nodes id).expiredTime := by
  obtain ⟨hswept, hleft, -⟩ := handleExpiredEvent_sweptBy S hnodup fun _ => now
  refine ⟨⟨hswept.sublist, hswept.key, hswept.flag, fun id hid hnot => ?_⟩,
    fun id hid => (hleft id hid).2⟩
  obtain hdel | ⟨-, -, hdue⟩ := hswept.gone id hid hnot
  · exact .inl hdel
  · exact .inr hdue

end TimerManager

end Net

end SoL
