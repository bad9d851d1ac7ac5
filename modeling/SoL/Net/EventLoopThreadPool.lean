import Mathlib.Tactic

/-!
# The pool of worker loops

`EventLoopThreadPool` hands out its loops in turn. A loop is named by the
thread that runs it, and `next_`, which the constructor sets to zero and
`getNextLoop` advances modulo `numThreads_`, is a natural number below
`numThreads_`, so that `next_ + 1` does not overflow.

`Turns` is the count that goes with the turns: the loops before `next_` have had
one turn more than the others.
-/

namespace SoL

namespace Net

/-- An event loop, named by the thread that runs it. -/
inductive LoopId
  | base
  | worker (i : ℕ)
  deriving DecidableEq

/-- The ends of the program that the pool can bring about. -/
inductive PoolFault
  | aborted
  | assertFailed
  | outOfRange
  deriving DecidableEq

structure EventLoopThreadPool where
  baseLoop : LoopId
  started : Bool
  numThreads : ℕ
  next : ℕ
  loops : List LoopId
  deriving DecidableEq

namespace EventLoopThreadPool

/-- The constructor. -/
def new (numThreads : ℤ) : Except PoolFault EventLoopThreadPool :=
  if numThreads ≤ 0 then .error .aborted
  else .ok
    { baseLoop := .base
      started := false
      numThreads := numThreads.toNat
      next := 0
      loops := [] }

/-- `start`: one loop per thread. -/
def start (p : EventLoopThreadPool) : EventLoopThreadPool :=
  { p with
    started := true
    loops := p.loops ++ (List.range p.numThreads).map .worker }

def getNextLoop (p : EventLoopThreadPool) :
    Except PoolFault (LoopId × EventLoopThreadPool) :=
  if !p.started then .error .assertFailed
  else if p.loops.isEmpty then .ok (p.baseLoop, p)
  else
    match p.loops[p.next]? with
    | none => .error .outOfRange
    | some loop => .ok (loop, { p with next := (p.next + 1) % p.numThreads })

/-- A pool that has been started once. -/
structure Ready (p : EventLoopThreadPool) : Prop where
  started : p.started = true
  loops : p.loops = (List.range p.numThreads).map .worker
  next_lt : p.next < p.numThreads

/-- The pool after a turn. -/
def advance (p : EventLoopThreadPool) : EventLoopThreadPool :=
  { p with next := (p.next + 1) % p.numThreads }

theorem ready_start {n : ℤ} {p : EventLoopThreadPool} (h : new n = .ok p) :
    p.start.Ready := by
  unfold new at h
  split at h
  · cases h
  · obtain rfl := Except.ok.inj h
    refine ⟨rfl, by simp [start], ?_⟩
    change 0 < n.toNat
    omega

theorem Ready.advance {p : EventLoopThreadPool} (h : p.Ready) : p.advance.Ready :=
  ⟨h.started, h.loops, Nat.mod_lt _ (Nat.zero_lt_of_lt h.next_lt)⟩

/-- The index is in range, and the loop is the one whose turn it is. -/
theorem getNextLoop_eq {p : EventLoopThreadPool} (h : p.Ready) :
    p.getNextLoop = .ok (.worker p.next, p.advance) := by
  have hne : p.loops.isEmpty = false := by
    have := h.next_lt
    simp [h.loops]
    omega
  have hget : p.loops[p.next]? = some (.worker p.next) := by
    simp [h.loops, h.next_lt]
  simp [getNextLoop, h.started, hne, hget, EventLoopThreadPool.advance]

/-- Every loop has had the same number of turns, apart from the loops before
`next`, which have had one more. -/
def Turns (p : EventLoopThreadPool) (count : ℕ → ℕ) : Prop :=
  ∃ k, ∀ i, i < p.numThreads → count i = k + if i < p.next then 1 else 0

theorem Turns.le_succ {p : EventLoopThreadPool} {count : ℕ → ℕ} (h : p.Turns count)
    {i j : ℕ} (hi : i < p.numThreads) (hj : j < p.numThreads) : count i ≤ count j + 1 := by
  obtain ⟨k, hk⟩ := h
  rw [hk i hi, hk j hj]
  split <;> omega

theorem Turns.advance {p : EventLoopThreadPool} (hp : p.Ready) {count : ℕ → ℕ}
    (h : p.Turns count) :
    p.advance.Turns (Function.update count p.next (count p.next + 1)) := by
  obtain ⟨k, hk⟩ := h
  have hlt := hp.next_lt
  by_cases hlast : p.next + 1 = p.numThreads
  -- the last loop has had its turn: a round is complete
  · refine ⟨k + 1, fun i hi => ?_⟩
    have hi : i < p.numThreads := hi
    have hnext : p.advance.next = 0 := by
      simp [EventLoopThreadPool.advance, hlast]
    rw [hnext, if_neg (Nat.not_lt_zero i), Nat.add_zero]
    by_cases heq : i = p.next
    · subst heq
      simp [hk _ hlt]
    · have hbefore : i < p.next := by omega
      simp [Function.update_of_ne heq, hk i hi, hbefore]
  · refine ⟨k, fun i hi => ?_⟩
    have hi : i < p.numThreads := hi
    have hnext : p.advance.next = p.next + 1 := Nat.mod_eq_of_lt (by omega)
    rw [hnext]
    by_cases heq : i = p.next
    · subst heq
      simp [hk _ hlt]
    · rw [Function.update_of_ne heq, hk i hi]
      have hsame : i < p.next + 1 ↔ i < p.next := by omega
      simp only [hsame]

end EventLoopThreadPool

end Net

end SoL
