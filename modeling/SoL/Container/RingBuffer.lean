import Mathlib.Tactic

/-!
# Ring buffers

A ring is an array of `size` slots of which `count` are in use, from `head` on
and around the end. `tail` is the slot for the next element. `push` and `pop` are
sequences of assignments, each of which has a name, so that a program that makes
them one after the other can be compared with the ring at every point.

`contents` is the queue that a valid ring holds: `push` adds at its end, and
`pop` takes its first element.
-/

namespace Container

structure RingBuffer (α : Type*) where
  slots : ℕ → α
  size : ℕ
  head : ℕ
  tail : ℕ
  count : ℕ

namespace RingBuffer

variable {α : Type*} (r : RingBuffer α)

/-- An empty ring, whose slots have some value. -/
def empty (default : α) (size : ℕ) : RingBuffer α where
  slots := fun _ => default
  size := size
  head := 0
  tail := 0
  count := 0

/-- The slot after the tail. -/
def next : ℕ := (r.tail + 1) % r.size

def front : α := r.slots r.head

def store (x : α) : RingBuffer α := { r with slots := Function.update r.slots r.tail x }

def moveTail (next : ℕ) : RingBuffer α := { r with tail := next }

def grow : RingBuffer α := { r with count := r.count + 1 }

def moveHead : RingBuffer α := { r with head := (r.head + 1) % r.size }

def shrink : RingBuffer α := { r with count := r.count - 1 }

def push (x : α) : RingBuffer α := ((r.store x).moveTail r.next).grow

def pop : RingBuffer α := r.moveHead.shrink

/-- The elements in use, from the head on. -/
def contents : List α :=
  (List.range r.count).map fun i => r.slots ((r.head + i) % r.size)

structure Valid : Prop where
  head_lt : r.head < r.size
  count_le : r.count ≤ r.size
  tail_eq : r.tail = (r.head + r.count) % r.size

variable {r}

theorem Valid.size_pos (h : r.Valid) : 0 < r.size := Nat.zero_lt_of_lt h.head_lt

theorem Valid.tail_lt (h : r.Valid) : r.tail < r.size :=
  h.tail_eq ▸ Nat.mod_lt _ h.size_pos

theorem valid_empty (default : α) {size : ℕ} (h : 0 < size) : (empty default size).Valid :=
  ⟨h, Nat.zero_le _, by simp [empty]⟩

/-- A slot in use is not the tail of a ring with room. -/
theorem Valid.slot_ne_tail (h : r.Valid) (hroom : r.count < r.size) {i : ℕ} (hi : i < r.count) :
    (r.head + i) % r.size ≠ r.tail := by
  rw [h.tail_eq]
  intro heq
  have hmod : r.head + i ≡ r.head + r.count [MOD r.size] := heq
  have hcancel : i ≡ r.count [MOD r.size] := Nat.ModEq.add_left_cancel' r.head hmod
  have : i = r.count := hcancel.eq_of_lt_of_lt (hi.trans hroom) hroom
  omega

theorem Valid.push (h : r.Valid) (hroom : r.count < r.size) (x : α) : (r.push x).Valid := by
  refine ⟨h.head_lt, hroom, ?_⟩
  change (r.tail + 1) % r.size = (r.head + (r.count + 1)) % r.size
  rw [h.tail_eq, Nat.mod_add_mod, Nat.add_assoc]

theorem contents_push (h : r.Valid) (hroom : r.count < r.size) (x : α) :
    (r.push x).contents = r.contents ++ [x] := by
  change (List.range (r.count + 1)).map
    (fun i => Function.update r.slots r.tail x ((r.head + i) % r.size)) = r.contents ++ [x]
  rw [List.range_succ, List.map_append, List.map_singleton, ← h.tail_eq, Function.update_self]
  congr 1
  refine List.map_congr_left fun i hi => ?_
  exact Function.update_of_ne (h.slot_ne_tail hroom (List.mem_range.1 hi)) _ _

theorem Valid.pop (h : r.Valid) (hcount : 0 < r.count) : r.pop.Valid := by
  refine ⟨Nat.mod_lt _ h.size_pos, (Nat.sub_le _ _).trans h.count_le, ?_⟩
  change r.tail = ((r.head + 1) % r.size + (r.count - 1)) % r.size
  rw [h.tail_eq, Nat.mod_add_mod]
  congr 1
  omega

theorem contents_pop (h : r.Valid) (hcount : 0 < r.count) :
    r.contents = r.front :: r.pop.contents := by
  obtain ⟨n, hn⟩ : ∃ n, r.count = n + 1 := ⟨r.count - 1, by omega⟩
  have hfront : r.slots ((r.head + 0) % r.size) = r.front := by
    rw [Nat.add_zero, Nat.mod_eq_of_lt h.head_lt]
    rfl
  have hrest : r.pop.contents =
      (List.range n).map fun i => r.slots ((r.head + (i + 1)) % r.size) := by
    change (List.range (r.count - 1)).map
      (fun i => r.slots (((r.head + 1) % r.size + i) % r.size)) = _
    rw [hn, Nat.add_sub_cancel]
    refine List.map_congr_left fun i _ => ?_
    rw [Nat.mod_add_mod, Nat.add_assoc, Nat.add_comm 1 i]
  rw [contents, hn, List.range_succ_eq_map, List.map_cons, hfront, hrest, List.map_map]
  rfl

theorem contents_eq_nil (hcount : r.count = 0) : r.contents = [] := by
  simp [contents, hcount]

end RingBuffer

end Container
