import Mathlib.Data.List.Basic

/-!
# Directories

The files of a directory in the order of their creation, over any names and any
contents. A file is opened for appending: it is created unless there is one of
that name.
-/

namespace Container

namespace Directory

variable {ν β : Type*}

def names (d : List (ν × List β)) : List ν := d.map Prod.fst

variable [DecidableEq ν]

def openAppend (d : List (ν × List β)) (n : ν) : List (ν × List β) :=
  if n ∈ names d then d else d ++ [(n, [])]

/-- Append to the file of a name. -/
def write (d : List (ν × List β)) (n : ν) (bs : List β) : List (ν × List β) :=
  d.map fun e => if e.1 = n then (e.1, e.2 ++ bs) else e

theorem openAppend_of_notMem {d : List (ν × List β)} {n : ν} (h : n ∉ names d) :
    openAppend d n = d ++ [(n, [])] := if_neg h

theorem write_append (d e : List (ν × List β)) (n : ν) (bs : List β) :
    write (d ++ e) n bs = write d n bs ++ write e n bs := List.map_append

@[simp] theorem write_singleton (n : ν) (c bs : List β) :
    write [(n, c)] n bs = [(n, c ++ bs)] := by
  simp [write]

theorem write_of_notMem {d : List (ν × List β)} {n : ν} (h : n ∉ names d) (bs : List β) :
    write d n bs = d := by
  have hentry : ∀ e ∈ d, (if e.1 = n then (e.1, e.2 ++ bs) else e) = e := by
    intro e he
    have hname : e.1 ≠ n := by
      rintro rfl
      exact h (List.mem_map_of_mem he)
    rw [if_neg hname]
  calc write d n bs = d.map id := List.map_congr_left hentry
    _ = d := List.map_id d

/-- The last file is written alone if no other one has its name. -/
theorem write_concat {d : List (ν × List β)} {n : ν} (h : n ∉ names d) (c bs : List β) :
    write (d ++ [(n, c)]) n bs = d ++ [(n, c ++ bs)] := by
  rw [write_append, write_of_notMem h, write_singleton]

end Directory

end Container
