import SoL.Net.Util

/-!
# Kernels that follow a script

The kernel of a `Script` answers the system calls on a descriptor from two lists
of outcomes. A chunk of bytes that is longer than what a `read` asks for stays,
without the bytes taken, for the next one; a `write` accepts the number of bytes
that its outcome names, at least one and at most what it is given. When a list
is used up, the answer is `EAGAIN`. Every finite behaviour of a nonblocking
descriptor is one of these.

`answers` are the answers to `read` so far and `accepted` the bytes that `write`
has accepted; no code sees them.

The three `readn` take what is readable and nothing else (`readn_script`,
`readnStringLoop_script`): the bytes of the script before its first end.
-/

namespace SoL

namespace Net

inductive ReadOutcome
  | chunk (first : UInt8) (more : List UInt8)
  | interrupt
  | eof
  | again
  | error
  deriving DecidableEq

inductive WriteOutcome
  | accept (k : ℕ)
  | interrupt
  | again
  | error
  deriving DecidableEq

structure Script where
  reads : List ReadOutcome
  writes : List WriteOutcome
  answers : List ReadAnswer
  accepted : List UInt8

namespace Script

/-- The answer to a `read` of `n` bytes, and the outcomes left. -/
def readAnswer (n : ℕ) : List ReadOutcome → ReadAnswer × List ReadOutcome
  | [] => (.error .EAGAIN, [])
  | .interrupt :: rest => (.error .EINTR, rest)
  | .again :: rest => (.error .EAGAIN, rest)
  | .error :: rest => (.error .other, rest)
  | .eof :: rest => (.bytes [], rest)
  | .chunk b bs :: rest =>
      (.bytes ((b :: bs).take n),
        match (b :: bs).drop n with
        | [] => rest
        | c :: cs => .chunk c cs :: rest)

def read (s : Script) (n : ℕ) : ReadAnswer × Script :=
  let answer := readAnswer n s.reads
  (answer.1, { s with reads := answer.2, answers := s.answers ++ [answer.1] })

/-- The number of bytes that a `write` of `n` bytes accepts when its outcome names
`k`. -/
def quota (k n : ℕ) : ℕ := max 1 (min k n)

def write (s : Script) (ptr : List UInt8) : WriteAnswer × Script :=
  match s.writes with
  | [] => (.error .EAGAIN, s)
  | .interrupt :: rest => (.error .EINTR, { s with writes := rest })
  | .again :: rest => (.error .EAGAIN, { s with writes := rest })
  | .error :: rest => (.error .other, { s with writes := rest })
  | .accept k :: rest =>
      (.accepted (quota k ptr.length),
        { s with
          writes := rest
          accepted := s.accepted ++ ptr.take (quota k ptr.length) })

/-- How many answers the outcomes are enough for at most. -/
def size : List ReadOutcome → ℕ
  | [] => 0
  | .chunk _ bs :: rest => bs.length + 2 + size rest
  | .interrupt :: rest | .again :: rest | .error :: rest | .eof :: rest => 1 + size rest

def budget (s : Script) : ℕ := size s.reads + s.writes.length

theorem quota_pos (k n : ℕ) : 0 < quota k n := lt_of_lt_of_le Nat.one_pos (le_max_left _ _)

theorem quota_le {k n : ℕ} (hn : 0 < n) : quota k n ≤ n := max_le hn (min_le_right _ _)

theorem size_left (n : ℕ) (b : UInt8) (bs : List UInt8) (rest : List ReadOutcome)
    (hn : n ≠ 0) :
    size (match (b :: bs).drop n with
      | [] => rest
      | c :: cs => .chunk c cs :: rest) < size (.chunk b bs :: rest) := by
  have hlen : ((b :: bs).drop n).length ≤ bs.length := by
    rw [List.length_drop, List.length_cons]
    omega
  cases hdrop : (b :: bs).drop n with
  | nil =>
      simp only [size]
      omega
  | cons c cs =>
      rw [hdrop, List.length_cons] at hlen
      simp only [size]
      omega

theorem budget_lt_of_bytes {s t : Script} {n : ℕ} {bs : List UInt8}
    (h : s.read n = (.bytes bs, t)) : bs.length ≤ n ∧ (bs ≠ [] → t.budget < s.budget) := by
  obtain ⟨hanswer, rfl⟩ := Prod.mk.inj h
  cases hreads : s.reads with
  | nil => simp [hreads, readAnswer] at hanswer
  | cons o rest =>
      rw [hreads] at hanswer
      cases o with
      | interrupt | again | error => simp [readAnswer] at hanswer
      | eof =>
          obtain rfl : [] = bs := by simpa [readAnswer] using hanswer
          simp
      | chunk c cs =>
          obtain rfl : (c :: cs).take n = bs := by simpa [readAnswer] using hanswer
          refine ⟨List.length_take_le _ _, fun hne => ?_⟩
          have hn : n ≠ 0 := by
            rintro rfl
            simp at hne
          have hleft := size_left n c cs rest hn
          simpa [budget, hreads, readAnswer] using hleft

theorem budget_lt_of_read_eintr {s t : Script} {n : ℕ} (h : s.read n = (.error .EINTR, t)) :
    t.budget < s.budget := by
  obtain ⟨hanswer, rfl⟩ := Prod.mk.inj h
  cases hreads : s.reads with
  | nil => simp [hreads, readAnswer] at hanswer
  | cons o rest =>
      rw [hreads] at hanswer
      cases o with
      | interrupt =>
          simp only [budget, hreads, readAnswer, size]
          omega
      | again | error | eof | chunk => simp [readAnswer] at hanswer

theorem budget_lt_of_accepted {s t : Script} {ptr : List UInt8} {k : ℕ} (hptr : ptr ≠ [])
    (h : s.write ptr = (.accepted k, t)) :
    k ≤ ptr.length ∧ t.budget + (ptr.length - k) < s.budget + ptr.length := by
  have hpos : 0 < ptr.length := List.length_pos_iff.2 hptr
  cases hwrites : s.writes with
  | nil => simp [write, hwrites] at h
  | cons o rest =>
      cases o with
      | interrupt | again | error => simp [write, hwrites] at h
      | accept j =>
          obtain ⟨rfl, rfl⟩ : quota j ptr.length = k ∧ _ = t := by simpa [write, hwrites] using h
          refine ⟨quota_le hpos, ?_⟩
          simp only [budget, hwrites, List.length_cons]
          omega

theorem budget_lt_of_write_eintr {s t : Script} {ptr : List UInt8}
    (h : s.write ptr = (.error .EINTR, t)) : t.budget < s.budget := by
  cases hwrites : s.writes with
  | nil => simp [write, hwrites] at h
  | cons o rest =>
      cases o with
      | interrupt =>
          obtain rfl : _ = t := by simpa [write, hwrites] using h
          simp [budget, hwrites]
      | again | error | accept => simp [write, hwrites] at h

/-- The script as a kernel for the functions that read and write. -/
def kernel : Kernel Script where
  read := read
  write := write
  budget := budget
  read_bytes := fun _ _ _ _ h => budget_lt_of_bytes h
  read_eintr := fun _ _ _ h => budget_lt_of_read_eintr h
  write_accepted := fun _ _ _ _ hptr h => budget_lt_of_accepted hptr h
  write_eintr := fun _ _ _ h => budget_lt_of_write_eintr h

/-- The bytes that can be read before the first end. -/
def available : List ReadOutcome → List UInt8
  | .chunk b bs :: rest => b :: bs ++ available rest
  | .interrupt :: rest => available rest
  | _ => []

/-- The answer that follows these bytes. -/
def ending : List ReadOutcome → ReadAnswer
  | .chunk _ _ :: rest => ending rest
  | .interrupt :: rest => ending rest
  | .eof :: _ => .bytes []
  | .error :: _ => .error .other
  | .again :: _ | [] => .error .EAGAIN

/-- The bytes that some answers hand over. -/
def handed (answers : List ReadAnswer) : List UInt8 :=
  answers.flatMap fun
    | .bytes bs => bs
    | .error _ => []

theorem ending_cases (reads : List ReadOutcome) :
    ending reads = .bytes [] ∨ ending reads = .error .EAGAIN ∨
      ending reads = .error .other := by
  induction reads with
  | nil => exact .inr (.inl rfl)
  | cons o rest ih =>
      cases o with
      | chunk | interrupt => exact ih
      | eof => exact .inl rfl
      | again => exact .inr (.inl rfl)
      | error => exact .inr (.inr rfl)

/-- An answer is an interruption, the next bytes, or the end. -/
theorem read_cases {n : ℕ} (hn : n ≠ 0) (s : Script) :
    ∃ answer t, kernel.read s n = (answer, t) ∧ t.answers = s.answers ++ [answer] ∧
      ((answer = .error .EINTR ∧ available s.reads = available t.reads ∧
          ending s.reads = ending t.reads) ∨
        (∃ bs, bs ≠ [] ∧ bs.length ≤ n ∧ answer = .bytes bs ∧
          available s.reads = bs ++ available t.reads ∧ ending s.reads = ending t.reads) ∨
        (answer = ending s.reads ∧ available s.reads = [])) := by
  obtain ⟨reads, writes, answers, accepted⟩ := s
  refine ⟨_, _, rfl, rfl, ?_⟩
  cases reads with
  | nil => exact .inr (.inr ⟨rfl, rfl⟩)
  | cons o rest =>
      cases o with
      | interrupt => exact .inl ⟨rfl, rfl, rfl⟩
      | again | error | eof => exact .inr (.inr ⟨rfl, rfl⟩)
      | chunk b bs =>
          refine .inr (.inl ⟨(b :: bs).take n, by simpa using hn, List.length_take_le _ _, rfl, ?_⟩)
          have hsplit := List.take_append_drop n (b :: bs)
          cases hdrop : (b :: bs).drop n with
          | nil =>
              rw [hdrop, List.append_nil] at hsplit
              simp [readAnswer, hdrop, available, ending, hsplit]
          | cons c cs =>
              rw [hdrop] at hsplit
              simp only [readAnswer, hdrop, available, ending, and_true]
              rw [← List.append_assoc, hsplit]

theorem handed_cons_eintr (answers : List ReadAnswer) :
    handed (.error .EINTR :: answers) = handed answers := rfl

theorem handed_cons_bytes (bs : List UInt8) (answers : List ReadAnswer) :
    handed (.bytes bs :: answers) = bs ++ handed answers := rfl

theorem handed_ending (reads : List ReadOutcome) : handed [ending reads] = [] := by
  obtain hend | hend | hend := ending_cases reads
  · rw [hend]
    rfl
  · rw [hend]
    rfl
  · rw [hend]
    rfl

/-- The loop that reads into a string appends what is readable, and ends with
the answer after it. -/
theorem readnStringLoop_script (s : Script) (readSum : ℤ) (inBuffer : List UInt8) :
    ∃ t given, readnStringLoop kernel s readSum inBuffer =
        ⟨if ending s.reads = .error .other then -1
          else readSum + (available s.reads).length,
          inBuffer ++ available s.reads, ending s.reads = .bytes [], t⟩ ∧
      t.answers = s.answers ++ given ∧ handed given = available s.reads ∧
      given.getLast? = some (ending s.reads) := by
  induction hb : s.budget using Nat.strong_induction_on generalizing s readSum inBuffer with
  | _ b ih =>
      subst hb
      obtain ⟨answer, t, hread, hlog, ⟨rfl, havail, hend⟩ | ⟨bs, hbs, -, rfl, havail, hend⟩ |
        ⟨rfl, havail⟩⟩ := read_cases (n := MAX_BUFF) (by decide) s
      · obtain ⟨u, given, hloop, hanswers, hhanded, hlast⟩ :=
          ih _ (budget_lt_of_read_eintr hread) t readSum inBuffer rfl
        refine ⟨u, .error .EINTR :: given, ?_, by simp [hanswers, hlog], ?_, ?_⟩
        · rw [readnStringLoop_eintr hread, hloop, havail, hend]
        · rw [handed_cons_eintr, hhanded, havail]
        · rw [List.getLast?_cons, hlast, Option.getD_some, hend]
      · obtain ⟨u, given, hloop, hanswers, hhanded, hlast⟩ :=
          ih _ ((budget_lt_of_bytes hread).2 hbs) t (readSum + bs.length) (inBuffer ++ bs) rfl
        refine ⟨u, .bytes bs :: given, ?_, by simp [hanswers, hlog], ?_, ?_⟩
        · rw [readnStringLoop_bytes hbs hread, hloop, havail, hend, List.length_append,
            Nat.cast_add, ← add_assoc, List.append_assoc]
        · rw [handed_cons_bytes, hhanded, havail]
        · rw [List.getLast?_cons, hlast, Option.getD_some, hend]
      · refine ⟨t, [ending s.reads], ?_, hlog, by rw [handed_ending, havail], rfl⟩
        rw [havail]
        obtain hend | hend | hend := ending_cases s.reads
        · rw [hend] at hread ⊢
          simpa using readnStringLoop_eof hread
        · rw [hend] at hread ⊢
          simpa using readnStringLoop_eagain hread
        · rw [hend] at hread ⊢
          simpa using readnStringLoop_error hread

/-- The loop of `readn` takes what is readable up to the number asked for, and
has met the end when it takes less. -/
theorem readnLoop_script (s : Script) (n : ℕ) (readSum : ℤ) (buff : List UInt8) :
    ∃ t given, readnLoop kernel s n readSum buff =
        ⟨if n ≤ (available s.reads).length then readSum + n
          else if ending s.reads = .error .other then -1
          else readSum + (available s.reads).length,
          buff ++ (available s.reads).take n, t⟩ ∧
      t.answers = s.answers ++ given ∧ handed given = (available s.reads).take n ∧
      ((available s.reads).length < n → given.getLast? = some (ending s.reads)) := by
  induction hb : s.budget using Nat.strong_induction_on generalizing s n readSum buff with
  | _ b ih =>
      subst hb
      rcases Nat.eq_zero_or_pos n with rfl | hn
      · exact ⟨s, [], by simp [readnLoop_zero], by simp, rfl, by simp⟩
      obtain ⟨answer, t, hread, hlog, ⟨rfl, havail, hend⟩ | ⟨bs, hbs, hle, rfl, havail, hend⟩ |
        ⟨rfl, havail⟩⟩ := read_cases hn.ne' s
      · obtain ⟨u, given, hloop, hanswers, hhanded, hlast⟩ :=
          ih _ (budget_lt_of_read_eintr hread) t n readSum buff rfl
        refine ⟨u, .error .EINTR :: given, ?_, by simp [hanswers, hlog], ?_, fun hlt => ?_⟩
        · rw [readnLoop_eintr hn.ne' hread, hloop, havail, hend]
        · rw [handed_cons_eintr, hhanded, havail]
        · rw [List.getLast?_cons, hlast (havail ▸ hlt), Option.getD_some, hend]
      · obtain ⟨u, given, hloop, hanswers, hhanded, hlast⟩ :=
          ih _ ((budget_lt_of_bytes hread).2 hbs) t (n - bs.length) (readSum + bs.length)
            (buff ++ bs) rfl
        have hlen : (available s.reads).length = bs.length + (available t.reads).length := by
          rw [havail, List.length_append]
        have htake : (available s.reads).take n =
            bs ++ (available t.reads).take (n - bs.length) := by
          rw [havail, List.take_append, List.take_of_length_le hle]
        refine ⟨u, .bytes bs :: given, ?_, by simp [hanswers, hlog], ?_, fun hlt => ?_⟩
        · rw [readnLoop_bytes hn.ne' hbs hread, hloop, hend, htake, hlen, List.append_assoc]
          congr 1
          have hcast : ((n - bs.length : ℕ) : ℤ) = n - bs.length := Nat.cast_sub hle
          by_cases henough : n ≤ bs.length + (available t.reads).length
          · rw [if_pos henough, if_pos (by omega)]
            omega
          · rw [if_neg henough, if_neg (by omega)]
            split
            · rfl
            · push_cast
              omega
        · rw [handed_cons_bytes, hhanded, htake]
        · rw [List.getLast?_cons, hlast (by omega), Option.getD_some, hend]
      · refine ⟨t, [ending s.reads], ?_, hlog, by rw [handed_ending, havail, List.take_nil],
          fun _ => rfl⟩
        rw [havail]
        obtain hend | hend | hend := ending_cases s.reads
        · rw [hend] at hread ⊢
          simpa [hn.ne'] using readnLoop_eof hn.ne' hread
        · rw [hend] at hread ⊢
          simpa [hn.ne'] using readnLoop_eagain hn.ne' hread
        · rw [hend] at hread ⊢
          simpa [hn.ne'] using readnLoop_error hn.ne' hread

/-- The call ended because there was nothing more to read, now or ever. -/
def endsDrained (given : List ReadAnswer) : Prop :=
  given.getLast? = some (.error .EAGAIN) ∨ given.getLast? = some (.bytes [])

theorem endsDrained_of_ending {given : List ReadAnswer} {reads : List ReadOutcome}
    (hlast : given.getLast? = some (ending reads)) (hend : ending reads ≠ .error .other) :
    endsDrained given := by
  obtain heof | hagain | hother := ending_cases reads
  · exact .inr (hlast.trans (congrArg some heof))
  · exact .inl (hlast.trans (congrArg some hagain))
  · exact absurd hother hend

/-- A `readn` into a string keeps every byte that the answers `given` handed over,
and counts them unless it fails. -/
structure ReadsString (s : Script) (inBuffer : List UInt8) (given : List ReadAnswer)
    (r : StringReadReturn Script) : Prop where
  answers : r.kernel.answers = s.answers ++ given
  kept : r.inBuffer = inBuffer ++ handed given
  counted : 0 ≤ r.result → r.result = (handed given).length ∧ endsDrained given

/-- A `readn` into an array of `n` bytes that does not fail has stored and counted
what the answers `given` handed over, and stopped short of `n` at the end only. -/
structure ReadsArray (s : Script) (n : ℕ) (given : List ReadAnswer) (r : ReadReturn Script) :
    Prop where
  answers : r.kernel.answers = s.answers ++ given
  kept : 0 ≤ r.result → r.stored = handed given ∧ r.result = (handed given).length
  short : 0 ≤ r.result → r.result ≤ n ∧ (r.result < n → endsDrained given)

theorem readsString_loop (s : Script) (inBuffer : List UInt8) :
    ∃ given, ReadsString s inBuffer given (readnStringLoop kernel s 0 inBuffer) ∧
      ((readnStringLoop kernel s 0 inBuffer).eof = true ↔
        given.getLast? = some (.bytes [])) := by
  obtain ⟨t, given, hloop, hanswers, hhanded, hlast⟩ := readnStringLoop_script s 0 inBuffer
  rw [hloop]
  refine ⟨given, ⟨hanswers, by rw [hhanded], fun hresult => ?_⟩, by simp [hlast]⟩
  by_cases hend : ending s.reads = .error .other
  · simp [hend] at hresult
  · exact ⟨by simp [hend, hhanded], endsDrained_of_ending hlast hend⟩

theorem readsArray_readn (s : Script) (n : ℕ) :
    ∃ given, ReadsArray s n given (readn kernel s n) := by
  obtain ⟨t, given, hloop, hanswers, hhanded, hlast⟩ := readnLoop_script s n 0 []
  rw [readn, hloop]
  by_cases henough : n ≤ (available s.reads).length
  · refine ⟨given, hanswers, fun _ => ?_, fun _ => ?_⟩
    · simp [henough, hhanded]
    · simp [henough]
  · by_cases hend : ending s.reads = .error .other
    · refine ⟨given, hanswers, fun hresult => ?_, fun hresult => ?_⟩ <;>
        simp [henough, hend] at hresult
    · have hlt : (available s.reads).length < n := not_le.1 henough
      refine ⟨given, hanswers, fun _ => ?_, fun _ => ?_⟩
      · simp [henough, hend, hhanded, hlt.le]
      · simp only [henough, hend, if_false, zero_add]
        exact ⟨by exact_mod_cast hlt.le, fun _ => endsDrained_of_ending (hlast hlt) hend⟩

/-- The three overloads of `readn` on one script, for every string and every size:
both that read into a string append every byte handed over and end, unless they
fail, when nothing is readable any more, with `zero` for the end of the stream;
the one that reads into an array stores what it takes; and the array holds the
first of the bytes that the strings get. -/
theorem readn_script (s : Script) (inBuffer : List UInt8) (n : ℕ) :
    (∃ given, ReadsString s inBuffer given (readnStringZero kernel s inBuffer false).1 ∧
        ((readnStringZero kernel s inBuffer false).2 = true ↔
          given.getLast? = some (.bytes []))) ∧
      (∃ given, ReadsString s inBuffer given (readnString kernel s inBuffer)) ∧
      (∃ given, ReadsArray s n given (readn kernel s n)) ∧
      (readnStringZero kernel s inBuffer false).1.inBuffer =
        (readnString kernel s inBuffer).inBuffer ∧
      (readn kernel s n).stored = (readnString kernel s []).inBuffer.take n := by
  obtain ⟨given, hreads, heof⟩ := readsString_loop s inBuffer
  refine ⟨⟨given, hreads, ?_⟩, ⟨given, hreads⟩, readsArray_readn s n, rfl, ?_⟩
  · rw [← heof]
    simp [readnStringZero]
  · obtain ⟨t, -, harray, -⟩ := readnLoop_script s n 0 []
    obtain ⟨u, -, hstring, -⟩ := readnStringLoop_script s 0 []
    rw [readn, readnString, harray, hstring]
    simp

end Script

end Net

end SoL
