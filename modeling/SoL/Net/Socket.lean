import SoL.Net.Util

/-!
# A connection of the server

The kernel's side of one nonblocking TCP connection whose writes never block:
the bytes that have arrived and are unread, whether the peer has closed, and the
bytes that the server has written. Each entry of `choices` decides one system
call: it is interrupted, or it moves at most so many bytes. When the entries are
used up, a call moves as much as it can.

Neither `readn` nor `writen` depends on these choices: `readn` takes the bytes
that have arrived, up to the number asked for, and `writen` writes everything.
-/

namespace SoL

namespace Net

inductive Choice
  | interrupt
  | atMost (k : ℕ)
  deriving DecidableEq

structure Socket where
  received : List UInt8
  closed : Bool
  sent : List UInt8
  choices : List Choice
  deriving DecidableEq

namespace Socket

/-- A new connection. -/
def new : Socket where
  received := []
  closed := false
  sent := []
  choices := []

/-- The number of bytes that the next call may move; at least one. -/
def quota (s : Socket) (n : ℕ) : ℕ :=
  match s.choices with
  | .atMost k :: _ => min n (k + 1)
  | _ => n

def read (s : Socket) (n : ℕ) : ReadAnswer × Socket :=
  if s.choices.head? = some .interrupt then
    (.error .EINTR, { s with choices := s.choices.tail })
  else if s.received = [] then
    (if s.closed then .bytes [] else .error .EAGAIN, s)
  else
    (.bytes (s.received.take (s.quota n)),
      { s with received := s.received.drop (s.quota n), choices := s.choices.tail })

def write (s : Socket) (ptr : List UInt8) : WriteAnswer × Socket :=
  if s.choices.head? = some .interrupt then
    (.error .EINTR, { s with choices := s.choices.tail })
  else
    (.accepted (s.quota ptr.length),
      { s with sent := s.sent ++ ptr.take (s.quota ptr.length), choices := s.choices.tail })

theorem quota_le (s : Socket) (n : ℕ) : s.quota n ≤ n := by
  unfold quota
  split
  · exact Nat.min_le_left _ _
  · exact le_rfl

theorem quota_pos (s : Socket) {n : ℕ} (hn : 0 < n) : 0 < s.quota n := by
  unfold quota
  split
  · exact lt_min hn (Nat.succ_pos _)
  · exact hn

theorem length_tail_lt {s : Socket} (h : s.choices.head? = some .interrupt) :
    s.choices.tail.length < s.choices.length := by
  cases hc : s.choices with
  | nil => simp [hc] at h
  | cons c cs => simp

theorem read_interrupt {s : Socket} (n : ℕ) (h : s.choices.head? = some .interrupt) :
    s.read n = (.error .EINTR, { s with choices := s.choices.tail }) := if_pos h

theorem read_nil {s : Socket} (n : ℕ) (h : s.choices.head? ≠ some .interrupt)
    (hnil : s.received = []) :
    s.read n = (if s.closed then .bytes [] else .error .EAGAIN, s) := by
  simp [read, h, hnil]

theorem read_data {s : Socket} (n : ℕ) (h : s.choices.head? ≠ some .interrupt)
    (hdata : s.received ≠ []) :
    s.read n = (.bytes (s.received.take (s.quota n)),
      { s with received := s.received.drop (s.quota n), choices := s.choices.tail }) := by
  simp [read, h, hdata]

theorem write_interrupt {s : Socket} (ptr : List UInt8)
    (h : s.choices.head? = some .interrupt) :
    s.write ptr = (.error .EINTR, { s with choices := s.choices.tail }) := if_pos h

theorem write_data {s : Socket} (ptr : List UInt8)
    (h : s.choices.head? ≠ some .interrupt) :
    s.write ptr = (.accepted (s.quota ptr.length),
      { s with sent := s.sent ++ ptr.take (s.quota ptr.length)
               choices := s.choices.tail }) := if_neg h

/-- The bytes and the choices that are left bound the calls that do not end a
loop. -/
def budget (s : Socket) : ℕ := s.received.length + s.choices.length

theorem budget_lt_of_bytes {s t : Socket} {n : ℕ} {bs : List UInt8}
    (h : s.read n = (.bytes bs, t)) : bs.length ≤ n ∧ (bs ≠ [] → t.budget < s.budget) := by
  by_cases hint : s.choices.head? = some .interrupt
  · simp [read_interrupt n hint] at h
  by_cases hnil : s.received = []
  · rw [read_nil n hint hnil] at h
    cases hclosed : s.closed with
    | false => simp [hclosed] at h
    | true =>
        obtain ⟨rfl, -⟩ : [] = bs ∧ s = t := by simpa [hclosed] using h
        simp
  · rw [read_data n hint hnil] at h
    obtain ⟨hbs, rfl⟩ := Prod.mk.inj h
    obtain rfl := ReadAnswer.bytes.inj hbs
    refine ⟨(List.length_take_le _ _).trans (s.quota_le n), fun hne => ?_⟩
    have hlen : 0 < (s.received.take (s.quota n)).length := List.length_pos_iff.2 hne
    have htail := s.choices.length_tail
    simp only [budget, List.length_take, List.length_drop] at hlen ⊢
    omega

theorem budget_lt_of_read_eintr {s t : Socket} {n : ℕ} (h : s.read n = (.error .EINTR, t)) :
    t.budget < s.budget := by
  by_cases hint : s.choices.head? = some .interrupt
  · rw [read_interrupt n hint] at h
    obtain ⟨-, rfl⟩ := Prod.mk.inj h
    exact Nat.add_lt_add_left (length_tail_lt hint) _
  by_cases hnil : s.received = []
  · rw [read_nil n hint hnil] at h
    cases hclosed : s.closed <;> simp [hclosed] at h
  · simp [read_data n hint hnil] at h

theorem budget_lt_of_accepted {s t : Socket} {ptr : List UInt8} {k : ℕ} (hptr : ptr ≠ [])
    (h : s.write ptr = (.accepted k, t)) :
    k ≤ ptr.length ∧ t.budget + (ptr.length - k) < s.budget + ptr.length := by
  by_cases hint : s.choices.head? = some .interrupt
  · simp [write_interrupt ptr hint] at h
  · rw [write_data ptr hint] at h
    obtain ⟨hk, rfl⟩ := Prod.mk.inj h
    obtain rfl := WriteAnswer.accepted.inj hk
    have hpos := s.quota_pos (List.length_pos_iff.2 hptr)
    have hle := s.quota_le ptr.length
    have htail := s.choices.length_tail
    refine ⟨hle, ?_⟩
    simp only [budget]
    omega

theorem budget_lt_of_write_eintr {s t : Socket} {ptr : List UInt8}
    (h : s.write ptr = (.error .EINTR, t)) : t.budget < s.budget := by
  by_cases hint : s.choices.head? = some .interrupt
  · rw [write_interrupt ptr hint] at h
    obtain ⟨-, rfl⟩ := Prod.mk.inj h
    exact Nat.add_lt_add_left (length_tail_lt hint) _
  · simp [write_data ptr hint] at h

/-- The connection as a kernel for `readn` and `writen`. -/
def kernel : Kernel Socket where
  read := read
  write := write
  budget := budget
  read_bytes := fun _ _ _ _ h => budget_lt_of_bytes h
  read_eintr := fun _ _ _ h => budget_lt_of_read_eintr h
  write_accepted := fun _ _ _ _ hptr h => budget_lt_of_accepted hptr h
  write_eintr := fun _ _ _ h => budget_lt_of_write_eintr h

/-- Taking some bytes and then the missing ones takes as many as were asked for. -/
theorem take_append_take_drop {l : List UInt8} {q n : ℕ} (hq : q ≤ n) :
    l.take q ++ (l.drop q).take (n - (l.take q).length) = l.take n := by
  rcases le_total q l.length with hle | hle
  · rw [List.length_take, min_eq_left hle, ← List.take_add, Nat.add_sub_cancel' hq]
  · simp [List.drop_eq_nil_of_le hle, List.take_of_length_le hle,
      List.take_of_length_le (hle.trans hq)]

theorem drop_drop_length_take {l : List UInt8} {q n : ℕ} (hq : q ≤ n) :
    (l.drop q).drop (n - (l.take q).length) = l.drop n := by
  rcases le_total q l.length with hle | hle
  · rw [List.length_take, min_eq_left hle, List.drop_drop, Nat.add_sub_cancel' hq]
  · simp [List.drop_eq_nil_of_le hle, List.drop_eq_nil_of_le (hle.trans hq)]

/-- Without data the loop ends, whether or not the peer has closed. -/
theorem readnLoop_kernel_nil {s : Socket} {n : ℕ} (hn : n ≠ 0)
    (h : s.choices.head? ≠ some .interrupt) (hnil : s.received = []) (readSum : ℤ)
    (stored : List UInt8) : readnLoop kernel s n readSum stored = ⟨readSum, stored, s⟩ := by
  have hread : kernel.read s n = _ := read_nil n h hnil
  cases hclosed : s.closed with
  | false =>
      rw [hclosed, if_neg Bool.false_ne_true] at hread
      exact readnLoop_eagain hn hread
  | true =>
      rw [hclosed, if_pos rfl] at hread
      exact readnLoop_eof hn hread

theorem readnLoop_kernel (s : Socket) (n : ℕ) (readSum : ℤ) (stored : List UInt8) :
    ∃ choices, readnLoop kernel s n readSum stored =
      ⟨readSum + (s.received.take n).length, stored ++ s.received.take n,
        { s with received := s.received.drop n, choices := choices }⟩ := by
  induction hb : s.budget using Nat.strong_induction_on generalizing s n readSum stored with
  | _ b ih =>
      subst hb
      rcases Nat.eq_zero_or_pos n with rfl | hn
      · exact ⟨s.choices, by simp [readnLoop_zero]⟩
      by_cases hint : s.choices.head? = some .interrupt
      · have hread : kernel.read s n = _ := read_interrupt n hint
        obtain ⟨choices, hloop⟩ := ih _ (budget_lt_of_read_eintr hread) _ n readSum stored rfl
        exact ⟨choices, (readnLoop_eintr hn.ne' hread).trans hloop⟩
      by_cases hnil : s.received = []
      · refine ⟨s.choices, (readnLoop_kernel_nil hn.ne' hint hnil readSum stored).trans ?_⟩
        obtain ⟨received, closed, sent, choices⟩ := s
        subst hnil
        simp
      · have hread : kernel.read s n = _ := read_data n hint hnil
        have hne : s.received.take (s.quota n) ≠ [] := by
          simpa [List.take_eq_nil_iff, hnil] using (s.quota_pos hn).ne'
        obtain ⟨choices, hloop⟩ := ih _ ((budget_lt_of_bytes hread).2 hne) _
          (n - (s.received.take (s.quota n)).length)
          (readSum + (s.received.take (s.quota n)).length)
          (stored ++ s.received.take (s.quota n)) rfl
        have htake := take_append_take_drop (l := s.received) (s.quota_le n)
        have hdrop := drop_drop_length_take (l := s.received) (s.quota_le n)
        refine ⟨choices, (readnLoop_bytes hn.ne' hne hread).trans (hloop.trans ?_)⟩
        rw [hdrop, List.append_assoc, htake, ← htake, List.length_append, Nat.cast_add,
          ← add_assoc]

/-- `readn` takes the bytes that have arrived, up to the number asked for. -/
theorem readn_kernel (s : Socket) (n : ℕ) :
    ∃ choices, readn kernel s n =
      ⟨(s.received.take n).length, s.received.take n,
        { s with received := s.received.drop n, choices := choices }⟩ := by
  simpa [readn] using readnLoop_kernel s n 0 []

theorem writenLoop_kernel (s : Socket) (ptr : List UInt8) (writeSum : ℤ) :
    ∃ choices, writenLoop kernel s ptr writeSum =
      ⟨writeSum + ptr.length, { s with sent := s.sent ++ ptr, choices := choices }⟩ := by
  induction hb : s.budget + ptr.length using Nat.strong_induction_on
    generalizing s ptr writeSum with
  | _ b ih =>
      subst hb
      by_cases hptr : ptr = []
      · subst hptr
        exact ⟨s.choices, by simp [writenLoop_nil]⟩
      by_cases hint : s.choices.head? = some .interrupt
      · have hwrite : kernel.write s ptr = _ := write_interrupt ptr hint
        obtain ⟨choices, hloop⟩ := ih _
          (Nat.add_lt_add_right (budget_lt_of_write_eintr hwrite) _) _ ptr writeSum rfl
        exact ⟨choices, (writenLoop_eintr hptr hwrite).trans hloop⟩
      · have hwrite : kernel.write s ptr = _ := write_data ptr hint
        have hlt := (budget_lt_of_accepted hptr hwrite).2
        rw [← List.length_drop] at hlt
        obtain ⟨choices, hloop⟩ := ih _ hlt _ (ptr.drop (s.quota ptr.length))
          (writeSum + s.quota ptr.length) rfl
        refine ⟨choices, (writenLoop_accepted hptr hwrite).trans (hloop.trans ?_)⟩
        have hle := s.quota_le ptr.length
        rw [List.append_assoc, List.take_append_drop, List.length_drop, Nat.cast_sub hle]
        congr 1
        ring

/-- `writen` writes everything. -/
theorem writen_kernel (s : Socket) (ptr : List UInt8) :
    ∃ choices, writen kernel s ptr =
      ⟨ptr.length, { s with sent := s.sent ++ ptr, choices := choices }⟩ := by
  simpa [writen] using writenLoop_kernel s ptr 0

end Socket

end Net

end SoL
