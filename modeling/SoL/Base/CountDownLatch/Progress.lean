import SoL.Base.CountDownLatch

/-!
# The latch comes to rest

When no function of the latch is called any more, the calls in progress end: the steps of
the threads are bounded by the number of threads and of wake-ups without a reason. A latch
that is at rest has no thread inside it if `countDown` was called at least as often as the
latch counts, and otherwise only threads blocked in `wait` (`drains_of_exec`).
-/

namespace SoL

namespace Base

open Transition

namespace CountDownLatch

variable {τ : Type*}

namespace Action

def isCall : Action τ → Bool
  | .call _ _ => true
  | _ => false

def isCountDown : Action τ → Bool
  | .call _ .countDown => true
  | _ => false

def isRun : Action τ → Bool
  | .run _ => true
  | _ => false

def isSpurious : Action τ → Bool
  | .spurious _ => true
  | _ => false

end Action

/-- How many steps a thread has before it, at most, until it blocks or returns. A thread
that comes to the test of a closed latch blocks, and then goes through it again. -/
def Pc.weight (closed : Bool) : Pc → ℕ
  | .idle => 0
  | .waitLocking | .reacquiring => if closed then 6 else 3
  | .testing => if closed then 5 else 2
  | .waiting => 4
  | .waitUnlocking => 1
  | .countLocking => 5
  | .decrementing => 4
  | .checking => 3
  | .notifying => 2
  | .countUnlocking => 1
  | .getLocking => 2
  | .reading => 1

theorem Pc.weight_le (closed : Bool) (pc : Pc) : pc.weight closed ≤ 6 := by
  cases pc <;> cases closed <;> decide

theorem Pc.weight_mono {closed closed' : Bool} (h : closed' = true → closed = true) (pc : Pc) :
    pc.weight closed' ≤ pc.weight closed := by
  cases closed' with
  | true => rw [h rfl]
  | false => cases pc <;> cases closed <;> decide

section

variable {s s' : State τ} {t : τ} {n k : ℕ} {pc : Pc}

def closed (s : State τ) : Bool := 0 < s.count

/-- What a step of a thread does to its weight: all but three of the steps only move the
thread, and lower its weight. -/
theorem runStep_cases [DecidableEq τ] (h : runStep s t = some s') :
    (∃ pc m, s' = { s.move t pc with mutex := m } ∧ pc.counting = (s.pc t).counting ∧
        pc.weight (closed s) < (s.pc t).weight (closed s) ∧ (pc = .notifying → s.count = 0)) ∨
      (s.pc t = .decrementing ∧ s' = { s.move t .checking with count := decrement s.count }) ∨
      (s.pc t = .notifying ∧ s' = s.wake.move t .countUnlocking) ∨
      s.pc t = .countUnlocking ∧ s' = { s.unlock t .idle with finished := s.finished + 1 } := by
  have hlock : ∀ {pc}, s.lock t pc = some s' → s' = { s.move t pc with mutex := some t } :=
    fun {pc} hlock => (Option.some.inj (Option.ite_none_right_eq_some.1 hlock).2).symm
  unfold runStep at h
  cases hpc : s.pc t with
  | idle => simp [hpc] at h
  | waiting => simp [hpc] at h
  | waitLocking | reacquiring =>
      simp only [hpc] at h
      refine .inl ⟨.testing, some t, hlock h, rfl, ?_, nofun⟩
      cases closed s <;> decide
  | testing =>
      simp only [hpc] at h
      split at h
      · rename_i hcount
        cases h
        refine .inl ⟨.waiting, none, rfl, rfl, ?_, nofun⟩
        rw [closed, decide_eq_true hcount]
        decide
      · rename_i hcount
        cases h
        refine .inl ⟨.waitUnlocking, s.mutex, rfl, rfl, ?_, nofun⟩
        cases closed s <;> decide
  | waitUnlocking =>
      simp only [hpc] at h
      cases h
      exact .inl ⟨.idle, none, rfl, rfl, Nat.zero_lt_one, nofun⟩
  | countLocking =>
      simp only [hpc] at h
      exact .inl ⟨.decrementing, some t, hlock h, rfl, Nat.lt_succ_self 4, nofun⟩
  | decrementing =>
      simp only [hpc] at h
      cases h
      exact .inr (.inl ⟨rfl, rfl⟩)
  | checking =>
      simp only [hpc] at h
      cases h
      refine .inl ⟨_, s.mutex, rfl, ?_, ?_, fun hnotifying => ?_⟩
      · split <;> rfl
      · split
        · exact Nat.lt_succ_self 2
        · exact Nat.lt_of_sub_eq_succ rfl
      · by_contra hcount
        simp [hcount] at hnotifying
  | notifying =>
      simp only [hpc] at h
      cases h
      exact .inr (.inr (.inl ⟨rfl, rfl⟩))
  | countUnlocking =>
      simp only [hpc] at h
      cases h
      exact .inr (.inr (.inr ⟨rfl, rfl⟩))
  | getLocking =>
      simp only [hpc] at h
      exact .inl ⟨.reading, some t, hlock h, rfl, Nat.lt_succ_self 1, nofun⟩
  | reading =>
      simp only [hpc] at h
      cases h
      exact .inl ⟨.idle, none, rfl, rfl, Nat.zero_lt_one, nofun⟩

/-- A thread that has the mutex can go on. -/
theorem exists_runStep_of_holds [DecidableEq τ] (h : (s.pc t).holds = true) :
    ∃ s', runStep s t = some s' := by
  unfold runStep
  cases hpc : s.pc t with
  | testing =>
      by_cases hcount : 0 < s.count
      · exact ⟨_, if_pos hcount⟩
      · exact ⟨_, if_neg hcount⟩
  | waitUnlocking | decrementing | checking | notifying | countUnlocking | reading => exact ⟨_, rfl⟩
  | idle | waitLocking | waiting | reacquiring | countLocking | getLocking =>
      simp [hpc, Pc.holds] at h

/-- With the mutex free a thread in a call can go on, unless it is blocked. -/
theorem exists_runStep_of_free [DecidableEq τ] (hfree : s.mutex = none)
    (hholds : (s.pc t).holds = false) (hidle : s.pc t ≠ .idle) (hwaiting : s.pc t ≠ .waiting) :
    ∃ s', runStep s t = some s' := by
  have hlock : ∀ pc, ∃ s', s.lock t pc = some s' := fun pc => ⟨_, if_pos (by rw [hfree]; rfl)⟩
  unfold runStep
  cases hpc : s.pc t with
  | waitLocking | reacquiring | countLocking | getLocking => exact hlock _
  | idle => exact absurd hpc hidle
  | waiting => exact absurd hpc hwaiting
  | testing | waitUnlocking | decrementing | checking | notifying | countUnlocking | reading =>
      simp [hpc, Pc.holds] at hholds

theorem wake_pc (hpc : s.pc t = .notifying) : s.wake.pc t = .notifying := by
  simp [State.wake, hpc]

/-- The thread that is about to call `notifyAll` has found the count at `0`. -/
def NotifiesZero (s : State τ) : Prop := ∀ u, s.pc u = .notifying → s.count = 0

theorem NotifiesZero.move [DecidableEq τ] (h : NotifiesZero s)
    (hpc : pc = .notifying → s.count = 0) : NotifiesZero (s.move t pc) := by
  intro u hu
  by_cases hut : u = t
  · subst hut
    exact hpc (by simpa using hu)
  · exact h u (by simpa [s.move_of_ne hut] using hu)

theorem NotifiesZero.wake (h : NotifiesZero s) : NotifiesZero s.wake := by
  intro u hu
  by_cases hwaiting : s.pc u = .waiting
  · simp [State.wake, hwaiting] at hu
  · exact h u (by simpa [State.wake, hwaiting] using hu)

theorem NotifiesZero.runStep [DecidableEq τ] (h : NotifiesZero s) (hs : Guarded n s)
    (hstep : runStep s t = some s') : NotifiesZero s' := by
  obtain ⟨pc, m, rfl, -, -, hpc⟩ | ⟨hpc, rfl⟩ | ⟨hpc, rfl⟩ | ⟨hpc, rfl⟩ := runStep_cases hstep
  · exact h.move hpc
  · -- the mutex keeps the count from changing between the test and `notifyAll`
    intro u hu
    by_cases hut : u = t
    · subst hut
      simp at hu
    · have hu : s.pc u = .notifying := by simpa [s.move_of_ne hut] using hu
      exact absurd (hs.eq_of_holds (by rw [hpc]; rfl) (by rw [hu]; rfl)) hut
  · exact h.wake.move nofun
  · have hmove : NotifiesZero (s.move t .idle) := h.move nofun
    exact hmove

theorem guarded_step [DecidableEq τ] {a : Action τ} (h : Guarded n s)
    (hstep : step s a = some s') : Guarded n s' := by
  obtain ⟨t, ht⟩ := exists_trans (n := n) hstep
  exact h.trans ht

theorem notifiesZero_step [DecidableEq τ] {a : Action τ} (h : NotifiesZero s) (hs : Guarded n s)
    (hstep : step s a = some s') : NotifiesZero s' := by
  cases a with
  | call t c =>
      obtain ⟨-, ⟨⟩⟩ := Option.ite_none_right_eq_some.1 hstep
      exact h.move (by cases c <;> nofun)
  | run t => exact h.runStep hs hstep
  | spurious t =>
      obtain ⟨-, ⟨⟩⟩ := Option.ite_none_right_eq_some.1 hstep
      exact h.move nofun

end

section

variable [Fintype τ] {s s' : State τ} {t : τ} {n k : ℕ} {pc : Pc}

def rank (s : State τ) : ℕ := ∑ u, (s.pc u).weight (closed s)

/-- The calls of `countDown` that have been made. -/
def countDowns (s : State τ) : ℕ := s.finished + ∑ u, if (s.pc u).counting then 1 else 0

theorem rank_le (s : State τ) : rank s ≤ 6 * Fintype.card τ := by
  have hsum := Finset.sum_le_card_nsmul Finset.univ (fun u => (s.pc u).weight (closed s)) 6
    fun u _ => Pc.weight_le _ _
  rwa [Finset.card_univ, smul_eq_mul, mul_comm] at hsum

/-- A latch that is not closed again keeps its threads' weights. -/
theorem rank_le_of_closed {c : ℤ} (h : 0 < c → 0 < s.count) :
    rank { s with count := c } ≤ rank s := by
  refine Finset.sum_le_sum fun u _ => Pc.weight_mono (fun hclosed => ?_) (s.pc u)
  exact decide_eq_true (h (of_decide_eq_true hclosed))

/-- Of a sum over the threads one summand changes. -/
theorem sum_move [DecidableEq τ] (s : State τ) (t : τ) (pc : Pc) (f : Pc → ℕ) :
    (∑ u, f ((s.move t pc).pc u)) + f (s.pc t) = (∑ u, f (s.pc u)) + f pc := by
  have hmoved := Finset.add_sum_erase Finset.univ (fun u => f ((s.move t pc).pc u))
    (Finset.mem_univ t)
  have hbefore := Finset.add_sum_erase Finset.univ (fun u => f (s.pc u)) (Finset.mem_univ t)
  have hrest : ∑ u ∈ Finset.univ.erase t, f ((s.move t pc).pc u) =
      ∑ u ∈ Finset.univ.erase t, f (s.pc u) :=
    Finset.sum_congr rfl fun u hu => by rw [s.move_of_ne (Finset.ne_of_mem_erase hu)]
  simp only [State.move_self] at hmoved
  omega

theorem rank_move [DecidableEq τ] (s : State τ) (t : τ) (pc : Pc) :
    rank (s.move t pc) + (s.pc t).weight (closed s) = rank s + pc.weight (closed s) :=
  sum_move s t pc (Pc.weight (closed s))

theorem countDowns_move [DecidableEq τ] (s : State τ) (t : τ) (pc : Pc) :
    countDowns (s.move t pc) + (if (s.pc t).counting then 1 else 0) =
      countDowns s + (if pc.counting then 1 else 0) := by
  have hsum := sum_move s t pc fun pc => if pc.counting then 1 else 0
  change s.finished + _ + _ = s.finished + _ + _
  omega

theorem countDowns_wake (s : State τ) : countDowns s.wake = countDowns s := by
  have hpc : ∀ u, (s.wake.pc u).counting = (s.pc u).counting := by
    intro u
    by_cases hu : s.pc u = .waiting
    · simp [State.wake, hu, Pc.counting]
    · simp [State.wake, hu]
  simp only [countDowns, hpc]
  rfl

/-- In an open latch a thread that is notified has less to do than a blocked one. -/
theorem rank_wake_le (hcount : s.count = 0) : rank s.wake ≤ rank s := by
  refine Finset.sum_le_sum fun u _ => ?_
  change (s.wake.pc u).weight (closed s) ≤ (s.pc u).weight (closed s)
  by_cases hu : s.pc u = .waiting
  · simp [State.wake, hu, closed, hcount, Pc.weight]
  · simp [State.wake, hu]

theorem runStep_countDowns [DecidableEq τ] (h : runStep s t = some s') :
    countDowns s' = countDowns s := by
  obtain ⟨pc, m, rfl, hcounting, -, -⟩ | ⟨hpc, rfl⟩ | ⟨hpc, rfl⟩ | ⟨hpc, rfl⟩ := runStep_cases h
  · have hcalls := countDowns_move s t pc
    rw [hcounting] at hcalls
    exact Nat.add_right_cancel hcalls
  · have hcalls := countDowns_move s t .checking
    rw [hpc] at hcalls
    exact Nat.add_right_cancel hcalls
  · have hcalls := countDowns_move s.wake t .countUnlocking
    rw [wake_pc hpc, countDowns_wake] at hcalls
    exact Nat.add_right_cancel hcalls
  · have hcalls := countDowns_move s t .idle
    rw [hpc] at hcalls
    exact (Nat.succ_add _ _).trans hcalls

/-- A step of a thread lowers the rank, if `--count_` does not close the latch. -/
theorem runStep_rank [DecidableEq τ] (h : runStep s t = some s')
    (hnotifying : s.pc t = .notifying → s.count = 0)
    (hdecrement : s.pc t = .decrementing → 0 < decrement s.count → 0 < s.count) :
    rank s' < rank s := by
  obtain ⟨pc, m, rfl, -, hweight, -⟩ | ⟨hpc, rfl⟩ | ⟨hpc, rfl⟩ | ⟨hpc, rfl⟩ := runStep_cases h
  · have hrank := rank_move s t pc
    change rank (s.move t pc) < _
    omega
  · have hrank := rank_move s t .checking
    have hclosed : rank { s.move t .checking with count := decrement s.count } ≤
        rank (s.move t .checking) := rank_le_of_closed (hdecrement hpc)
    simp only [hpc, Pc.weight] at hrank
    exact hclosed.trans_lt (by omega)
  · have hwake := rank_wake_le (hnotifying hpc)
    have hrank := rank_move s.wake t .countUnlocking
    simp only [wake_pc hpc, Pc.weight] at hrank
    omega
  · have hrank := rank_move s t .idle
    simp only [hpc, Pc.weight] at hrank
    change rank (s.move t .idle) < _
    omega

theorem countDowns_step [DecidableEq τ] {a : Action τ} (h : step s a = some s') :
    countDowns s' = countDowns s + (if a.isCountDown then 1 else 0) := by
  cases a with
  | call t c =>
      obtain ⟨hpc, ⟨⟩⟩ := Option.ite_none_right_eq_some.1 h
      have hcalls := countDowns_move s t c.entry
      rw [hpc] at hcalls
      cases c with
      | wait | countDown | getCount => exact hcalls
  | run t => exact runStep_countDowns h
  | spurious t =>
      obtain ⟨hpc, ⟨⟩⟩ := Option.ite_none_right_eq_some.1 h
      have hcalls := countDowns_move s t .reacquiring
      rw [hpc] at hcalls
      exact hcalls

theorem lt_countDowns [DecidableEq τ] (h : (s.pc t).counting = true) :
    s.finished < countDowns s := by
  have hcalls := countDowns_move s t .idle
  have hfinished : (s.move t .idle).finished ≤ countDowns (s.move t .idle) := Nat.le_add_right _ _
  rw [if_pos h] at hcalls
  change s.finished ≤ _ at hfinished
  exact hfinished.trans_lt (Nat.lt_of_succ_le hcalls.le)

variable [DecidableEq τ]

/-- The invariant of the progress, with `k` calls of `countDown` made. -/
structure Counted (n k : ℕ) (s : State τ) : Prop where
  guarded : Guarded n s
  notifies : NotifiesZero s
  countDowns : countDowns s = k

namespace Counted

/-- The count does not come back to a positive value. -/
theorem count_pos (h : Counted n k s) (hn : n < 2 ^ 31) (hk : k ≤ n + 2 ^ 31)
    (hpc : s.pc t = .decrementing) (hpos : 0 < decrement s.count) : 0 < s.count := by
  have hnone := h.guarded.decremented_eq_false (t := t) (by rw [hpc]; rfl) (by rw [hpc]; rfl)
  have hlt := lt_countDowns (s := s) (t := t) (by rw [hpc]; rfl)
  rw [h.countDowns] at hlt
  have hcount : s.count = n - s.finished := by
    rw [h.guarded.counted hnone]
    exact Int.bmod_eq_of_le (by norm_num; omega) (by norm_num; omega)
  by_contra hle
  have hexact : decrement s.count = s.count - 1 :=
    Int.bmod_eq_of_le (by norm_num; omega) (by norm_num; omega)
  omega

/-- Without a call, the rank pays for every step of a thread, and a wake-up without a reason
adds two to it. -/
theorem step (h : Counted n k s) (hn : n < 2 ^ 31) (hk : k ≤ n + 2 ^ 31) {a : Action τ}
    (hcall : a.isCall = false) (hstep : CountDownLatch.step s a = some s') :
    Counted n k s' ∧
      rank s' + (if a.isRun then 1 else 0) ≤ rank s + (if a.isSpurious then 2 else 0) := by
  have hguarded := guarded_step h.guarded hstep
  have hnotifies := notifiesZero_step h.notifies h.guarded hstep
  cases a with
  | call t c => cases hcall
  | run t =>
      have hcalls := runStep_countDowns hstep
      have hrank := runStep_rank hstep (h.notifies t) (h.count_pos hn hk)
      exact ⟨⟨hguarded, hnotifies, hcalls.trans h.countDowns⟩, hrank⟩
  | spurious t =>
      obtain ⟨hpc, ⟨⟩⟩ := Option.ite_none_right_eq_some.1 hstep
      have hrank := rank_move s t .reacquiring
      have hcalls := countDowns_step hstep
      have hweight : Pc.weight (closed s) .reacquiring ≤ 6 := Pc.weight_le _ _
      rw [hpc, show Pc.weight (closed s) .waiting = 4 from rfl] at hrank
      refine ⟨⟨hguarded, hnotifies, hcalls.trans h.countDowns⟩, ?_⟩
      change rank (s.move t .reacquiring) ≤ rank s + 2
      omega

/-- Where no thread can go on, only threads of a latch that is still closed are inside it, and
they are blocked. -/
theorem rest (h : Counted n k s) (hk : k ≤ n + 2 ^ 31) (hrest : ∀ u, runStep s u = none)
    (u : τ) : s.pc u = .idle ∨ s.pc u = .waiting ∧ k < n := by
  have hholds : ∀ v, (s.pc v).holds = false := by
    intro v
    by_contra hv
    obtain ⟨s', hs'⟩ := exists_runStep_of_holds (Bool.not_eq_false _ ▸ hv)
    simp [hrest v] at hs'
  have hfree : s.mutex = none := by
    by_contra hheld
    obtain ⟨v, hmutex⟩ := Option.ne_none_iff_exists'.1 hheld
    have hv := (h.guarded.holds v).2 hmutex
    simp [hholds v] at hv
  have hall : ∀ v, s.pc v = .idle ∨ s.pc v = .waiting := by
    intro v
    by_contra hv
    obtain ⟨hidle, hwaiting⟩ := not_or.1 hv
    obtain ⟨s', hs'⟩ := exists_runStep_of_free hfree (hholds v) hidle hwaiting
    simp [hrest v] at hs'
  have hcounting : ∀ v, (s.pc v).counting = false := by
    intro v
    obtain hv | hv := hall v <;> rw [hv] <;> rfl
  obtain hu | hu := hall u
  · exact .inl hu
  · refine .inr ⟨hu, ?_⟩
    by_contra hle
    have hfinished : s.finished = k := by
      have hcalls := h.countDowns
      simpa [CountDownLatch.countDowns, hcounting] using hcalls
    have hcount : s.count ≤ 0 := by
      rw [h.guarded.counted fun v => by obtain hv | hv := hall v <;> rw [hv] <;> rfl, hfinished,
        Int.bmod_eq_of_le (by norm_num; omega) (by norm_num; omega)]
      omega
    exact h.guarded.noneLost hcount hcounting u hu

end Counted

/-- When no function of the latch is called any more, its threads come to rest: their steps
are bounded by the number of threads and of wake-ups without a reason. At rest the threads
have returned, or the latch counts more than it was counted down, and they are blocked in
`wait`. `count_` must not be counted down below the smallest `int`. -/
theorem drains_of_exec (n : ℕ) (hn : n < 2 ^ 31) {as bs : List (Action τ)}
    (hcalls : as.countP Action.isCountDown ≤ n + 2 ^ 31)
    (hexec : (machine τ n).exec (create n) as = some s) (hquiet : ∀ a ∈ bs, a.isCall = false)
    (hrun : (machine τ n).exec s bs = some s') :
    bs.countP Action.isRun ≤ 6 * Fintype.card τ + 2 * bs.countP Action.isSpurious ∧
      ((∀ u, runStep s' u = none) →
        ∀ u, s'.pc u = .idle ∨ s'.pc u = .waiting ∧ as.countP Action.isCountDown < n) := by
  obtain ⟨hguarded, hnotifies⟩ := (machine τ n).exec_invariant_of_step
    (I := fun s => Guarded n s ∧ NotifiesZero s)
    (fun u a v hu hv => ⟨guarded_step hu.1 hv, notifiesZero_step hu.2 hu.1 hv⟩)
    ⟨Guarded.create n hn, nofun⟩ hexec
  have hmade := (machine τ n).exec_countP (fun _ _ _ => countDowns_step) hexec
  have hcreate : countDowns (create n : State τ) = 0 := by simp [countDowns, create, Pc.counting]
  rw [hcreate, Nat.zero_add] at hmade
  obtain ⟨hcounted, hpaid⟩ := (machine τ n).countP_le_of_credit
    (I := Counted n (as.countP Action.isCountDown)) (p := Action.isRun) (q := Action.isSpurious)
    (fun u a v hu ha hv => hu.step hn hcalls ha hv) ⟨hguarded, hnotifies, hmade⟩ hquiet hrun
  have hrank := rank_le s
  exact ⟨by omega, hcounted.rest hcalls⟩

/-- The thread that counts down goes on, and then the one that waits. -/
theorem drains_oneWaiter :
    ∃ s s', (machine Bool 1).exec (create 1) (oneWaiter.take 4) = some s ∧
      (machine Bool 1).exec s (oneWaiter.drop 4) = some s' ∧ ∀ u, s'.pc u = .idle := by
  have hexec : (machine Bool 1).exec (create 1) (oneWaiter.take 4) = some _ := rfl
  refine ⟨_, _, hexec, rfl, fun u => ?_⟩
  have hrest := (drains_of_exec 1 (by decide) (by decide) hexec
    (show ∀ a ∈ oneWaiter.drop 4, a.isCall = false by decide) rfl).2
  obtain hidle | ⟨-, hlt⟩ := hrest (fun v => by cases v <;> rfl) u
  · exact hidle
  · exact absurd hlt (by decide)

end

end CountDownLatch

end Base

end SoL
