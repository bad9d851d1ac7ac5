import SoL.Http.ThreadPool.Machine
import Mathlib.Tactic

/-!
# The counts of the workers

`started` is counted up by `threadpool_create` for every thread that it has
created and once more by every worker when it enters `threadpool_thread`, and it
is counted down once by every worker that leaves. `Accounts` keeps only what has
to do with these counts, and `Move` says what a step can do to them. In all runs
the counter exceeds the number of live workers by the number of threads that the
creator has counted (`Balanced.started`).
-/

namespace SoL

namespace Http

/-- A worker is live from its own increment of `started` to its decrement. -/
inductive Phase
  | absent
  | begun
  | live
  | left
  | exited
  deriving DecidableEq

structure Accounts where
  requested : ℕ
  threadCount : ℕ
  started : ℤ
  freed : Bool
  creator : CreatorPc
  phase : ℕ → Phase
  destroyers : ℕ → DestroyerPc

namespace Accounts

/-- The number of live workers among the first `n`. -/
def countLive (n : ℕ) (phase : ℕ → Phase) : ℕ :=
  ((Finset.range n).filter fun i => phase i = .live).card

def liveCount (v : Accounts) : ℕ := countLive v.requested v.phase

/-- The loop of `threadpool_create` has been left. -/
def settled (v : Accounts) : Prop := v.creator = .done ∨ v.creator = .failed

/-- What a step can do to the accounts. -/
inductive Move : Accounts → Accounts → Prop
  | stay (v : Accounts) : Move v v
  | create (v : Accounts) (i : ℕ) (hpc : v.creator = .creating i) (hi : i < v.requested) :
      Move v { v with creator := .counting i, phase := Function.update v.phase i .begun }
  | fail (v : Accounts) (i : ℕ) (hpc : v.creator = .creating i) (hi : i < v.requested) :
      Move v { v with
        creator := .failed
        destroyers := Function.update v.destroyers 0 (.locking false) }
  | done (v : Accounts) (i : ℕ) (hpc : v.creator = .creating i) (hi : ¬ i < v.requested) :
      Move v { v with creator := .done }
  | count (v : Accounts) (i : ℕ) (hpc : v.creator = .counting i) :
      Move v { v with threadCount := v.threadCount + 1, creator := .starting i }
  | start (v : Accounts) (i : ℕ) (hpc : v.creator = .starting i) :
      Move v { v with started := v.started + 1, creator := .creating (i + 1) }
  | enter (v : Accounts) (i : ℕ) (hphase : v.phase i = .begun) :
      Move v { v with started := v.started + 1, phase := Function.update v.phase i .live }
  | leave (v : Accounts) (i : ℕ) (hphase : v.phase i = .live) :
      Move v { v with started := v.started - 1, phase := Function.update v.phase i .left }
  | exit (v : Accounts) (i : ℕ) (hphase : v.phase i = .left) :
      Move v { v with phase := Function.update v.phase i .exited }
  | destroy (v : Accounts) (k : ℕ) (pc : DestroyerPc)
      (hpc : v.creator = .done ∨ v.destroyers k ≠ .idle)
      (hjoining : ∀ i, pc = .joining i → i = 0) (hfreeing : pc ≠ .freeing) :
      Move v { v with destroyers := Function.update v.destroyers k pc }
  | join (v : Accounts) (k i : ℕ) (hpc : v.destroyers k = .joining i) (hi : i < v.threadCount)
      (hphase : v.phase i = .exited) :
      Move v { v with destroyers := Function.update v.destroyers k (.joining (i + 1)) }
  | joined (v : Accounts) (k i : ℕ) (hpc : v.destroyers k = .joining i)
      (hi : ¬ i < v.threadCount) :
      Move v { v with destroyers := Function.update v.destroyers k .freeing }
  | free (v : Accounts) (k : ℕ) (hpc : v.destroyers k = .freeing) (hstarted : v.started ≤ 0) :
      Move v { v with
        destroyers := Function.update v.destroyers k (.returned .ok)
        freed := true }

/-- The threads that the creator has counted in `started`. -/
def counted (v : Accounts) : ℕ :=
  match v.creator with
  | .creating i | .counting i | .starting i => i
  | .failed | .done => v.threadCount

/-- The threads that have been created. -/
def created (v : Accounts) : ℕ :=
  match v.creator with
  | .creating i => i
  | .counting i | .starting i => i + 1
  | .failed | .done => v.threadCount

/-- The loop of `threadpool_create` agrees with the field `thread_count`. -/
def Loop (v : Accounts) : Prop :=
  match v.creator with
  | .creating i => v.threadCount = i ∧ i ≤ v.requested
  | .counting i => v.threadCount = i ∧ i < v.requested
  | .starting i => v.threadCount = i + 1 ∧ i < v.requested
  | .failed => v.threadCount ≤ v.requested
  | .done => v.threadCount = v.requested

structure Balanced (v : Accounts) : Prop where
  requested : 1 ≤ v.requested
  loop : v.Loop
  absent : ∀ i, v.phase i = .absent ↔ v.created ≤ i
  started : v.started = v.counted + v.liveCount
  settled : ∀ k, v.destroyers k ≠ .idle → v.settled
  joining : ∀ k i, v.destroyers k = .joining i → ∀ j < i, v.phase j = .exited
  freeing : ∀ k, v.destroyers k = .freeing → ∀ j < v.threadCount, v.phase j = .exited
  freed : v.freed = true → v.settled ∧ v.threadCount = 0

variable {v w : Accounts} {n i : ℕ} {f : ℕ → Phase}

theorem countLive_update_live (hi : i < n) (h : f i ≠ .live) :
    countLive n (Function.update f i .live) = countLive n f + 1 := by
  have hinsert : ((Finset.range n).filter fun j => Function.update f i .live j = .live) =
      insert i ((Finset.range n).filter fun j => f j = .live) := by
    ext j
    by_cases hj : j = i
    · simp [hj, hi]
    · simp [hj]
  rw [countLive, hinsert, Finset.card_insert_of_notMem (by simp [h]), countLive]

theorem countLive_update_of_ne {p : Phase} (h : f i ≠ .live) (hp : p ≠ .live) :
    countLive n (Function.update f i p) = countLive n f := by
  refine congrArg Finset.card (Finset.filter_congr fun j _ => ?_)
  by_cases hj : j = i
  · subst hj
    simp [h, hp]
  · rw [Function.update_of_ne hj]

/-- The update is undone by making the worker live again. -/
theorem countLive_update_left (hi : i < n) (h : f i = .live) :
    countLive n (Function.update f i .left) + 1 = countLive n f := by
  rw [← countLive_update_live (f := Function.update f i .left) hi (by simp),
    Function.update_idem, ← h, Function.update_eq_self]

theorem Loop.created_le (h : v.Loop) : v.created ≤ v.requested := by
  unfold Loop at h
  unfold created
  split at h <;> simp_all

theorem Balanced.lt_requested (h : v.Balanced) (hi : v.phase i ≠ .absent) : i < v.requested := by
  have hcreated : i < v.created := by
    rw [Ne, h.absent, not_le] at hi
    exact hi
  exact hcreated.trans_le h.loop.created_le

/-- A phase changes and nothing else that is settled by the creator. -/
theorem Balanced.update_phase (h : v.Balanced) {p : Phase} {n : ℤ} (hi : v.phase i ≠ .absent)
    (hexited : v.phase i ≠ .exited) (hp : p ≠ .absent)
    (hstarted : n = v.counted + countLive v.requested (Function.update v.phase i p)) :
    Balanced { v with started := n, phase := Function.update v.phase i p } := by
  have hkeep : ∀ j, v.phase j = .exited → Function.update v.phase i p j = .exited := by
    intro j hj
    rw [Function.update_of_ne (by rintro rfl; exact hexited hj)]
    exact hj
  exact {
    requested := h.requested
    loop := h.loop
    absent := by
      intro j
      change Function.update v.phase i p j = .absent ↔ v.created ≤ j
      by_cases hj : j = i
      · subst hj
        simpa [hp] using (h.absent j).not.1 hi
      · rw [Function.update_of_ne hj]
        exact h.absent j
    started := hstarted
    settled := h.settled
    joining := fun k i' hk j hj => hkeep j (h.joining k i' hk j hj)
    freeing := fun k hk j hj => hkeep j (h.freeing k hk j hj)
    freed := h.freed }

/-- A destroyer moves on. -/
theorem Balanced.update_destroyer (h : v.Balanced) {k : ℕ} {pc : DestroyerPc}
    (hsettled : v.settled)
    (hjoining : ∀ i, pc = .joining i → ∀ j < i, v.phase j = .exited)
    (hfreeing : pc = .freeing → ∀ j < v.threadCount, v.phase j = .exited) :
    Balanced { v with destroyers := Function.update v.destroyers k pc } where
  requested := h.requested
  loop := h.loop
  absent := h.absent
  started := h.started
  settled := fun _ _ => hsettled
  joining := by
    intro k' i hk'
    by_cases hk : k' = k
    · subst hk
      exact hjoining i (by simpa using hk')
    · exact h.joining k' i (by simpa [Function.update_of_ne hk] using hk')
  freeing := by
    intro k' hk'
    by_cases hk : k' = k
    · subst hk
      exact hfreeing (by simpa using hk')
    · exact h.freeing k' (by simpa [Function.update_of_ne hk] using hk')
  freed := h.freed

/-- As long as threads are created, there is no destroyer and the pool is in
use. -/
theorem Balanced.create (h : v.Balanced) (hv : ¬ v.settled) {w : Accounts}
    (hrequested : w.requested = v.requested) (hdestroyers : w.destroyers = v.destroyers)
    (hfreed : w.freed = v.freed) (hloop : w.Loop)
    (habsent : ∀ i, w.phase i = .absent ↔ w.created ≤ i)
    (hstarted : w.started = w.counted + w.liveCount) : w.Balanced := by
  have hidle : ∀ k, w.destroyers k = .idle := by
    intro k
    rw [hdestroyers]
    by_contra hk
    exact hv (h.settled k hk)
  exact {
    requested := hrequested ▸ h.requested
    loop := hloop
    absent := habsent
    started := hstarted
    settled := fun k hk => absurd (hidle k) hk
    joining := fun k i hk => by simp [hidle k] at hk
    freeing := fun k hk => by simp [hidle k] at hk
    freed := fun hfree => absurd (h.freed (hfreed ▸ hfree)).1 hv }

theorem Balanced.started_eq_of_settled (h : v.Balanced) (hv : v.settled) :
    v.started = v.threadCount + v.liveCount := by
  have hstarted := h.started
  obtain hpc | hpc := hv
  · rwa [counted, hpc] at hstarted
  · rwa [counted, hpc] at hstarted

theorem Balanced.absent_iff_of_settled (h : v.Balanced) (hv : v.settled) (i : ℕ) :
    v.phase i = .absent ↔ v.threadCount ≤ i := by
  have habsent := h.absent i
  obtain hpc | hpc := hv
  · rwa [created, hpc] at habsent
  · rwa [created, hpc] at habsent

theorem Balanced.liveCount_eq_zero (h : v.Balanced) (hv : v.settled)
    (hexited : ∀ j < v.threadCount, v.phase j = .exited) : v.liveCount = 0 := by
  unfold liveCount countLive
  rw [Finset.card_eq_zero, Finset.filter_eq_empty_iff]
  intro i _ hlive
  by_cases hi : i < v.threadCount
  · simp [hexited i hi] at hlive
  · simp [(h.absent_iff_of_settled hv i).2 (not_lt.1 hi)] at hlive

theorem Balanced.move (h : v.Balanced) (hmove : Move v w) : w.Balanced := by
  have hcreating : ∀ {pc : CreatorPc}, v.creator = pc → pc ≠ .done → pc ≠ .failed →
      ¬ v.settled := by
    rintro pc rfl hdone hfailed (hpc | hpc)
    · exact hdone hpc
    · exact hfailed hpc
  have hloop := h.loop
  have habsent := h.absent
  have hstarted := h.started
  cases hmove with
  | stay => exact h
  | create i hpc hi =>
      simp only [Loop, hpc] at hloop
      simp only [created, hpc] at habsent
      simp only [counted, hpc] at hstarted
      refine h.create (hcreating hpc (by simp) (by simp)) rfl rfl rfl ⟨hloop.1, hi⟩ (fun j => ?_) ?_
      · change Function.update v.phase i .begun j = .absent ↔ i + 1 ≤ j
        by_cases hj : j = i
        · subst hj
          simp
        · rw [Function.update_of_ne hj, habsent]
          omega
      · have hphase := (habsent i).2 le_rfl
        change v.started = i + countLive v.requested (Function.update v.phase i .begun)
        rw [countLive_update_of_ne (by simp [hphase]) (by simp), hstarted]
        rfl
  | fail i hpc hi =>
      simp only [Loop, hpc] at hloop
      simp only [created, hpc] at habsent
      simp only [counted, hpc] at hstarted
      obtain ⟨rfl, hle⟩ := hloop
      have hfailed : Balanced { v with creator := .failed } :=
        h.create (hcreating hpc (by simp) (by simp)) rfl rfl rfl hle habsent hstarted
      exact hfailed.update_destroyer (.inr rfl) (by simp) (by simp)
  | done i hpc hi =>
      simp only [Loop, hpc] at hloop
      simp only [created, hpc] at habsent
      simp only [counted, hpc] at hstarted
      obtain ⟨rfl, hle⟩ := hloop
      exact h.create (hcreating hpc (by simp) (by simp)) rfl rfl rfl (le_antisymm hle (not_lt.1 hi))
        habsent hstarted
  | count i hpc =>
      simp only [Loop, hpc] at hloop
      simp only [created, hpc] at habsent
      simp only [counted, hpc] at hstarted
      exact h.create (hcreating hpc (by simp) (by simp)) rfl rfl rfl
        ⟨congrArg (· + 1) hloop.1, hloop.2⟩ habsent hstarted
  | start i hpc =>
      simp only [Loop, hpc] at hloop
      simp only [created, hpc] at habsent
      simp only [counted, hpc] at hstarted
      refine h.create (hcreating hpc (by simp) (by simp)) rfl rfl rfl hloop habsent ?_
      change v.started + 1 = ((i + 1 : ℕ) : ℤ) + v.liveCount
      rw [hstarted]
      push_cast
      ring
  | enter i hphase =>
      have hi : i < v.requested := h.lt_requested (by simp [hphase])
      refine h.update_phase (by simp [hphase]) (by simp [hphase]) (by simp) ?_
      rw [countLive_update_live hi (by simp [hphase]), hstarted]
      push_cast
      rw [liveCount]
      ring
  | leave i hphase =>
      have hi : i < v.requested := h.lt_requested (by simp [hphase])
      refine h.update_phase (by simp [hphase]) (by simp [hphase]) (by simp) ?_
      have hlive := countLive_update_left hi hphase
      rw [hstarted, liveCount, ← hlive]
      push_cast
      ring
  | exit i hphase =>
      refine h.update_phase (by simp [hphase]) (by simp [hphase]) (by simp) ?_
      rw [countLive_update_of_ne (by simp [hphase]) (by simp), hstarted, liveCount]
  | destroy k pc hpc hjoining hfreeing =>
      have hsettled : v.settled := hpc.elim .inl (h.settled k)
      refine h.update_destroyer hsettled (fun i hi j hj => ?_) (fun hpc => absurd hpc hfreeing)
      obtain rfl := hjoining i hi
      exact absurd hj (Nat.not_lt_zero j)
  | join k i hpc hi hphase =>
      refine h.update_destroyer (h.settled k (by simp [hpc])) (fun i' hi' j hj => ?_) (by simp)
      obtain rfl : i + 1 = i' := by simpa using hi'
      obtain hlt | rfl := Nat.lt_succ_iff_lt_or_eq.1 hj
      · exact h.joining k i hpc j hlt
      · exact hphase
  | joined k i hpc hi =>
      refine h.update_destroyer (h.settled k (by simp [hpc])) (by simp) fun _ j hj => ?_
      exact h.joining k i hpc j (hj.trans_le (not_lt.1 hi))
  | free k hpc hnone =>
      have hsettled := h.settled k (by simp [hpc])
      have hreturned : Balanced { v with
          destroyers := Function.update v.destroyers k (.returned .ok) } :=
        h.update_destroyer hsettled (by simp) (by simp)
      have hlive := h.liveCount_eq_zero hsettled (h.freeing k hpc)
      have hcount := h.started_eq_of_settled hsettled
      have hthreads : v.threadCount = 0 := by omega
      exact { hreturned with freed := fun _ => ⟨hsettled, hthreads⟩ }

end Accounts

end Http

end SoL
