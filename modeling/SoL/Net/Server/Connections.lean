import SoL.Net.Server.Machine

/-!
# The owners of the connections

A descriptor that `accept` has returned should be closed or have one owner, the
worker loop it is registered with. Descriptor zero, a connection that cannot be
made nonblocking and a registration that the kernel refuses leave a descriptor
that is open and has no owner (`always_owned_iff`).

The workers take turns, and a turn is taken before it is known whether the
connection is kept. Every turn that is not used puts the workers out of step
(`balanced_of_along`).
-/

namespace SoL

namespace Net

open Transition

namespace Server

/-- The kernel watches the descriptor for the loop, and the loop has its
channel. -/
def registered (s : Server) (loop : LoopId) (fd : Fd) : Prop :=
  ((s.pollers loop).interest fd).isSome = true ∧
    ∃ c, (s.pollers loop).fd2chan fd = some c ∧ ((s.pollers loop).channels c).fd = fd

/-- The descriptor is closed, or registered with exactly one loop, a worker. -/
def owned (s : Server) (fd : ℕ) : Prop :=
  fd ∉ s.opened ∨ ∃ h : fd < MAXFDS, ∃ i, i < s.pool.numThreads ∧
    ∀ loop, s.registered loop ⟨fd, h⟩ ↔ loop = .worker i

def allOwned (s : Server) : Prop := ∀ fd ∈ s.accepted, s.owned fd

theorem owned_congr {s t : Server} {fd : ℕ} (hopen : fd ∈ t.opened ↔ fd ∈ s.opened)
    (hpool : t.pool.numThreads = s.pool.numThreads)
    (hreg : ∀ loop h, t.registered loop ⟨fd, h⟩ ↔ s.registered loop ⟨fd, h⟩) :
    t.owned fd ↔ s.owned fd := by
  simp only [owned, hopen, hpool, hreg]

theorem registered_rearm (s : Server) (loop : LoopId) (fd : Fd) :
    s.rearm.registered loop fd ↔ s.registered loop fd := by
  simp only [registered, rearm_interest, rearm_fd2chan, rearm_channels_fd]

theorem registered_close {s : Server} {fd : ℕ} (loop : LoopId) {g : Fd} (h : g.val ≠ fd) :
    (s.close fd).registered loop g ↔ s.registered loop g := by
  simp only [registered, close, Epoll.closed, h, if_false]

/-- A registration leaves the other descriptors as they are. -/
theorem registered_keep {s : Server} (hs : s.Sound) {fd : Fd} (hfd : fd.val ∉ s.opened)
    (refused : Bool) (loop : LoopId) {g : Fd} (h : g ≠ fd) :
    (s.keep fd refused).registered loop g ↔ s.registered loop g := by
  by_cases hloop : loop = .worker s.pool.next
  · subst hloop
    have hnone := hs.interest_eq_none hfd (.worker s.pool.next)
    have hchannel : ∀ c, (s.pollers (.worker s.pool.next)).fd2chan g = some c →
        ((s.keep fd refused).pollers (.worker s.pool.next)).channels c =
          (s.pollers (.worker s.pool.next)).channels c := fun c hc =>
      register_channels_of_lt fd (hs.tabled _ g c hc)
    have htables : ((s.keep fd refused).pollers (.worker s.pool.next)).interest g =
        (s.pollers (.worker s.pool.next)).interest g ∧
          ((s.keep fd refused).pollers (.worker s.pool.next)).fd2chan g =
            (s.pollers (.worker s.pool.next)).fd2chan g := by
      cases refused with
      | true =>
          have hrefused := register_refused (s.turn fd) (.worker s.pool.next) fd
          exact ⟨congrFun hrefused.1 g,
            (congrFun hrefused.2 g).trans (Function.update_of_ne h _ _)⟩
      | false =>
          have hgranted := register_granted (s := s.turn fd) hnone
          exact ⟨(congrFun hgranted.1 g).trans (Function.update_of_ne h _ _),
            (congrFun hgranted.2.1 g).trans (Function.update_of_ne h _ _)⟩
    simp only [registered, htables.1, htables.2]
    refine and_congr_right fun _ => exists_congr fun c => and_congr_right fun hc => ?_
    rw [hchannel c hc]
  · simp only [registered, keep, register_pollers_of_ne hloop]
    rfl

/-- A descriptor that is open and that no poller watches is not owned. -/
theorem not_owned_of_open {s : Server} {fd : ℕ} (hopen : fd ∈ s.opened)
    (hnone : ∀ loop h, (s.pollers loop).interest ⟨fd, h⟩ = none) : ¬ s.owned fd := by
  rintro (hclosed | ⟨h, i, -, hreg⟩)
  · exact hclosed hopen
  · have := ((hreg (.worker i)).2 rfl).1
    simp [hnone] at this

theorem owned_rearm (s : Server) (fd : ℕ) : s.rearm.owned fd ↔ s.owned fd :=
  owned_congr Iff.rfl rfl fun loop _ => registered_rearm s loop _

theorem owned_turn {s : Server} {fd g : ℕ} (h : g ≠ fd) :
    (s.turn fd).owned g ↔ s.owned g :=
  owned_congr (by simp [turn, accept, h]) rfl fun _ _ => Iff.rfl

theorem owned_close {s : Server} {fd g : ℕ} (h : g ≠ fd) :
    (s.close fd).owned g ↔ s.owned g :=
  owned_congr (by simp [close, h]) rfl fun loop _ => registered_close loop h

theorem owned_discard {s : Server} {fd g : ℕ} (h : g ≠ fd) :
    (s.discard fd).owned g ↔ s.owned g :=
  (owned_close h).trans (owned_turn h)

theorem owned_close_self (s : Server) (fd : ℕ) : (s.close fd).owned fd :=
  .inl (by simp [close])

theorem owned_keep {s : Server} (hs : s.Sound) {fd : Fd} (hfd : fd.val ∉ s.opened)
    (refused : Bool) {g : ℕ} (h : g ≠ fd.val) :
    (s.keep fd refused).owned g ↔ s.owned g := by
  refine owned_congr (by simp [keep, register, turn, accept, h]) rfl fun loop hg => ?_
  exact registered_keep hs hfd refused loop fun heq => h (congrArg Fin.val heq)

/-- The connection of a round that keeps it is owned exactly when the kernel has
not refused to watch it. -/
theorem owned_keep_self {s : Server} (hs : s.Sound) {fd : Fd} (hfd : fd.val ∉ s.opened)
    (refused : Bool) : (s.keep fd refused).owned fd ↔ refused = false := by
  have hnone := fun loop => hs.interest_eq_none hfd loop
  cases refused with
  | true =>
      simp only [Bool.true_eq_false, iff_false]
      refine not_owned_of_open List.mem_cons_self fun loop _ => ?_
      by_cases hloop : loop = .worker s.pool.next
      · subst hloop
        exact (congrFun (register_refused (s.turn fd) (.worker s.pool.next) fd).1 fd).trans
          (hnone _)
      · rw [keep, register_pollers_of_ne hloop]
        exact hnone loop
  | false =>
      simp only [iff_true]
      refine .inr ⟨fd.isLt, s.pool.next, hs.pool.next_lt, fun loop => ?_⟩
      have hgranted := register_granted (s := s.turn fd) (hnone (.worker s.pool.next))
      constructor
      · intro hreg
        by_contra hloop
        have hsome := hreg.1
        rw [keep, register_pollers_of_ne hloop] at hsome
        have hnone' : ((s.turn fd).pollers loop).interest fd = none := hnone loop
        simp [hnone'] at hsome
      · rintro rfl
        refine ⟨?_, s.nextChannel, ?_, hgranted.2.2⟩
        · rw [keep, hgranted.1]
          simp
        · rw [keep, hgranted.2.1]
          exact Function.update_self _ _ _

/-- The attempts that a call gets to, the one that ends its loop included. -/
def reached : List Attempt → List Attempt
  | [] => []
  | a :: rest => a :: if (verdict a).ends then [] else reached rest

/-- The verdicts that leave a descriptor open and without an owner. -/
def Verdict.leaks : Verdict → Bool
  | .zero | .blocking _ | .kept _ true => true
  | .failed _ | .tooLarge _ | .kept _ false => false

def leakFree (attempts : List Attempt) : Prop :=
  ∀ a ∈ reached attempts, (verdict a).leaks = false

theorem leakFree_cons_of_ends {a : Attempt} (rest : List Attempt)
    (h : (verdict a).ends = true) :
    leakFree (a :: rest) ↔ (verdict a).leaks = false := by
  simp [leakFree, reached, h]

theorem leakFree_cons {a : Attempt} (rest : List Attempt) (h : (verdict a).ends = false) :
    leakFree (a :: rest) ↔ (verdict a).leaks = false ∧ leakFree rest := by
  simp [leakFree, reached, h]

/-- A round that accepts a descriptor and leaves the others as they are. -/
theorem allOwned_iff_of_accept {s t : Server} {fd : ℕ} (hfd : fd ∉ s.opened)
    (haccepted : t.accepted = fd :: s.accepted)
    (hne : ∀ g, g ≠ fd → (t.owned g ↔ s.owned g)) :
    t.allOwned ↔ t.owned fd ∧ s.allOwned := by
  simp only [allOwned, haccepted, List.mem_cons, forall_eq_or_imp]
  refine and_congr_right fun hself => forall_congr' fun g => imp_congr_right fun _ => ?_
  by_cases hg : g = fd
  · subst hg
    exact ⟨fun _ => .inl hfd, fun _ => hself⟩
  · exact hne g hg

theorem allOwned_rearm (s : Server) : s.rearm.allOwned ↔ s.allOwned :=
  forall_congr' fun fd => imp_congr_right fun _ => owned_rearm s fd

theorem not_allOwned_turn {s : Server} (hs : s.Sound) {fd : ℕ} (hfd : fd ∉ s.opened) :
    ¬ (s.turn fd).allOwned := by
  intro h
  have hopen : fd ∈ (s.turn fd).opened := List.mem_cons_self
  have hnone : ∀ loop hlt, ((s.turn fd).pollers loop).interest ⟨fd, hlt⟩ = none :=
    fun loop _ => hs.interest_eq_none hfd loop
  exact not_owned_of_open hopen hnone (h fd List.mem_cons_self)

theorem allOwned_handNewConn_iff {s t : Server} {attempts : List Attempt} {last : Accepted}
    (h : s.Sound) (hadmits : admits s.opened attempts = true)
    (hcall : s.handNewConn attempts = .ok (t, last)) :
    t.allOwned ↔ s.allOwned ∧ leakFree attempts := by
  refine handNewConn_rounds (P := fun s attempts t => t.allOwned ↔ s.allOwned ∧ leakFree attempts)
    ?empty ?failed ?zero ?tooLarge ?blocking ?kept h hadmits hcall
  case empty =>
    intro s _
    simp [allOwned_rearm, leakFree, reached]
  case failed =>
    intro s a rest e _ hv
    simp [allOwned_rearm, leakFree_cons_of_ends rest, hv, Verdict.ends, Verdict.leaks]
  case zero =>
    intro s a rest hs hfd hv
    have hnot : ¬ (s.accept 0).rearm.allOwned := fun h =>
      not_allOwned_turn hs hfd ((allOwned_rearm (s.accept 0)).1 h)
    simp [hnot, leakFree_cons_of_ends rest, hv, Verdict.ends, Verdict.leaks]
  case blocking =>
    intro s a rest fd hs hfd hv
    simp [not_allOwned_turn hs hfd, leakFree_cons_of_ends rest, hv, Verdict.ends,
      Verdict.leaks]
  case tooLarge =>
    intro s a rest t fd _ hfd hv ih
    have hdiscard : (s.discard fd).allOwned ↔ s.allOwned := by
      rw [allOwned_iff_of_accept hfd rfl fun g hg => owned_discard hg]
      exact and_iff_right (owned_close_self _ fd)
    rw [ih, hdiscard, leakFree_cons rest (by rw [hv]; rfl), hv]
    simp [Verdict.leaks]
  case kept =>
    intro s a rest t fd refused hs hfd hv ih
    have hkeep : (s.keep fd refused).allOwned ↔ refused = false ∧ s.allOwned := by
      rw [allOwned_iff_of_accept hfd rfl fun g hg => owned_keep hs hfd refused hg,
        owned_keep_self hs hfd]
    rw [ih, hkeep, leakFree_cons rest (by rw [hv]; rfl), hv]
    cases refused <;> simp [Verdict.leaks]

/-- No round of the call leaks a descriptor. -/
def Event.leakFree : Event → Prop
  | .handNewConn attempts => Server.leakFree attempts
  | .close _ => True

/-- In every run, every descriptor that `accept` has returned is closed or
registered with exactly one worker loop after every call, exactly when no call
gets to descriptor zero, to a connection that cannot be made nonblocking, or to
one that the kernel refuses to watch. -/
theorem always_owned_iff {s : Server} (hs : machine.initial s) (as : List Event) :
    machine.always allOwned s as ↔ machine.along (fun _ a => a.leakFree) s as := by
  have hnone : s.allOwned := by
    intro fd hfd
    rw [Started.accepted hs] at hfd
    simp at hfd
  refine machine.always_iff_along (I := Sound) (fun _ _ _ h hstep => h.step hstep) ?_ as
    (Started.sound hs) hnone
  intro s a t hs hQ hstep
  obtain ⟨attempts, last, rfl, hadmits, hcall⟩ | ⟨fd, rfl, -, rfl⟩ := step_cases hstep
  · rw [allOwned_handNewConn_iff hs hadmits hcall]
    exact and_iff_right hQ
  · simp only [Event.leakFree, iff_true]
    intro g hg
    by_cases heq : g = fd
    · subst heq
      exact owned_close_self s g
    · exact (owned_close heq).2 (hQ g hg)

/-- Three connections over both workers, one of which ends, and two more. -/
def burst : List Event :=
  [.handNewConn [incoming 5, incoming 6, incoming 7, ⟨.failed .EINTR, 0, 0, false⟩], .close 6,
    .handNewConn [incoming 6, incoming 8]]

theorem always_owned_burst :
    ∃ s t, start 2 3 = .ok s ∧ machine.exec s burst = some t ∧ t.accepted = [8, 6, 7, 6, 5] ∧
      machine.always allOwned s burst := by
  have hrun : ∃ s t, start 2 3 = .ok s ∧ machine.exec s burst = some t ∧
      t.accepted = [8, 6, 7, 6, 5] := ⟨_, _, rfl, rfl, rfl⟩
  obtain ⟨s, t, hstart, hexec, haccepted⟩ := hrun
  refine ⟨s, t, hstart, hexec, haccepted, (always_owned_iff (started_start hstart) burst).2 ?_⟩
  refine machine.along_of_forall_mem (fun a ha => ?_) s
  obtain rfl | rfl | rfl : a = _ ∨ a = _ ∨ a = _ := by simpa [burst] using ha
  · simp only [Event.leakFree, leakFree]
    decide
  · trivial
  · simp only [Event.leakFree, leakFree]
    decide

/-- A connection that cannot be made nonblocking stays open without an owner. -/
theorem not_owned_blocking :
    ¬ ∀ s as t, machine.initial s → machine.exec s as = some t → t.allOwned := by
  intro h
  have hstart : start 2 3 = .ok _ := rfl
  have howned := h _ [.handNewConn [⟨.descriptor 5, -1, 0, false⟩]] _ (started_start hstart) rfl
    5 List.mem_cons_self
  refine not_owned_of_open List.mem_cons_self (fun loop _ => ?_) howned
  cases loop <;> rfl

/-- The number of connections that have been registered with a worker. -/
def connections (s : Server) (i : ℕ) : ℕ := s.registrations.count (.worker i)

def balanced (s : Server) : Prop :=
  ∀ i j, i < s.pool.numThreads → j < s.pool.numThreads →
    s.connections i ≤ s.connections j + 1

/-- The verdicts that take a turn and register no connection. -/
def Verdict.wastes : Verdict → Bool
  | .tooLarge _ | .blocking _ | .kept _ true => true
  | .failed _ | .zero | .kept _ false => false

def wasteFree (attempts : List Attempt) : Prop :=
  ∀ a ∈ reached attempts, (verdict a).wastes = false

theorem wasteFree_head {a : Attempt} {rest : List Attempt} (h : wasteFree (a :: rest)) :
    (verdict a).wastes = false := h a List.mem_cons_self

theorem wasteFree_tail {a : Attempt} {rest : List Attempt} (h : wasteFree (a :: rest))
    (hends : (verdict a).ends = false) : wasteFree rest := by
  intro b hb
  exact h b (by simp [reached, hends, hb])

/-- The turns that the loops have had are the connections that have been
registered with them. -/
def inStep (s : Server) : Prop := s.pool.Turns s.connections

theorem keep_connections {s : Server} (hs : s.Sound) {fd : Fd} (hfd : fd.val ∉ s.opened) :
    (s.keep fd false).connections =
      Function.update s.connections s.pool.next (s.connections s.pool.next + 1) := by
  have hgranted := register_granted (s := s.turn fd)
    (hs.interest_eq_none hfd (.worker s.pool.next))
  have hregistrations : (s.keep fd false).registrations =
      s.registrations ++ [.worker s.pool.next] := by
    have hsome : (((s.keep fd false).pollers (.worker s.pool.next)).fd2chan fd).isSome = true := by
      rw [keep, hgranted.2.1]
      simp
    simp only [keep, register, Function.update_self] at hsome ⊢
    exact if_pos hsome
  funext i
  by_cases hi : i = s.pool.next
  · subst hi
    simp [connections, hregistrations]
  · have hne : LoopId.worker s.pool.next ≠ LoopId.worker i :=
      fun h => hi (LoopId.worker.inj h).symm
    simp [connections, hregistrations, Function.update_of_ne hi, hne]

theorem inStep_keep {s : Server} (hs : s.Sound) {fd : Fd} (hfd : fd.val ∉ s.opened)
    (h : s.inStep) : (s.keep fd false).inStep := by
  unfold inStep
  rw [keep_connections hs hfd]
  exact EventLoopThreadPool.Turns.advance hs.pool h

theorem inStep_handNewConn {s t : Server} {attempts : List Attempt} {last : Accepted}
    (h : s.Sound) (hadmits : admits s.opened attempts = true)
    (hcall : s.handNewConn attempts = .ok (t, last)) (hwaste : wasteFree attempts)
    (hs : s.inStep) : t.inStep := by
  revert hwaste hs
  refine handNewConn_rounds (P := fun s attempts t => wasteFree attempts → s.inStep → t.inStep)
    ?empty ?failed ?zero ?tooLarge ?blocking ?kept h hadmits hcall
  case empty => exact fun _ _ _ h => h
  case failed => exact fun _ _ _ _ _ _ _ h => h
  case zero => exact fun _ _ _ _ _ _ _ h => h
  case tooLarge =>
    intro s a rest t fd _ _ hv _ hwaste _
    have hhead := wasteFree_head hwaste
    simp [hv, Verdict.wastes] at hhead
  case blocking =>
    intro s a rest fd _ _ hv hwaste _
    have hhead := wasteFree_head hwaste
    simp [hv, Verdict.wastes] at hhead
  case kept =>
    intro s a rest t fd refused hs hfd hv ih hwaste hin
    have hhead := wasteFree_head hwaste
    have hrest := wasteFree_tail hwaste (by rw [hv]; rfl)
    cases refused with
    | true => simp [hv, Verdict.wastes] at hhead
    | false => exact ih hrest (inStep_keep hs hfd hin)

theorem numThreads_step {s t : Server} {a : Event} (h : s.Sound)
    (hstep : machine.step s a = some t) : t.pool.numThreads = s.pool.numThreads := by
  obtain ⟨attempts, last, -, hadmits, hcall⟩ | ⟨fd, -, -, rfl⟩ := step_cases hstep
  · exact handNewConn_rounds (P := fun s _ t => t.pool.numThreads = s.pool.numThreads)
      (fun _ _ => rfl) (fun _ _ _ _ _ _ => rfl) (fun _ _ _ _ _ _ => rfl)
      (fun _ _ _ _ _ _ _ _ ht => ht) (fun _ _ _ _ _ _ _ => rfl)
      (fun _ _ _ _ _ _ _ _ _ ht => ht) h hadmits hcall
  · rfl

/-- No round of the call wastes the turn of a loop. -/
def Event.wasteFree : Event → Prop
  | .handNewConn attempts => Server.wasteFree attempts
  | .close _ => True

theorem inStep_step {s t : Server} {a : Event} (h : s.Sound ∧ s.inStep) (ha : a.wasteFree)
    (hstep : machine.step s a = some t) : t.Sound ∧ t.inStep := by
  refine ⟨h.1.step hstep, ?_⟩
  obtain ⟨attempts, last, rfl, hadmits, hcall⟩ | ⟨fd, -, -, rfl⟩ := step_cases hstep
  · exact inStep_handNewConn h.1 hadmits hcall ha h.2
  · exact h.2

theorem Started.inStep {s : Server} (h : s.Started) : s.inStep := by
  obtain ⟨n, p, hnew, hpool⟩ := h.pool
  have hnext : s.pool.next = 0 := by
    unfold EventLoopThreadPool.new at hnew
    split at hnew
    · cases hnew
    · obtain rfl := Except.ok.inj hnew
      rw [hpool]
      rfl
  exact ⟨0, fun i _ => by simp [connections, h.registrations, hnext]⟩

theorem balanced_of_inStep {s : Server} (h : s.inStep) : s.balanced :=
  fun _ _ hi hj => h.le_succ hi hj

/-- In every reachable state a call of `handNewConn` finds every index of
`loops_` in range, whatever the kernel answers. The numbers of connections that
have been registered with two workers differ by at most one in every run in which
no turn is wasted on a descriptor that is too large, that cannot be made
nonblocking or that the kernel refuses to watch; with one thread, in every run. -/
theorem balanced_of_along {s₀ s : Server} (hs₀ : machine.initial s₀) {as : List Event}
    (hexec : machine.exec s₀ as = some s) :
    (∀ attempts, ∃ t last, s.handNewConn attempts = .ok (t, last)) ∧
      (s₀.pool.numThreads = 1 ∨ machine.along (fun _ a => a.wasteFree) s₀ as →
        s.balanced) := by
  have hsound : s.Sound := Started.sound_exec hs₀ hexec
  refine ⟨fun attempts => ?_, ?_⟩
  · obtain ⟨t, last, hcall, -⟩ := handNewConn_drained_iff hsound.pool attempts
    exact ⟨t, last, hcall⟩
  rintro (hone | halong)
  · have hthreads : s.Sound ∧ s.pool.numThreads = 1 :=
      machine.exec_invariant_of_step (I := fun s => s.Sound ∧ s.pool.numThreads = 1)
        (fun _ _ _ h hstep => ⟨h.1.step hstep, (numThreads_step h.1 hstep).trans h.2⟩)
        ⟨Started.sound hs₀, hone⟩ hexec
    intro i j hi hj
    obtain rfl : i = j := by omega
    exact Nat.le_succ _
  · have hin : s.Sound ∧ s.inStep :=
      machine.exec_invariant (fun _ _ _ h ha hstep => inStep_step h ha hstep)
        ⟨Started.sound hs₀, Started.inStep hs₀⟩ halong hexec
    exact balanced_of_inStep hin.2

theorem balanced_burst :
    ∃ s t, start 2 3 = .ok s ∧ machine.exec s burst = some t ∧
      t.registrations = [.worker 0, .worker 1, .worker 0, .worker 1, .worker 0] ∧
      (∃ u last, t.handNewConn [incoming 9] = .ok (u, last)) ∧ t.balanced := by
  have hrun : ∃ s t, start 2 3 = .ok s ∧ machine.exec s burst = some t ∧
      t.registrations = [.worker 0, .worker 1, .worker 0, .worker 1, .worker 0] :=
    ⟨_, _, rfl, rfl, by decide⟩
  obtain ⟨s, t, hstart, hexec, hregistrations⟩ := hrun
  obtain ⟨hcalls, hbalanced⟩ := balanced_of_along (started_start hstart) hexec
  refine ⟨s, t, hstart, hexec, hregistrations, hcalls _, hbalanced (.inr ?_)⟩
  refine machine.along_of_forall_mem (fun a ha => ?_) s
  obtain rfl | rfl | rfl : a = _ ∨ a = _ ∨ a = _ := by simpa [burst] using ha
  · simp only [Event.wasteFree, wasteFree]
    decide
  · trivial
  · simp only [Event.wasteFree, wasteFree]
    decide

/-- The turn of the second worker goes to a descriptor that is closed again, and
both connections are with the first. -/
theorem not_balanced_tooLarge :
    ¬ ∀ s as t, machine.initial s → machine.exec s as = some t → t.balanced := by
  intro h
  have hstart : start 2 3 = .ok _ := rfl
  have hbalanced := h _
    [.handNewConn [⟨.descriptor 5, 0, 0, false⟩, ⟨.descriptor 100000, 0, 0, false⟩,
      ⟨.descriptor 6, 0, 0, false⟩]] _ (started_start hstart) rfl 0 1 (by decide) (by decide)
  revert hbalanced
  decide

end Server

end Net

end SoL
