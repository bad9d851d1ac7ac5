import SoL.Http.Timers.Heap

/-!
# The ownership of requests and timers

The pointers between live requests and the timers in the queue are a matching
(`Owning`). Every operation on the heap adds a pair, cuts one, or removes an
object that is in no pair. Timers are deleted when they are on top of the queue,
with their request, which is then in a pair and so not in the thread pool.

No step that is enabled meets a memory fault, and a request in the thread pool
stays alive (`timers_own_requests`).
-/

namespace SoL

namespace Http

open Container Transition Net

namespace Heap

variable (S : Selector ℕ ℕ)

/-- Requests and timers own each other: the pointers between them agree, and those
that are armed or in the thread pool are live. -/
structure Owning (h : Heap) : Prop where
  request : ∀ r q t, h.requests r = some q → q.timer = some t → t ∈ h.myTimerQueue ∧
    ∃ timer, h.timers t = some timer ∧ timer.requestData = some r
  timer : ∀ t ∈ h.myTimerQueue, ∃ timer, h.timers t = some timer ∧
    ∀ r, timer.requestData = some r → ∃ q, h.requests r = some q ∧ q.timer = some t
  nodup : h.myTimerQueue.Nodup
  armed : ∀ r ∈ h.armed, (h.requests r).isSome = true ∧ r ∉ h.handed
  handed : ∀ r ∈ h.handed, ∃ q, h.requests r = some q ∧ q.timer = none
  freshRequest : ∀ r, h.nextRequest ≤ r → h.requests r = none
  freshTimer : ∀ t, h.nextTimer ≤ t → h.timers t = none
  listener : h.requests h.listener = some ⟨h.listenFd, none⟩

theorem owning_start (listenFd : ℕ) : (start listenFd).Owning where
  request := by
    intro r q t hr ht
    by_cases h : r = 0
    · subst h
      obtain rfl : ⟨listenFd, none⟩ = q := by simpa [start] using hr
      cases ht
    · simp [start, Function.update_of_ne h] at hr
  timer := by simp [start]
  nodup := List.nodup_nil
  armed := by simp [start]
  handed := by simp [start]
  freshRequest := by
    intro r hr
    have hne : r ≠ 0 := Nat.pos_iff_ne_zero.1 hr
    simp [start, Function.update_of_ne hne]
  freshTimer := fun _ _ => rfl
  listener := rfl

section

variable {h : Heap} {r t : ℕ} {q : Request} {timer : MyTimer}

theorem Owning.request_lt (o : h.Owning) (hr : h.requests r = some q) : r < h.nextRequest := by
  by_contra hge
  simp [o.freshRequest r (not_lt.1 hge)] at hr

theorem Owning.lt_of_isSome (o : h.Owning) (hr : (h.requests r).isSome = true) :
    r < h.nextRequest := by
  obtain ⟨q, hq⟩ := Option.isSome_iff_exists.1 hr
  exact o.request_lt hq

theorem Owning.timer_lt (o : h.Owning) (ht : h.timers t = some timer) : t < h.nextTimer := by
  by_contra hge
  simp [o.freshTimer t (not_lt.1 hge)] at ht

/-- The requests in the thread pool are as before when another one changes. -/
theorem Owning.handed_update (o : h.Owning) (hhanded : r ∉ h.handed) (x : Option Request) :
    ∀ r' ∈ h.handed, ∃ q, Function.update h.requests r x r' = some q ∧ q.timer = none := by
  intro r' hr'
  have hrr : r' ≠ r := fun heq => hhanded (heq ▸ hr')
  obtain ⟨q', hq', hnone⟩ := o.handed r' hr'
  exact ⟨q', (Function.update_of_ne hrr _ _).trans hq', hnone⟩

theorem Owning.freshRequest_update (o : h.Owning) (hr : h.requests r = some q)
    (x : Option Request) :
    ∀ r', h.nextRequest ≤ r' → Function.update h.requests r x r' = none := by
  intro r' hr'
  have hrr : r' ≠ r := ((o.request_lt hr).trans_le hr').ne'
  exact (Function.update_of_ne hrr _ _).trans (o.freshRequest r' hr')

theorem Owning.freshTimer_update (o : h.Owning) (ht : h.timers t = some timer)
    (x : Option MyTimer) :
    ∀ t', h.nextTimer ≤ t' → Function.update h.timers t x t' = none := by
  intro t' ht'
  have htt : t' ≠ t := ((o.timer_lt ht).trans_le ht').ne'
  exact (Function.update_of_ne htt _ _).trans (o.freshTimer t' ht')

/-- The request of a pair is separated from its timer, or it is deleted. -/
theorem Owning.cut (o : h.Owning) (hr : h.requests r = some q) (hq : q.timer = some t)
    (ht : h.timers t = some timer) {x : Option Request} (hx : ∀ y, x = some y → y.timer = none)
    {armed : List ℕ} (harmed : ∀ a ∈ armed, a ∈ h.armed ∧ (x = none → a ≠ r)) :
    Owning { (h.setTimer t (some { timer with
        requestData := none, deleted := true })).setRequest r x with armed := armed } := by
  obtain ⟨-, timer', ht', hback⟩ := o.request r q t hr hq
  obtain rfl : timer = timer' := Option.some.inj (ht.symm.trans ht')
  have hhanded : r ∉ h.handed := by
    intro hmem
    obtain ⟨q', hq', hnone⟩ := o.handed r hmem
    obtain rfl : q = q' := Option.some.inj (hr.symm.trans hq')
    simp [hq] at hnone
  have hlistener : h.listener ≠ r := by
    rintro rfl
    obtain rfl : ⟨h.listenFd, none⟩ = q := Option.some.inj (o.listener.symm.trans hr)
    cases hq
  refine ⟨fun r' q' t' hr' hq' => ?_, fun t' ht' => ?_, o.nodup, fun a ha => ?_,
    o.handed_update hhanded x, o.freshRequest_update hr x, o.freshTimer_update ht _, ?_⟩
  · by_cases hrr : r' = r
    · subst hrr
      simp only [setRequest, Function.update_self] at hr'
      simp [hx q' hr'] at hq'
    · simp only [setRequest, Function.update_of_ne hrr] at hr'
      obtain ⟨hmem, timer', htimer', hback'⟩ := o.request r' q' t' hr' hq'
      have htt : t' ≠ t := by
        rintro rfl
        obtain rfl : timer = timer' := Option.some.inj (ht.symm.trans htimer')
        exact hrr (Option.some.inj (hback'.symm.trans hback))
      refine ⟨hmem, timer', ?_, hback'⟩
      simpa only [setRequest, setTimer, Function.update_of_ne htt] using htimer'
  · by_cases htt : t' = t
    · subst htt
      refine ⟨_, Function.update_self _ _ _, fun r' hr' => ?_⟩
      cases hr'
    · obtain ⟨timer', htimer', hback'⟩ := o.timer t' ht'
      refine ⟨timer', (Function.update_of_ne htt _ _).trans htimer', fun r' hr' => ?_⟩
      obtain ⟨q', hq', hqt⟩ := hback' r' hr'
      have hrr : r' ≠ r := by
        rintro rfl
        obtain rfl : q = q' := Option.some.inj (hr.symm.trans hq')
        exact htt (Option.some.inj (hqt.symm.trans hq))
      exact ⟨q', (Function.update_of_ne hrr _ _).trans hq', hqt⟩
  · obtain ⟨hmem, hne⟩ := harmed a ha
    obtain ⟨hlive, hnot⟩ := o.armed a hmem
    refine ⟨?_, hnot⟩
    by_cases har : a = r
    · subst har
      simp only [setRequest, Function.update_self]
      cases x with
      | none => exact absurd rfl (hne rfl)
      | some y => rfl
    · simp only [setRequest, Function.update_of_ne har]
      exact hlive
  · exact (Function.update_of_ne hlistener _ _).trans o.listener

/-- A request without a timer is deleted. -/
theorem Owning.drop (o : h.Owning) (hr : h.requests r = some q) (hq : q.timer = none)
    (hhanded : r ∉ h.handed) (hlistener : r ≠ h.listener) {armed : List ℕ}
    (harmed : ∀ a ∈ armed, a ∈ h.armed ∧ a ≠ r) :
    Owning { h.setRequest r none with armed := armed } := by
  refine ⟨fun r' q' t' hr' hq' => ?_, fun t' ht' => ?_, o.nodup, fun a ha => ?_,
    o.handed_update hhanded none, o.freshRequest_update hr none, o.freshTimer, ?_⟩
  · have hrr : r' ≠ r := by
      rintro rfl
      simp [setRequest] at hr'
    exact o.request r' q' t' (by simpa [setRequest, Function.update_of_ne hrr] using hr') hq'
  · obtain ⟨timer', htimer', hback'⟩ := o.timer t' ht'
    refine ⟨timer', htimer', fun r' hr' => ?_⟩
    obtain ⟨q', hq', hqt⟩ := hback' r' hr'
    have hrr : r' ≠ r := by
      rintro rfl
      obtain rfl : q = q' := Option.some.inj (hr.symm.trans hq')
      simp [hq] at hqt
    exact ⟨q', (Function.update_of_ne hrr _ _).trans hq', hqt⟩
  · obtain ⟨hmem, hne⟩ := harmed a ha
    obtain ⟨hlive, hnot⟩ := o.armed a hmem
    exact ⟨by simpa only [setRequest, Function.update_of_ne hne] using hlive, hnot⟩
  · exact (Function.update_of_ne hlistener.symm _ _).trans o.listener

/-- A timer without a request is popped and deleted. -/
theorem Owning.erase (o : h.Owning) (ht : h.timers t = some timer)
    (hnone : timer.requestData = none) :
    Owning ({ h with myTimerQueue := h.myTimerQueue.erase t }.setTimer t none) := by
  refine ⟨fun r' q' t' hr' hq' => ?_, fun t' ht' => ?_, o.nodup.erase t, o.armed, o.handed,
    o.freshRequest, o.freshTimer_update ht none, o.listener⟩
  · obtain ⟨hmem, timer', htimer', hback'⟩ := o.request r' q' t' hr' hq'
    have htt : t' ≠ t := by
      rintro rfl
      obtain rfl : timer = timer' := Option.some.inj (ht.symm.trans htimer')
      simp [hnone] at hback'
    exact ⟨(List.mem_erase_of_ne htt).2 hmem, timer',
      (Function.update_of_ne htt _ _).trans htimer', hback'⟩
  · obtain ⟨htt, hmem⟩ := o.nodup.mem_erase_iff.1 ht'
    obtain ⟨timer', htimer', hback'⟩ := o.timer t' hmem
    exact ⟨timer', (Function.update_of_ne htt _ _).trans htimer', hback'⟩

/-- A timer is marked as deleted. -/
theorem Owning.mark (o : h.Owning) (ht : h.timers t = some timer) :
    Owning (h.setTimer t (some { timer with deleted := true })) := by
  refine ⟨fun r' q' t' hr' hq' => ?_, fun t' ht' => ?_, o.nodup, o.armed, o.handed,
    o.freshRequest, o.freshTimer_update ht _, o.listener⟩
  · obtain ⟨hmem, timer', htimer', hback'⟩ := o.request r' q' t' hr' hq'
    refine ⟨hmem, ?_⟩
    by_cases htt : t' = t
    · subst htt
      obtain rfl : timer = timer' := Option.some.inj (ht.symm.trans htimer')
      exact ⟨_, Function.update_self _ _ _, hback'⟩
    · exact ⟨timer', (Function.update_of_ne htt _ _).trans htimer', hback'⟩
  · obtain ⟨timer', htimer', hback'⟩ := o.timer t' ht'
    by_cases htt : t' = t
    · subst htt
      obtain rfl : timer = timer' := Option.some.inj (ht.symm.trans htimer')
      exact ⟨_, Function.update_self _ _ _, hback'⟩
    · exact ⟨timer', (Function.update_of_ne htt _ _).trans htimer', hback'⟩

theorem clearReq_eq (ht : h.timers t = some timer) :
    h.clearReq t =
      .ok (h.setTimer t (some { timer with requestData := none, deleted := true })) := by
  simp only [clearReq, getTimer, ht]
  rfl

theorem deleteRequest_of_none (hr : h.requests r = some q) (hq : q.timer = none) :
    h.deleteRequest r =
      .ok ({ h with armed := h.armed.filter fun a => a ≠ r }.setRequest r none) := by
  simp only [deleteRequest, hr, hq]
  rfl

theorem deleteRequest_of_some (hr : h.requests r = some q) (hq : q.timer = some t)
    (ht : h.timers t = some timer) :
    h.deleteRequest r =
      .ok (({ h with armed := h.armed.filter fun a => a ≠ r }.setTimer t
        (some { timer with requestData := none, deleted := true })).setRequest r none) := by
  have hclear := clearReq_eq (h := { h with armed := h.armed.filter fun a => a ≠ r }) ht
  simp only [deleteRequest, hr, hq, hclear]
  rfl

/-- What an operation leaves as it is: the live requests, apart from some, and the
lists of requests. -/
structure Keeps (h h' : Heap) (gone : ℕ → Prop) : Prop where
  live : ∀ r, ¬ gone r → (h.requests r).isSome = true → (h'.requests r).isSome = true
  armed : ∀ r, (h.requests r).isSome = true → r ∈ h'.armed → r ∈ h.armed
  handed : h'.handed = h.handed
  listener : h'.listener = h.listener

theorem Keeps.trans {h₁ h₂ h₃ : Heap} (h₁₂ : Keeps h₁ h₂ fun _ => False)
    (h₂₃ : Keeps h₂ h₃ fun _ => False) : Keeps h₁ h₃ fun _ => False where
  live := fun r hr hlive => h₂₃.live r hr (h₁₂.live r hr hlive)
  armed := fun r hlive hr => h₁₂.armed r hlive (h₂₃.armed r (h₁₂.live r id hlive) hr)
  handed := h₂₃.handed.trans h₁₂.handed
  listener := h₂₃.listener.trans h₁₂.listener

/-- The deletion of a request that is not in the thread pool. -/
theorem Owning.deleteRequest (o : h.Owning) (hr : h.requests r = some q)
    (hhanded : r ∉ h.handed) (hlistener : r ≠ h.listener) :
    ∃ h', h.deleteRequest r = .ok h' ∧ h'.Owning ∧ Keeps h h' fun a => a = r := by
  have harmed : ∀ a ∈ h.armed.filter (fun a => a ≠ r), a ∈ h.armed ∧ a ≠ r := by
    intro a ha
    simpa using ha
  cases hq : q.timer with
  | none =>
      refine ⟨_, deleteRequest_of_none hr hq, o.drop hr hq hhanded hlistener harmed, ?_, ?_, rfl,
        rfl⟩
      · intro a ha hlive
        simpa only [setRequest, Function.update_of_ne ha] using hlive
      · exact fun a _ ha => (harmed a ha).1
  | some t =>
      obtain ⟨-, timer, ht, -⟩ := o.request r q t hr hq
      refine ⟨_, deleteRequest_of_some hr hq ht,
        o.cut hr hq ht (by simp) fun a ha => ⟨(harmed a ha).1, fun _ => (harmed a ha).2⟩, ?_, ?_,
        rfl, rfl⟩
      · intro a ha hlive
        simp only [setRequest, Function.update_of_ne ha]
        exact hlive
      · exact fun a _ ha => (harmed a ha).1

/-- A request is separated from its timer. -/
theorem Owning.seperateTimer (o : h.Owning) (hr : h.requests r = some q) :
    ∃ h', h.seperateTimer r = .ok h' ∧ h'.Owning ∧ Keeps h h' (fun _ => False) ∧
      h'.requests r = some { q with timer := none } ∧ h'.armed = h.armed := by
  have hget : h.getRequest r = .ok q := by simp only [getRequest, hr]
  cases hq : q.timer with
  | none =>
      refine ⟨h, ?_, o, ⟨fun _ _ => id, fun _ _ => id, rfl, rfl⟩, ?_, rfl⟩
      · simp only [Heap.seperateTimer, hget, Bind.bind, Except.bind, hq]
        rfl
      · rw [hr, ← hq]
  | some t =>
      obtain ⟨-, timer, ht, -⟩ := o.request r q t hr hq
      have hcut : Owning ((h.setTimer t
          (some { timer with requestData := none, deleted := true })).setRequest r
            (some { q with timer := none })) :=
        o.cut hr hq ht (by rintro y ⟨⟩; rfl) fun a ha => ⟨ha, by simp⟩
      refine ⟨_, ?_, hcut, ?_, Function.update_self _ _ _, rfl⟩
      · simp only [Heap.seperateTimer, hget, Bind.bind, Except.bind, hq, clearReq_eq ht]
        rfl
      · refine ⟨fun a _ hlive => ?_, fun _ _ => id, rfl, rfl⟩
        by_cases har : a = r
        · subst har
          simp [setRequest]
        · simp only [setRequest, Function.update_of_ne har]
          exact hlive

/-- The timer on top is popped and deleted with its request. -/
theorem Owning.deleteTimer (o : h.Owning) (ht : h.timers t = some timer)
    (hmem : t ∈ h.myTimerQueue) :
    ∃ h', Heap.deleteTimer { h with myTimerQueue := h.myTimerQueue.erase t } t = .ok h' ∧
      h'.Owning ∧ h'.handed = h.handed := by
  cases hrequest : timer.requestData with
  | none =>
      refine ⟨_, ?_, o.erase ht hrequest, rfl⟩
      simp only [Heap.deleteTimer, ht, hrequest]
      rfl
  | some r =>
      obtain ⟨timer', ht', hback⟩ := o.timer t hmem
      obtain rfl : timer = timer' := Option.some.inj (ht.symm.trans ht')
      obtain ⟨q, hr, hq⟩ := hback r hrequest
      have hdelete := deleteRequest_of_some
        (h := { h with myTimerQueue := h.myTimerQueue.erase t }) hr hq ht
      have hcut : Owning { (h.setTimer t
          (some { timer with requestData := none, deleted := true })).setRequest r none with
            armed := h.armed.filter fun a => a ≠ r } :=
        o.cut hr hq ht (by simp) fun a ha => by
          have ha : a ∈ h.armed ∧ a ≠ r := by simpa using ha
          exact ⟨ha.1, fun _ => ha.2⟩
      refine ⟨_, ?_, hcut.erase (t := t) (Function.update_self _ _ _) rfl, rfl⟩
      simp only [Heap.deleteTimer, ht, hrequest, hdelete]
      rfl

theorem Owning.comparable (o : h.Owning) : h.comparable = true := by
  refine List.all_eq_true.2 fun t ht => ?_
  obtain ⟨timer, htimer, -⟩ := o.timer t ht
  simp [htimer]

/-- The heap after a connection has been accepted. -/
def accepted (h : Heap) (c : Connection) : Heap :=
  { h with
    requests := Function.update h.requests h.nextRequest (some ⟨c.fd, some h.nextTimer⟩)
    timers := Function.update h.timers h.nextTimer
      (some ⟨false, c.now + TIMER_TIME_OUT, some h.nextRequest⟩)
    myTimerQueue := h.nextTimer :: h.myTimerQueue
    armed := if c.registered then h.nextRequest :: h.armed else h.armed
    nextRequest := h.nextRequest + 1
    nextTimer := h.nextTimer + 1 }

theorem Owning.accepted (o : h.Owning) (c : Connection) : (h.accepted c).Owning := by
  refine ⟨fun r' q' t' hr' hq' => ?_, fun t' ht' => ?_, ?_, fun a ha => ?_, fun r' hr' => ?_,
    fun r' hr' => ?_, fun t' ht' => ?_, ?_⟩
  · by_cases hrr : r' = h.nextRequest
    · subst hrr
      obtain rfl : ⟨c.fd, some h.nextTimer⟩ = q' := by simpa [Heap.accepted] using hr'
      obtain rfl := Option.some.inj hq'
      exact ⟨List.mem_cons_self, _, Function.update_self _ _ _, rfl⟩
    · have hr' : h.requests r' = some q' := by
        simpa [Heap.accepted, Function.update_of_ne hrr] using hr'
      obtain ⟨hmem, timer', htimer', hback'⟩ := o.request r' q' t' hr' hq'
      exact ⟨List.mem_cons_of_mem _ hmem, timer',
        (Function.update_of_ne (o.timer_lt htimer').ne _ _).trans htimer', hback'⟩
  · obtain rfl | ht' := List.mem_cons.1 ht'
    · refine ⟨_, Function.update_self _ _ _, fun r' hr' => ?_⟩
      obtain rfl := Option.some.inj hr'
      exact ⟨_, Function.update_self _ _ _, rfl⟩
    · obtain ⟨timer', htimer', hback'⟩ := o.timer t' ht'
      refine ⟨timer', (Function.update_of_ne (o.timer_lt htimer').ne _ _).trans htimer',
        fun r' hr' => ?_⟩
      obtain ⟨q', hq', hqt⟩ := hback' r' hr'
      have hlt := o.request_lt hq'
      exact ⟨q', (Function.update_of_ne hlt.ne _ _).trans hq', hqt⟩
  · refine List.nodup_cons.2 ⟨fun hmem => ?_, o.nodup⟩
    obtain ⟨timer', htimer', -⟩ := o.timer _ hmem
    exact lt_irrefl _ (o.timer_lt htimer')
  · have hcases : a = h.nextRequest ∨ a ∈ h.armed := by
      simp only [Heap.accepted] at ha
      split at ha
      · exact List.mem_cons.1 ha
      · exact .inr ha
    obtain rfl | ha := hcases
    · refine ⟨by simp [Heap.accepted], fun hmem => ?_⟩
      obtain ⟨q', hq', -⟩ := o.handed _ hmem
      exact lt_irrefl _ (o.request_lt hq')
    · obtain ⟨hlive, hnot⟩ := o.armed a ha
      refine ⟨?_, hnot⟩
      simpa only [Heap.accepted, Function.update_of_ne (o.lt_of_isSome hlive).ne] using hlive
  · obtain ⟨q', hq', hnone⟩ := o.handed r' hr'
    have hlt := o.request_lt hq'
    exact ⟨q', (Function.update_of_ne hlt.ne _ _).trans hq', hnone⟩
  · have hr' : h.nextRequest + 1 ≤ r' := hr'
    have hne : r' ≠ h.nextRequest := by omega
    exact (Function.update_of_ne hne _ _).trans (o.freshRequest r' (by omega))
  · have ht' : h.nextTimer + 1 ≤ t' := ht'
    have hne : t' ≠ h.nextTimer := by omega
    exact (Function.update_of_ne hne _ _).trans (o.freshTimer t' (by omega))
  · have hlt := o.request_lt o.listener
    exact (Function.update_of_ne hlt.ne _ _).trans o.listener

theorem Owning.acceptOne (o : h.Owning) (c : Connection) :
    h.acceptOne c = .ok (h.accepted c) := by
  have hcomparable := (o.accepted c).comparable
  simp only [Heap.acceptOne, Heap.addTimer, getRequest, setRequest, setTimer, Function.update_self,
    Function.update_idem, Bind.bind, Except.bind, Pure.pure, Except.pure, Heap.push]
  exact if_pos hcomparable

theorem Owning.keeps_accepted (o : h.Owning) (c : Connection) :
    Keeps h (h.accepted c) fun _ => False := by
  refine ⟨fun r' _ hlive => ?_, fun r' hlive hr' => ?_, rfl, rfl⟩
  · simpa only [Heap.accepted, Function.update_of_ne (o.lt_of_isSome hlive).ne] using hlive
  · have hlt := o.lt_of_isSome hlive
    simp only [Heap.accepted] at hr'
    split at hr'
    · obtain rfl | hr' := List.mem_cons.1 hr'
      · exact absurd hlt (lt_irrefl _)
      · exact hr'
    · exact hr'

theorem Owning.acceptConnection (o : h.Owning) (connections : List Connection) :
    ∃ h', h.acceptConnection connections = .ok h' ∧ h'.Owning ∧
      Keeps h h' fun _ => False := by
  induction connections generalizing h with
  | nil => exact ⟨h, rfl, o, fun _ _ => id, fun _ _ => id, rfl, rfl⟩
  | cons c rest ih =>
      obtain ⟨h', hrest, o', hkeeps⟩ := ih (o.accepted c)
      refine ⟨h', ?_, o', (o.keeps_accepted c).trans hkeeps⟩
      simp only [Heap.acceptConnection, o.acceptOne c, Bind.bind, Except.bind, hrest]

/-- The requests of the events that are still to be handled: live, disarmed, and
not in the thread pool. -/
def Pending (h : Heap) (rs : List ℕ) : Prop :=
  ∀ r ∈ rs, r = h.listener ∨ (h.requests r).isSome = true ∧ r ∉ h.handed ∧ r ∉ h.armed

theorem Pending.keeps {h h' : Heap} {rs : List ℕ} (hp : Pending h rs) {gone : ℕ → Prop}
    (hkeeps : Keeps h h' gone) (hgone : ∀ r ∈ rs, ¬ gone r) : Pending h' rs := by
  intro r hr
  obtain hlistener | ⟨hlive, hhanded, harmed⟩ := hp r hr
  · exact .inl (hlistener.trans hkeeps.listener.symm)
  · exact .inr ⟨hkeeps.live r (hgone r hr) hlive, hkeeps.handed ▸ hhanded,
      fun hr' => harmed (hkeeps.armed r hlive hr')⟩

/-- A request goes to the thread pool. -/
theorem Owning.hand (o : h.Owning) (hr : h.requests r = some q) (hq : q.timer = none)
    (harmed : r ∉ h.armed) : Owning { h with handed := r :: h.handed } := by
  refine ⟨o.request, o.timer, o.nodup, fun a ha => ?_, fun r' hr' => ?_, o.freshRequest,
    o.freshTimer, o.listener⟩
  · obtain ⟨hlive, hnot⟩ := o.armed a ha
    refine ⟨hlive, fun hmem => ?_⟩
    obtain rfl | hmem := List.mem_cons.1 hmem
    · exact harmed ha
    · exact hnot hmem
  · obtain rfl | hr' := List.mem_cons.1 hr'
    · exact ⟨q, hr, hq⟩
    · exact o.handed r' hr'

theorem Owning.handleEvent (o : h.Owning) {e : Event} {rest : List ℕ}
    (hp : Pending h (e.ptr :: rest)) (hnodup : (e.ptr :: rest).Nodup) :
    ∃ h', h.handleEvent e = .ok h' ∧ h'.Owning ∧ Pending h' rest ∧
      ∀ r ∈ h.handed, r ∈ h'.handed := by
  have hrest : Pending h rest := fun r hr => hp r (List.mem_cons_of_mem _ hr)
  have hne : ∀ r ∈ rest, r ≠ e.ptr := fun r hr heq => (List.nodup_cons.1 hnodup).1 (heq ▸ hr)
  obtain ⟨q, hq⟩ : ∃ q, h.requests e.ptr = some q := by
    obtain hlistener | ⟨hlive, -⟩ := hp e.ptr List.mem_cons_self
    · exact ⟨_, hlistener ▸ o.listener⟩
    · exact Option.isSome_iff_exists.1 hlive
  have hget : h.getRequest e.ptr = .ok q := by simp only [getRequest, hq]
  simp only [Heap.handleEvent, hget, Bind.bind, Except.bind]
  by_cases hfd : q.fd = h.listenFd
  · obtain ⟨h', haccept, o', hkeeps⟩ := o.acceptConnection e.connections
    exact ⟨h', by rw [if_pos hfd, haccept], o', hrest.keeps hkeeps fun _ _ => id,
      fun r hr => hkeeps.handed ▸ hr⟩
  -- the event is not one of the listening descriptor
  have hlistener : e.ptr ≠ h.listener := by
    intro heq
    rw [heq, o.listener] at hq
    obtain rfl := Option.some.inj hq
    exact hfd rfl
  obtain hlistener' | ⟨-, hhanded, harmed⟩ := hp e.ptr List.mem_cons_self
  · exact absurd hlistener' hlistener
  rw [if_neg hfd]
  split
  · obtain ⟨h', hdelete, o', hkeeps⟩ := o.deleteRequest hq hhanded hlistener
    exact ⟨h', hdelete, o', hrest.keeps hkeeps hne, fun r hr => hkeeps.handed ▸ hr⟩
  · obtain ⟨h', hseperate, o', hkeeps, hrequest, harmed'⟩ := o.seperateTimer hq
    have hrest' := hrest.keeps hkeeps fun _ _ => id
    rw [hseperate]
    cases e.added with
    | false => exact ⟨h', rfl, o', hrest', fun r hr => hkeeps.handed ▸ hr⟩
    | true =>
        refine ⟨_, rfl, o'.hand hrequest rfl (harmed' ▸ harmed), fun r hr => ?_, fun r hr => ?_⟩
        · refine (hrest' r hr).imp id fun hlive => ⟨hlive.1, fun hmem => ?_, hlive.2.2⟩
          obtain heq | hmem := List.mem_cons.1 hmem
          · exact hne r hr heq
          · exact hlive.2.1 hmem
        · exact List.mem_cons_of_mem _ (hkeeps.handed ▸ hr)

theorem Owning.handleEvents (o : h.Owning) {events : List Event}
    (hp : Pending h (events.map Event.ptr)) (hnodup : (events.map Event.ptr).Nodup) :
    ∃ h', h.handleEvents events = .ok h' ∧ h'.Owning ∧ ∀ r ∈ h.handed, r ∈ h'.handed := by
  induction events generalizing h with
  | nil => exact ⟨h, rfl, o, fun _ => id⟩
  | cons e rest ih =>
      obtain ⟨h₁, hfirst, o₁, hp₁, hhanded₁⟩ := o.handleEvent hp hnodup
      obtain ⟨h', hrest, o', hhanded⟩ := ih o₁ hp₁ (List.nodup_cons.1 hnodup).2
      refine ⟨h', ?_, o', fun r hr => hhanded r (hhanded₁ r hr)⟩
      simp only [Heap.handleEvents, hfirst, Bind.bind, Except.bind, hrest]

theorem Owning.report (o : h.Owning) (events : List Event) : (h.report events).Owning :=
  ⟨o.request, o.timer, o.nodup, fun a ha => o.armed a (List.mem_of_mem_filter ha), o.handed,
    o.freshRequest, o.freshTimer, o.listener⟩

theorem Owning.pending_report (o : h.Owning) {events : List Event}
    (hevents : ∀ e ∈ events, e.ptr = h.listener ∨ e.ptr ∈ h.armed) :
    Pending (h.report events) (events.map Event.ptr) := by
  intro r hr
  obtain ⟨e, he, rfl⟩ := List.mem_map.1 hr
  obtain hlistener | harmed := hevents e he
  · exact .inl hlistener
  · obtain ⟨hlive, hhanded⟩ := o.armed _ harmed
    refine .inr ⟨hlive, hhanded, fun hmem => ?_⟩
    have hnot := (List.mem_filter.1 hmem).2
    simp only [decide_not, Bool.not_eq_true', decide_eq_false_iff_not] at hnot
    exact hnot hr

/-- The loop of `handle_expired_event`: every timer that it deletes is on top of
the queue, and its request is not in the thread pool. -/
theorem Owning.expireLoop (o : h.Owning) (clock : ℕ → ℕ) (n : ℕ) :
    ∃ h', Heap.expireLoop S clock n h = .ok h' ∧ h'.Owning ∧ h'.handed = h.handed := by
  induction n generalizing h with
  | zero => exact ⟨h, rfl, o, rfl⟩
  | succ n ih =>
      rw [Heap.expireLoop, if_pos o.comparable]
      cases htop : S.top h.key h.myTimerQueue with
      | none => exact ⟨h, rfl, o, rfl⟩
      | some t =>
          have hmem := S.mem_of_top _ _ _ htop
          obtain ⟨timer, ht, -⟩ := o.timer t hmem
          have hget : h.getTimer t = .ok timer := by simp only [getTimer, ht]
          simp only [hget, Bind.bind, Except.bind]
          by_cases hdeleted : timer.deleted = true
          · obtain ⟨h₁, hdelete, o₁, hhanded₁⟩ := o.deleteTimer ht hmem
            obtain ⟨h', hrest, o', hhanded⟩ := ih o₁
            rw [if_pos hdeleted, hdelete]
            exact ⟨h', hrest, o', hhanded.trans hhanded₁⟩
          rw [if_neg hdeleted]
          by_cases hvalid : isvalid timer (clock n) = true
          · rw [if_pos hvalid]
            exact ⟨h, rfl, o, rfl⟩
          · obtain ⟨h₁, hdelete, o₁, hhanded₁⟩ :=
              (o.mark ht).deleteTimer (Function.update_self _ _ _) hmem
            obtain ⟨h', hrest, o', hhanded⟩ := ih o₁
            have hdelete : Heap.deleteTimer (setTimer
                { h with myTimerQueue := h.myTimerQueue.erase t } t
                (some { timer with deleted := true })) t = .ok h₁ := hdelete
            rw [if_neg hvalid, hdelete]
            exact ⟨h', hrest, o', hhanded.trans hhanded₁⟩

/-- No step that is enabled meets a memory fault. -/
theorem Owning.act (o : h.Owning) {a : Act} (ha : h.enabled a) :
    ∃ h', h.act S a = .ok h' ∧ h'.Owning ∧ ∀ r ∈ h.handed, r ∈ h'.handed := by
  cases a with
  | acceptConnection connections =>
      obtain ⟨h', haccept, o', hkeeps⟩ := o.acceptConnection connections
      exact ⟨h', haccept, o', fun r hr => hkeeps.handed ▸ hr⟩
  | handleEvents events =>
      exact (o.report events).handleEvents (o.pending_report ha.2) ha.1
  | handleExpiredEvent clock =>
      obtain ⟨h', hexpire, o', hhanded⟩ := o.expireLoop S clock h.myTimerQueue.length
      exact ⟨h', hexpire, o', fun r hr => hhanded ▸ hr⟩
  | handleRequest r =>
      obtain ⟨q, hq, -⟩ := o.handed r ha
      refine ⟨h, ?_, o, fun _ => id⟩
      simp only [Heap.act, handleRequest, getRequest, hq, Bind.bind, Except.bind]
      rfl

theorem Owning.step {h' : Heap} {a : Act} (o : h.Owning)
    (hstep : (machine S).step h a = some h') : h'.Owning ∧ ∀ r ∈ h.handed, r ∈ h'.handed := by
  obtain ⟨ha, hact⟩ := Option.ite_none_right_eq_some.1 hstep
  obtain ⟨h₁, hact₁, o₁, hhanded⟩ := o.act S ha
  rw [hact₁] at hact
  obtain rfl : h₁ = h' := Option.some.inj hact
  exact ⟨o₁, hhanded⟩

theorem owning_exec {h₀ : Heap} (hh₀ : (machine S).initial h₀) {as : List Act}
    (hexec : (machine S).exec h₀ as = some h) : h.Owning := by
  obtain ⟨listenFd, rfl⟩ := hh₀
  exact (machine S).exec_invariant_of_step (fun _ _ _ o hstep => (o.step S hstep).1)
    (owning_start listenFd) hexec

theorem Owning.handed_exec (o : h.Owning) (hr : r ∈ h.handed) {as : List Act} {h' : Heap}
    (hexec : (machine S).exec h as = some h') : h'.Owning ∧ r ∈ h'.handed :=
  (machine S).exec_invariant_of_step (I := fun h => h.Owning ∧ r ∈ h.handed)
    (fun _ _ _ ho hstep => ⟨(ho.1.step S hstep).1, (ho.1.step S hstep).2 r ho.2⟩) ⟨o, hr⟩ hexec

/-- In every reachable state the timer of a live request is live, in the queue and
points back, the request of a timer in the queue is live and points back, and no
step meets an object that has been deleted. A request in the thread pool stays
alive in all runs. -/
theorem timers_own_requests {h₀ : Heap} (hh₀ : (machine S).initial h₀) {as : List Act}
    (hexec : (machine S).exec h₀ as = some h) :
    (∀ r q t, h.requests r = some q → q.timer = some t → t ∈ h.myTimerQueue ∧
      ∃ timer, h.timers t = some timer ∧ timer.requestData = some r) ∧
    (∀ t ∈ h.myTimerQueue, ∃ timer, h.timers t = some timer ∧
      ∀ r, timer.requestData = some r → ∃ q, h.requests r = some q ∧ q.timer = some t) ∧
    (∀ a, h.enabled a → ∃ h', h.act S a = .ok h') ∧
    (∀ r ∈ h.handed, ∀ bs h', (machine S).exec h bs = some h' →
      (h'.requests r).isSome = true) := by
  have o : h.Owning := owning_exec S hh₀ hexec
  refine ⟨o.request, o.timer, fun a ha => ?_, fun r hr bs h' hrun => ?_⟩
  · obtain ⟨h', hact, -⟩ := o.act S ha
    exact ⟨h', hact⟩
  · obtain ⟨o', hr'⟩ := o.handed_exec S hr hrun
    obtain ⟨q, hq, -⟩ := o'.handed r hr'
    rw [hq]
    rfl

/-- A connection is accepted and handed to the thread pool, and its timer expires
later. -/
theorem timers_own_requests_handed :
    ∃ h, (machine (Selector.argmin ℕ ℕ)).exec (start 3)
        [.acceptConnection [⟨5, true, 100⟩], .handleEvents [⟨1, EPOLLIN, [], true⟩],
          .handleExpiredEvent fun _ => 1000] = some h ∧
      h.handed = [1] ∧ h.myTimerQueue = [] ∧ (h.requests 1).isSome = true := by
  have hinitial : (machine (Selector.argmin ℕ ℕ)).initial (start 3) := ⟨3, rfl⟩
  have hexec : (machine (Selector.argmin ℕ ℕ)).exec (start 3)
      [.acceptConnection [⟨5, true, 100⟩], .handleEvents [⟨1, EPOLLIN, [], true⟩],
        .handleExpiredEvent fun _ => 1000] = some _ := rfl
  refine ⟨_, rfl, rfl, rfl, ?_⟩
  exact (timers_own_requests (Selector.argmin ℕ ℕ) hinitial hexec).2.2.2 1 List.mem_cons_self [] _
    rfl

end

end Heap

end Http

end SoL
