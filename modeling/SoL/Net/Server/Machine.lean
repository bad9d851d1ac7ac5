import SoL.Net.Epoll
import SoL.Net.EventLoopThreadPool

/-!
# Accepting connections

`handNewConn` empties the listen queue: it accepts until `accept` gives no
positive descriptor, and hands every connection to the next worker loop. The
answers of the kernel during one call are a list of attempts; when they are used
up, the listen queue is empty and `accept` fails with `EAGAIN`. A descriptor that
`accept` returns is one that is not open.

The kernel's side of the server is the list of open descriptors and the interest
sets of the pollers, which lose a descriptor that is closed. The functor that
`handNewConn` queues to wake the worker touches neither and is left out, and so
are the address of the peer and `setSocketNodelay`, whose result is ignored.

The loop ends at every failure of `accept`, at descriptor zero, and at a
connection that cannot be made nonblocking, so the queue may be left with
connections in it (`drained_iff`).
-/

namespace SoL

namespace Net

open Transition

inductive AcceptErrno
  | EAGAIN
  | EINTR
  | ECONNABORTED
  | EMFILE
  | ENFILE
  | ENOBUFS
  | ENOMEM
  | other
  deriving DecidableEq

/-- The answer to `accept`. -/
inductive Accepted
  | descriptor (fd : ℕ)
  | failed (e : AcceptErrno)
  deriving DecidableEq

/-- The kernel's answers to one round of the loop: to `accept`, to the two calls
of `fcntl`, and whether it refuses to watch the descriptor. -/
structure Attempt where
  accept : Accepted
  getfl : ℤ
  setfl : ℤ
  refused : Bool
  deriving DecidableEq

def setSocketNonBlocking (getfl setfl : ℤ) : ℤ :=
  if getfl = -1 then -1 else if setfl = -1 then -1 else 0

/-- `registrations` lists the loops that connections have been registered with,
`accepted` every descriptor that `accept` has returned. -/
structure Server where
  pool : EventLoopThreadPool
  pollers : LoopId → Epoll
  acceptChannel : ChannelId
  nextChannel : ChannelId
  opened : List ℕ
  accepted : List ℕ
  registrations : List LoopId

namespace Server

def accept (s : Server) (fd : ℕ) : Server :=
  { s with opened := fd :: s.opened, accepted := fd :: s.accepted }

def close (s : Server) (fd : ℕ) : Server :=
  { s with
    opened := s.opened.filter fun g => g ≠ fd
    pollers := fun loop => (s.pollers loop).closed fd }

/-- `acceptChannel_->setEvents`. -/
def rearm (s : Server) : Server :=
  { s with
    pollers := Function.update s.pollers s.pool.baseLoop
      ((s.pollers s.pool.baseLoop).setEvents s.acceptChannel (EPOLLIN ||| EPOLLET)) }

/-- A new channel for the descriptor, added to the poller of the loop. -/
def register (s : Server) (loop : LoopId) (fd : Fd) (refused : Bool) : Server :=
  let poller := s.pollers loop
  let newChannel := (Channel.new fd true false false).setEvents (EPOLLIN ||| EPOLLET)
  let added := Epoll.addToPoller
    { poller with channels := Function.update poller.channels s.nextChannel newChannel }
    s.nextChannel refused
  { s with
    pollers := Function.update s.pollers loop added
    nextChannel := s.nextChannel + 1
    registrations :=
      if (added.fd2chan fd).isSome then s.registrations ++ [loop] else s.registrations }

/-- The constructor and `start`, with the listening channel in the poller of the
base loop. -/
def start (threadNum : ℤ) (listenFd : Fd) : Except PoolFault Server := do
  let pool ← EventLoopThreadPool.new threadNum
  let acceptChannel := (Channel.new listenFd true false false).setEvents (EPOLLIN ||| EPOLLET)
  let poller := Epoll.create fun _ => acceptChannel
  return {
    pool := pool.start
    pollers := fun loop => if loop = pool.baseLoop then poller.addToPoller 0 false else poller
    acceptChannel := 0
    nextChannel := 1
    opened := [listenFd]
    accepted := []
    registrations := [] }

/-- `handNewConn`, with the last answer of `accept`. -/
def handNewConn (s : Server) : List Attempt → Except PoolFault (Server × Accepted)
  | [] => .ok (s.rearm, .failed .EAGAIN)
  | a :: rest =>
      match a.accept with
      | .failed e => .ok (s.rearm, .failed e)
      | .descriptor fd =>
          if 0 < fd then do
            let (loop, pool) ← s.pool.getNextLoop
            let s := { s.accept fd with pool := pool }
            if h : MAXFDS ≤ fd then
              handNewConn (s.close fd) rest
            else if setSocketNonBlocking a.getfl a.setfl < 0 then
              return (s, .descriptor fd)
            else
              handNewConn (s.register loop ⟨fd, Nat.lt_of_not_le h⟩ a.refused) rest
          else .ok ((s.accept fd).rearm, .descriptor fd)

/-- What a round of the loop does with the answer of `accept`. -/
inductive Verdict
  | failed (e : AcceptErrno)
  | zero
  | tooLarge (fd : ℕ)
  | blocking (fd : ℕ)
  | kept (fd : Fd) (refused : Bool)
  deriving DecidableEq

def verdict (a : Attempt) : Verdict :=
  match a.accept with
  | .failed e => .failed e
  | .descriptor fd =>
      if fd = 0 then .zero
      else if h : MAXFDS ≤ fd then .tooLarge fd
      else if setSocketNonBlocking a.getfl a.setfl < 0 then .blocking fd
      else .kept ⟨fd, Nat.lt_of_not_le h⟩ a.refused

/-- The server after it has accepted a descriptor and taken a turn for it. -/
def turn (s : Server) (fd : ℕ) : Server := { s.accept fd with pool := s.pool.advance }

/-- The round of a connection that is closed again. -/
def discard (s : Server) (fd : ℕ) : Server := (s.turn fd).close fd

/-- The round of a connection that is kept. -/
def keep (s : Server) (fd : Fd) (refused : Bool) : Server :=
  (s.turn fd).register (.worker s.pool.next) fd refused

/-- One round of the loop, by its verdict. -/
theorem handNewConn_cons {s : Server} (h : s.pool.Ready) (a : Attempt)
    (rest : List Attempt) :
    s.handNewConn (a :: rest) =
      match verdict a with
      | .failed e => .ok (s.rearm, .failed e)
      | .zero => .ok ((s.accept 0).rearm, .descriptor 0)
      | .tooLarge fd => (s.discard fd).handNewConn rest
      | .blocking fd => .ok (s.turn fd, .descriptor fd)
      | .kept fd refused => (s.keep fd refused).handNewConn rest := by
  unfold verdict
  cases hacc : a.accept with
  | failed e => simp only [handNewConn, hacc]
  | descriptor fd =>
      simp only [handNewConn, hacc, EventLoopThreadPool.getNextLoop_eq h]
      by_cases hzero : fd = 0
      · simp [hzero]
      by_cases hlarge : MAXFDS ≤ fd
      · simp [hzero, Nat.pos_of_ne_zero hzero, hlarge, discard, turn, Bind.bind, Except.bind]
      by_cases hblocking : setSocketNonBlocking a.getfl a.setfl < 0
      · simp [hzero, Nat.pos_of_ne_zero hzero, hlarge, hblocking, turn, Bind.bind, Except.bind,
          Pure.pure, Except.pure]
      · simp [hzero, Nat.pos_of_ne_zero hzero, hlarge, hblocking, keep, turn, Bind.bind,
          Except.bind]

/-- What the kernel may answer during a call: `accept` returns descriptors that
are not open. -/
def admits (opened : List ℕ) : List Attempt → Bool
  | [] => true
  | a :: rest =>
      match verdict a with
      | .failed _ => true
      | .zero => 0 ∉ opened
      | .tooLarge fd => fd ∉ opened && admits opened rest
      | .blocking fd => fd ∉ opened
      | .kept fd _ => fd.val ∉ opened && admits (fd.val :: opened) rest

/-- A call of `handNewConn`, or the end of a connection, whose descriptor is
closed. -/
inductive Event
  | handNewConn (attempts : List Attempt)
  | close (fd : ℕ)
  deriving DecidableEq

/-- The server when `start` has returned: nothing has been accepted, and what
the pollers watch are descriptors that are open. -/
structure Started (s : Server) : Prop where
  pool : ∃ n p, EventLoopThreadPool.new n = .ok p ∧ s.pool = p.start
  accepted : s.accepted = []
  registrations : s.registrations = []
  watched : ∀ loop (fd : Fd), ((s.pollers loop).interest fd).isSome = true →
    fd.val ∈ s.opened
  tabled : ∀ loop fd c, (s.pollers loop).fd2chan fd = some c → c < s.nextChannel

theorem started_start {threadNum : ℤ} {listenFd : Fd} {s : Server}
    (h : start threadNum listenFd = .ok s) : s.Started := by
  unfold start at h
  cases hnew : EventLoopThreadPool.new threadNum with
  | error e => simp [hnew, Bind.bind, Except.bind] at h
  | ok pool =>
      simp only [hnew, Bind.bind, Except.bind, Pure.pure, Except.pure, Except.ok.injEq] at h
      subst h
      refine ⟨⟨threadNum, pool, hnew, rfl⟩, rfl, rfl, ?_, ?_⟩
      · intro loop fd
        by_cases hloop : loop = pool.baseLoop <;> by_cases hfd : fd = listenFd <;>
          simp [hloop, hfd, Epoll.addToPoller, Epoll.epollAdd, epollCtl, Epoll.create,
            Channel.new, Channel.setEvents]
      · intro loop fd c
        by_cases hloop : loop = pool.baseLoop <;> by_cases hfd : fd = listenFd <;>
          simp [hloop, hfd, Epoll.addToPoller, Epoll.epollAdd, epollCtl, Epoll.create,
            Channel.new, Channel.setEvents]
        exact Eq.symm

def machine : Machine Server Event where
  initial := Started
  step := fun s a =>
    match a with
    | .handNewConn attempts =>
        if admits s.opened attempts then (s.handNewConn attempts).toOption.map Prod.fst
        else none
    | .close fd => if fd ∈ s.opened then some (s.close fd) else none

/-- What holds of a server between two rounds of the loop. -/
structure Sound (s : Server) : Prop where
  pool : s.pool.Ready
  watched : ∀ loop (fd : Fd), ((s.pollers loop).interest fd).isSome = true →
    fd.val ∈ s.opened
  tabled : ∀ loop fd c, (s.pollers loop).fd2chan fd = some c → c < s.nextChannel

theorem Started.sound {s : Server} (h : s.Started) : s.Sound := by
  obtain ⟨n, p, hnew, hpool⟩ := h.pool
  exact ⟨hpool ▸ EventLoopThreadPool.ready_start hnew, h.watched, h.tabled⟩

section Poller

variable {s : Server} {loop loop' : LoopId} {fd : Fd} {refused : Bool}

/-- Only the events of the accepting channel are set again. -/
theorem rearm_pollers (s : Server) (loop : LoopId) :
    s.rearm.pollers loop = s.pollers loop ∨
      s.rearm.pollers loop =
        (s.pollers loop).setEvents s.acceptChannel (EPOLLIN ||| EPOLLET) := by
  by_cases h : loop = s.pool.baseLoop
  · subst h
    exact .inr (Function.update_self _ _ _)
  · exact .inl (Function.update_of_ne h _ _)

theorem rearm_interest (s : Server) (loop : LoopId) :
    (s.rearm.pollers loop).interest = (s.pollers loop).interest := by
  obtain h | h := s.rearm_pollers loop
  · rw [h]
  · rw [h]
    rfl

theorem rearm_fd2chan (s : Server) (loop : LoopId) :
    (s.rearm.pollers loop).fd2chan = (s.pollers loop).fd2chan := by
  obtain h | h := s.rearm_pollers loop
  · rw [h]
  · rw [h]
    rfl

theorem rearm_channels_fd (s : Server) (loop : LoopId) (c : ChannelId) :
    ((s.rearm.pollers loop).channels c).fd = ((s.pollers loop).channels c).fd := by
  obtain h | h := s.rearm_pollers loop
  · rw [h]
  · rw [h]
    by_cases hc : c = s.acceptChannel
    · subst hc
      simp [Epoll.setEvents, Channel.setEvents]
    · simp [Epoll.setEvents, Function.update_of_ne hc]

theorem register_pollers_of_ne (h : loop' ≠ loop) :
    (s.register loop fd refused).pollers loop' = s.pollers loop' :=
  Function.update_of_ne h _ _

theorem register_channels_of_lt (fd : Fd) {c : ChannelId} (hc : c < s.nextChannel) :
    ((s.register loop fd refused).pollers loop).channels c = (s.pollers loop).channels c := by
  have hne : c ≠ s.nextChannel := Nat.ne_of_lt hc
  cases refused with
  | true => simp [register, Epoll.addToPoller, Function.update_of_ne hne]
  | false =>
      simp only [register, Epoll.addToPoller, Epoll.epollAdd, Function.update_self,
        Bool.false_eq_true, if_false]
      split <;> simp [Function.update_of_ne hne]

/-- The poller after a registration that the kernel refuses. -/
theorem register_refused (s : Server) (loop : LoopId) (fd : Fd) :
    ((s.register loop fd true).pollers loop).interest = (s.pollers loop).interest ∧
      ((s.register loop fd true).pollers loop).fd2chan =
        Function.update (s.pollers loop).fd2chan fd none := by
  simp [register, Epoll.addToPoller, Channel.new, Channel.setEvents]

/-- The poller after a registration that the kernel grants. -/
theorem register_granted (hfd : (s.pollers loop).interest fd = none) :
    ((s.register loop fd false).pollers loop).interest =
        Function.update (s.pollers loop).interest fd (some (EPOLLIN ||| EPOLLET)) ∧
      ((s.register loop fd false).pollers loop).fd2chan =
        Function.update (s.pollers loop).fd2chan fd (some s.nextChannel) ∧
      (((s.register loop fd false).pollers loop).channels s.nextChannel).fd = fd := by
  simp [register, Epoll.addToPoller, Epoll.epollAdd, epollCtl, Channel.new,
    Channel.setEvents, hfd, Channel.equalAndUpdateLastEvents]

end Poller

theorem Sound.rearm {s : Server} (h : s.Sound) : s.rearm.Sound := by
  refine ⟨h.pool, fun loop fd hfd => h.watched loop fd ?_, fun loop fd c hc =>
    h.tabled loop fd c ?_⟩
  · rwa [rearm_interest] at hfd
  · rwa [rearm_fd2chan] at hc

theorem Sound.accept {s : Server} (h : s.Sound) (fd : ℕ) : (s.accept fd).Sound :=
  ⟨h.pool, fun loop g hg => List.mem_cons_of_mem fd (h.watched loop g hg), h.tabled⟩

theorem Sound.turn {s : Server} (h : s.Sound) (fd : ℕ) : (s.turn fd).Sound :=
  ⟨h.pool.advance, (h.accept fd).watched, h.tabled⟩

theorem Sound.close {s : Server} (h : s.Sound) (fd : ℕ) : (s.close fd).Sound := by
  refine ⟨h.pool, fun loop g hg => ?_, h.tabled⟩
  by_cases heq : g.val = fd
  · simp [Server.close, Epoll.closed, heq] at hg
  · simp only [Server.close, Epoll.closed, heq, if_false] at hg
    simpa [Server.close, heq] using h.watched loop g hg

theorem Sound.register {s : Server} (h : s.Sound) (loop : LoopId) {fd : Fd} (refused : Bool)
    (hopen : fd.val ∈ s.opened) (hfresh : (s.pollers loop).interest fd = none) :
    (s.register loop fd refused).Sound := by
  refine ⟨h.pool, fun loop' g hg => ?_, fun loop' g c hc => ?_⟩
  · change g.val ∈ s.opened
    by_cases hloop : loop' = loop
    · subst hloop
      by_cases heq : g = fd
      · exact heq ▸ hopen
      · refine h.watched loop' g ?_
        cases refused with
        | true => rwa [(register_refused s loop' fd).1] at hg
        | false => rwa [(register_granted hfresh).1, Function.update_of_ne heq] at hg
    · rw [register_pollers_of_ne hloop] at hg
      exact h.watched loop' g hg
  · change c < s.nextChannel + 1
    by_cases hloop : loop' = loop
    · subst hloop
      by_cases heq : g = fd
      · subst heq
        cases refused with
        | true => simp [(register_refused s loop' g).2] at hc
        | false =>
            rw [(register_granted hfresh).2.1, Function.update_self] at hc
            obtain rfl := Option.some.inj hc
            exact Nat.lt_succ_self _
      · refine Nat.lt_succ_of_lt (h.tabled loop' g c ?_)
        cases refused with
        | true => rwa [(register_refused s loop' fd).2, Function.update_of_ne heq] at hc
        | false => rwa [(register_granted hfresh).2.1, Function.update_of_ne heq] at hc
    · rw [register_pollers_of_ne hloop] at hc
      exact Nat.lt_succ_of_lt (h.tabled loop' g c hc)

/-- A descriptor that is not open is not watched. -/
theorem Sound.interest_eq_none {s : Server} (h : s.Sound) {fd : Fd}
    (hfd : fd.val ∉ s.opened) (loop : LoopId) : (s.pollers loop).interest fd = none := by
  by_contra hne
  exact hfd (h.watched loop fd (Option.isSome_iff_ne_none.2 hne))

theorem Sound.keep {s : Server} (h : s.Sound) {fd : Fd} (hfd : fd.val ∉ s.opened)
    (refused : Bool) : (s.keep fd refused).Sound :=
  (h.turn fd).register _ refused List.mem_cons_self (h.interest_eq_none hfd _)

theorem Sound.discard {s : Server} (h : s.Sound) (fd : ℕ) : (s.discard fd).Sound :=
  (h.turn fd).close fd

theorem discard_opened {s : Server} {fd : ℕ} (hfd : fd ∉ s.opened) :
    (s.discard fd).opened = s.opened := by
  change (fd :: s.opened).filter (fun g => g ≠ fd) = s.opened
  rw [List.filter_cons_of_neg (by simp), List.filter_eq_self]
  intro g hg
  exact decide_eq_true fun heq => hfd (heq ▸ hg)

/-- The verdicts that end the loop. -/
def Verdict.ends : Verdict → Bool
  | .failed _ | .zero | .blocking _ => true
  | .tooLarge _ | .kept _ _ => false

/-- The verdicts that end the loop although `accept` may have more connections to
give. -/
def Verdict.strands : Verdict → Bool
  | .zero | .blocking _ => true
  | .failed .EINTR | .failed .ECONNABORTED | .failed .other => true
  | _ => false

/-- The listen queue is empty, or the process has run out of a resource. -/
def drained : Accepted → Bool
  | .failed .EAGAIN | .failed .EMFILE | .failed .ENFILE | .failed .ENOBUFS
  | .failed .ENOMEM => true
  | _ => false

/-- The first attempt that ends the loop does not strand the listen queue. -/
def drains (attempts : List Attempt) : Prop :=
  ∀ a, attempts.find? (fun a => (verdict a).ends) = some a → (verdict a).strands = false

theorem drained_failed_iff (e : AcceptErrno) :
    drained (.failed e) = true ↔ (Verdict.failed e).strands = false := by
  cases e <;> decide

theorem handNewConn_drained_iff {s : Server} (h : s.pool.Ready) (attempts : List Attempt) :
    ∃ t last, s.handNewConn attempts = .ok (t, last) ∧ t.pool.Ready ∧
      (drained last = true ↔ drains attempts) := by
  induction attempts generalizing s with
  | nil => exact ⟨_, _, rfl, h, by simp [drained, drains]⟩
  | cons a rest ih =>
      rw [handNewConn_cons h]
      cases hv : verdict a with
      | failed e =>
          refine ⟨_, _, rfl, h, ?_⟩
          simp [drained_failed_iff, drains, hv, Verdict.ends]
      | zero =>
          refine ⟨_, _, rfl, h, ?_⟩
          simp [drained, drains, hv, Verdict.ends, Verdict.strands]
      | blocking fd =>
          refine ⟨_, _, rfl, h.advance, ?_⟩
          simp [drained, drains, hv, Verdict.ends, Verdict.strands]
      | tooLarge fd =>
          have hrest : drains (a :: rest) ↔ drains rest := by
            simp [drains, hv, Verdict.ends]
          rw [hrest]
          exact ih h.advance
      | kept fd refused =>
          have hrest : drains (a :: rest) ↔ drains rest := by
            simp [drains, hv, Verdict.ends]
          rw [hrest]
          exact ih h.advance

/-- The induction along the rounds of one call, in the order of the source: the
queue is empty, or the next round has one of the five verdicts. -/
theorem handNewConn_rounds {P : Server → List Attempt → Server → Prop}
    (empty : ∀ s, s.Sound → P s [] s.rearm)
    (failed : ∀ s a rest e, s.Sound → verdict a = .failed e → P s (a :: rest) s.rearm)
    (zero : ∀ s a rest, s.Sound → 0 ∉ s.opened → verdict a = .zero →
      P s (a :: rest) (s.accept 0).rearm)
    (tooLarge : ∀ s a rest t fd, s.Sound → fd ∉ s.opened → verdict a = .tooLarge fd →
      P (s.discard fd) rest t → P s (a :: rest) t)
    (blocking : ∀ s a rest fd, s.Sound → fd ∉ s.opened → verdict a = .blocking fd →
      P s (a :: rest) (s.turn fd))
    (kept : ∀ s a rest t (fd : Fd) refused, s.Sound → fd.val ∉ s.opened →
      verdict a = .kept fd refused → P (s.keep fd refused) rest t → P s (a :: rest) t)
    {s t : Server} {attempts : List Attempt} {last : Accepted} (hs : s.Sound)
    (hadmits : admits s.opened attempts = true)
    (hcall : s.handNewConn attempts = .ok (t, last)) : P s attempts t := by
  induction attempts generalizing s with
  | nil =>
      obtain ⟨rfl, -⟩ := Prod.mk.inj (Except.ok.inj hcall)
      exact empty s hs
  | cons a rest ih =>
      rw [handNewConn_cons hs.pool] at hcall
      cases hv : verdict a with
      | failed e =>
          rw [hv] at hcall
          obtain ⟨rfl, -⟩ := Prod.mk.inj (Except.ok.inj hcall)
          exact failed s a rest e hs hv
      | zero =>
          rw [hv] at hcall
          obtain ⟨rfl, -⟩ := Prod.mk.inj (Except.ok.inj hcall)
          exact zero s a rest hs (by simpa [admits, hv] using hadmits) hv
      | tooLarge fd =>
          rw [hv] at hcall
          obtain ⟨hfd, hrest⟩ : fd ∉ s.opened ∧ admits s.opened rest = true := by
            simpa [admits, hv] using hadmits
          exact tooLarge s a rest t fd hs hfd hv
            (ih (hs.discard fd) (by rwa [discard_opened hfd]) hcall)
      | blocking fd =>
          rw [hv] at hcall
          obtain ⟨rfl, -⟩ := Prod.mk.inj (Except.ok.inj hcall)
          exact blocking s a rest fd hs (by simpa [admits, hv] using hadmits) hv
      | kept fd refused =>
          rw [hv] at hcall
          obtain ⟨hfd, hrest⟩ : fd.val ∉ s.opened ∧ admits (fd.val :: s.opened) rest = true := by
            simpa [admits, hv] using hadmits
          exact kept s a rest t fd refused hs hfd hv (ih (hs.keep hfd refused) hrest hcall)

theorem Sound.handNewConn {s t : Server} {attempts : List Attempt} {last : Accepted}
    (h : s.Sound) (hadmits : admits s.opened attempts = true)
    (hcall : s.handNewConn attempts = .ok (t, last)) : t.Sound :=
  handNewConn_rounds (P := fun _ _ t => t.Sound)
    (fun _ hs => hs.rearm)
    (fun _ _ _ _ hs _ => hs.rearm)
    (fun _ _ _ hs _ _ => (hs.accept 0).rearm)
    (fun _ _ _ _ _ _ _ _ ht => ht)
    (fun _ _ _ fd hs _ _ => hs.turn fd)
    (fun _ _ _ _ _ _ _ _ _ ht => ht)
    h hadmits hcall

theorem step_cases {s t : Server} {a : Event} (h : machine.step s a = some t) :
    (∃ attempts last, a = .handNewConn attempts ∧ admits s.opened attempts = true ∧
      s.handNewConn attempts = .ok (t, last)) ∨
    ∃ fd, a = .close fd ∧ fd ∈ s.opened ∧ t = s.close fd := by
  cases a with
  | handNewConn attempts =>
      left
      simp only [machine, Option.ite_none_right_eq_some, Option.map_eq_some_iff] at h
      obtain ⟨hadmits, ⟨t', last⟩, hcall, rfl⟩ := h
      refine ⟨attempts, last, rfl, hadmits, ?_⟩
      cases hres : s.handNewConn attempts with
      | error e => simp [hres, Except.toOption] at hcall
      | ok r => simpa [hres, Except.toOption] using hcall
  | close fd =>
      right
      simp only [machine, Option.ite_none_right_eq_some, Option.some.injEq] at h
      exact ⟨fd, rfl, h.1, h.2.symm⟩

theorem Sound.step {s t : Server} {a : Event} (h : s.Sound)
    (hstep : machine.step s a = some t) : t.Sound := by
  obtain ⟨attempts, last, -, hadmits, hcall⟩ | ⟨fd, -, -, rfl⟩ := step_cases hstep
  · exact h.handNewConn hadmits hcall
  · exact h.close fd

theorem Started.sound_exec {s t : Server} {as : List Event} (h : s.Started)
    (hexec : machine.exec s as = some t) : t.Sound :=
  machine.exec_invariant_of_step (fun _ _ _ hs hstep => hs.step hstep) h.sound hexec

/-- In every reachable state and for all answers of the kernel during one call of
`handNewConn`, the call returns, and its last `accept` has found the listen
queue empty or failed for want of a resource, exactly when the first attempt that
ends the loop is neither descriptor zero, nor a connection that cannot be made
nonblocking, nor a failure of another kind. -/
theorem drained_iff {s₀ s : Server} (hs₀ : machine.initial s₀) {as : List Event}
    (hexec : machine.exec s₀ as = some s) (attempts : List Attempt) :
    ∃ t last, s.handNewConn attempts = .ok (t, last) ∧
      (drained last = true ↔ drains attempts) := by
  have hs : s.Sound := Started.sound_exec hs₀ hexec
  obtain ⟨t, last, hcall, -, hiff⟩ := handNewConn_drained_iff hs.pool attempts
  exact ⟨t, last, hcall, hiff⟩

/-- A connection that can be kept. -/
def incoming (fd : ℕ) : Attempt := ⟨.descriptor fd, 0, 0, false⟩

/-- Two connections, of which the first one ends. -/
def earlier : List Event := [.handNewConn [incoming 5, incoming 7], .close 5]

/-- Then the process runs out of descriptors behind a connection, or the call is
interrupted in front of another one. -/
theorem drained_afterConnections :
    ∃ s u, start 2 3 = .ok s ∧ machine.exec s earlier = some u ∧ u.accepted = [7, 5] ∧
      (∃ t last, u.handNewConn [incoming 5, ⟨.failed .EMFILE, 0, 0, false⟩] = .ok (t, last) ∧
        drained last = true) ∧
      ∃ t last, u.handNewConn [incoming 5, ⟨.failed .EINTR, 0, 0, false⟩, incoming 8] =
        .ok (t, last) ∧ drained last = false := by
  have hrun : ∃ s u, start 2 3 = .ok s ∧ machine.exec s earlier = some u ∧
      u.accepted = [7, 5] := ⟨_, _, rfl, rfl, rfl⟩
  obtain ⟨s, u, hstart, hexec, haccepted⟩ := hrun
  obtain ⟨t, last, hcall, hiff⟩ := drained_iff (started_start hstart) hexec
    [incoming 5, ⟨.failed .EMFILE, 0, 0, false⟩]
  obtain ⟨t', last', hcall', hiff'⟩ := drained_iff (started_start hstart) hexec
    [incoming 5, ⟨.failed .EINTR, 0, 0, false⟩, incoming 8]
  refine ⟨s, u, hstart, hexec, haccepted, ⟨t, last, hcall, hiff.2 ?_⟩, t', last', hcall', ?_⟩
  · rintro a ⟨⟩
    rfl
  · refine Bool.eq_false_iff.2 (hiff'.not.2 fun hdrains => ?_)
    exact absurd (hdrains _ rfl) (by decide)

/-- An interrupted `accept` leaves the loop with a connection in the queue. -/
theorem not_drained_interrupted :
    ¬ ∀ s, machine.initial s → ∀ attempts t last,
      s.handNewConn attempts = .ok (t, last) → drained last = true := by
  intro h
  have hstart : start 2 3 = .ok _ := rfl
  have hdrained := h _ (started_start hstart)
    [⟨.failed .EINTR, 0, 0, false⟩, ⟨.descriptor 5, 0, 0, false⟩] _ _ rfl
  revert hdrained
  decide

end Server

end Net

end SoL
