import SoL.Net.EventLoop.Machine

/-!
# Dispatch and removal

The active channels of a batch are collected before the first handler runs, and
`epoll_del` changes the poller only. A handler that removes a channel which is
still to be handled in the same batch therefore does not stop it
(`dispatch_after_removal`), nor does a read handler that removes its own channel
when a write event was reported with the read event. Every other removal is
final: the table has no entry for the channel, so no later batch holds it
(`along_handlesLive`).
-/

namespace SoL

namespace Net

namespace Epoll

/-- The channels of `q` are those of `p` up to the masks that they ask for. -/
def sameChannels (p q : Epoll) : Prop :=
  ∀ c, ∃ events lastEvents,
    q.channels c = { p.channels c with events := events, lastEvents := lastEvents }

variable {p q : Epoll}

theorem sameChannels_update {c : ChannelId} {channel : Channel}
    (hq : q.channels = Function.update p.channels c channel)
    (hchannel : channel = { p.channels c with
      events := channel.events, lastEvents := channel.lastEvents }) : p.sameChannels q := by
  intro x
  by_cases hx : x = c
  · subst x
    exact ⟨channel.events, channel.lastEvents, by simpa [hq] using hchannel⟩
  · exact ⟨(p.channels x).events, (p.channels x).lastEvents,
      by simp [hq, Function.update_of_ne hx]⟩

theorem sameChannels_of_eq (h : q.channels = p.channels) : p.sameChannels q :=
  fun c => ⟨(p.channels c).events, (p.channels c).lastEvents, by rw [h]⟩

theorem sameChannels_call (p : Epoll) (a : Call) : p.sameChannels (p.call a) := by
  cases a with
  | setEvents c events => exact sameChannels_update rfl rfl
  | add c =>
      simp only [call, epollAdd]
      split <;> exact sameChannels_update rfl rfl
  | mod c =>
      simp only [call, epollMod]
      split
      · exact sameChannels_update rfl rfl
      · split <;> exact sameChannels_update rfl rfl
  | del c =>
      apply sameChannels_of_eq
      simp only [call, epollDel]
      split <;> rfl

theorem sameChannels_setEvents (p : Epoll) (c : ChannelId) (events : UInt32) :
    p.sameChannels (p.setEvents c events) := sameChannels_call p (.setEvents c events)

theorem fd_eq_of_sameChannels (h : p.sameChannels q) (c : ChannelId) :
    (q.channels c).fd = (p.channels c).fd := by
  obtain ⟨events, lastEvents, hc⟩ := h c
  rw [hc]

theorem handles_eq_of_sameChannels (h : p.sameChannels q) (c : ChannelId) :
    (q.channels c).handles = (p.channels c).handles := by
  obtain ⟨events, lastEvents, hc⟩ := h c
  rw [hc]
  rfl

theorem handlesWrite_eq_of_sameChannels (h : p.sameChannels q) (c : ChannelId) :
    (q.channels c).handlesWrite = (p.channels c).handlesWrite := by
  obtain ⟨events, lastEvents, hc⟩ := h c
  rw [hc]
  rfl

/-- An entry of the table is old or belongs to the channel that was added. -/
theorem fd2chan_call {a : Call} {fd : Fd} {c : ChannelId}
    (h : (p.call a).fd2chan fd = some c) :
    p.fd2chan fd = some c ∨ a = .add c ∧ (p.channels c).fd = fd := by
  have hclear : ∀ g, Function.update p.fd2chan g none fd = some c → p.fd2chan fd = some c := by
    intro g hg
    by_cases hfd : fd = g
    · simp [hfd] at hg
    · simpa [Function.update_of_ne hfd] using hg
  cases a with
  | setEvents x events => exact .inl h
  | add x =>
      simp only [call, epollAdd] at h
      split at h
      · by_cases hfd : fd = (p.channels x).fd
        · subst hfd
          obtain rfl : x = c := by simpa using h
          exact .inr ⟨rfl, rfl⟩
        · exact .inl (by simpa [Function.update_of_ne hfd] using h)
      · exact .inl (hclear _ h)
  | mod x =>
      simp only [call, epollMod] at h
      split at h
      · exact .inl h
      · split at h
        · exact .inl h
        · exact .inl (hclear _ h)
  | del x =>
      simp only [call, epollDel] at h
      split at h <;> exact .inl (hclear _ h)

theorem fd2chan_epollDel (p : Epoll) (c : ChannelId) :
    (p.epollDel c).fd2chan (p.channels c).fd = none := by
  simp only [epollDel]
  split <;> simp

theorem fd2chan_getEventsRequest (p : Epoll) (events : List (Fd × UInt32)) :
    (p.getEventsRequest events).1.fd2chan = p.fd2chan := by
  induction events generalizing p with
  | nil => rfl
  | cons e rest ih =>
      simp only [getEventsRequest]
      split
      · exact ih p
      · exact ih _

theorem fd_getEventsRequest (p : Epoll) (events : List (Fd × UInt32)) (c : ChannelId) :
    ((p.getEventsRequest events).1.channels c).fd = (p.channels c).fd := by
  induction events generalizing p with
  | nil => rfl
  | cons e rest ih =>
      simp only [getEventsRequest]
      split
      · exact ih p
      · rename_i x hx
        refine (ih _).trans ?_
        by_cases hc : c = x
        · subst hc
          simp [Channel.setRevents, Channel.setEvents]
        · simp [Function.update_of_ne hc]

/-- Only channels of the table become active. -/
theorem mem_getEventsRequest {events : List (Fd × UInt32)} {c : ChannelId}
    (h : c ∈ (p.getEventsRequest events).2) : ∃ fd, p.fd2chan fd = some c := by
  induction events generalizing p with
  | nil => simp [getEventsRequest] at h
  | cons e rest ih =>
      simp only [getEventsRequest] at h
      split at h
      case h_1 => exact ih h
      case h_2 x hx =>
          rcases List.mem_cons.1 h with rfl | hrest
          · exact ⟨e.1, hx⟩
          · obtain ⟨fd, hfd⟩ := ih hrest
            exact ⟨fd, hfd⟩

end Epoll

namespace EventLoop

open Epoll

variable {Φ : Type*}

/-- A handler of channel `c` is still to be called for the current batch, besides
one that is running. -/
def outstanding (p : Epoll) (pc : LoopPc) (c : ChannelId) : Prop :=
  match pc with
  | .dispatch active => c ∈ active ∧ (p.channels c).handles = true
  | .running x h active =>
      (c = x ∧ h = .read ∧ (p.channels c).handlesWrite = true) ∨
        (c ∈ active ∧ (p.channels c).handles = true)
  | .testWrite x active =>
      (c = x ∧ (p.channels c).handlesWrite = true) ∨
        (c ∈ active ∧ (p.channels c).handles = true)
  | _ => False

instance (p : Epoll) (pc : LoopPc) (c : ChannelId) : Decidable (outstanding p pc c) :=
  match pc with
  | .dispatch active =>
      inferInstanceAs (Decidable (c ∈ active ∧ (p.channels c).handles = true))
  | .running x h active =>
      inferInstanceAs (Decidable ((c = x ∧ h = .read ∧ (p.channels c).handlesWrite = true) ∨
        (c ∈ active ∧ (p.channels c).handles = true)))
  | .testWrite x active =>
      inferInstanceAs (Decidable ((c = x ∧ (p.channels c).handlesWrite = true) ∨
        (c ∈ active ∧ (p.channels c).handles = true)))
  | .idle | .poll | .setCalling | .swap | .call _ | .inFunctor _ => isFalse id

/-- `removeFromPoller` is called for a channel with a handler still to be called. -/
def removesOutstanding (s : State Φ) : Action Φ → Prop
  | .user (.del c) => outstanding s.poller s.pc c
  | _ => False

instance (s : State Φ) (a : Action Φ) : Decidable (removesOutstanding s a) :=
  match a with
  | .user (.del c) => inferInstanceAs (Decidable (outstanding s.poller s.pc c))
  | .user (.add _) | .user (.mod _) | .user (.setEvents _ _) | .loop | .pollReturn _ | .ret
  | .push _ _ | .decide _ | .wake _ | .accept _ _ => isFalse id

/-- A handler that this step calls belongs to a channel that is not removed. -/
def handlesLive (s : State Φ) (a : Action Φ) : Prop :=
  ∀ t c h active, a = .loop → step s a = some t → t.pc = .running c h active →
    s.removed c = false

/-- The table holds channels under their own descriptors, and no removed one. -/
structure Tabled (p : Epoll) (removed : ChannelId → Bool) : Prop where
  fd : ∀ fd c, p.fd2chan fd = some c → (p.channels c).fd = fd
  live : ∀ fd c, p.fd2chan fd = some c → removed c = false

/-- A removed channel is neither in the table nor outstanding. -/
structure Disposed (s : State Φ) : Prop where
  tabled : Tabled s.poller s.removed
  done : ∀ c, s.removed c = true → ¬ outstanding s.poller s.pc c

theorem removedAfter_eq_true {removed : ChannelId → Bool} {p : Epoll} {a : Call}
    {c : ChannelId} (h : removedAfter removed p a c = true) :
    (removed c = true ∨ a = .del c) ∧
      ¬ (a = .add c ∧ (p.epollAdd c).fd2chan (p.channels c).fd = some c) := by
  cases a with
  | setEvents x events => simpa [removedAfter] using h
  | mod x => simpa [removedAfter] using h
  | del x =>
      by_cases hx : c = x
      · simp [hx]
      · simp only [removedAfter, Function.update_of_ne hx] at h
        simp [h]
  | add x =>
      simp only [removedAfter] at h
      split at h
      case isTrue hadded =>
          have hx : c ≠ x := by
            rintro rfl
            simp at h
          rw [Function.update_of_ne hx] at h
          exact ⟨.inl h, fun hadd => hx (Call.add.inj hadd.1).symm⟩
      case isFalse hfailed =>
          refine ⟨.inl h, ?_⟩
          rintro ⟨hadd, hc⟩
          obtain rfl := Call.add.inj hadd
          exact hfailed hc

theorem tabled_call {p : Epoll} {removed : ChannelId → Bool} (h : Tabled p removed)
    (a : Call) : Tabled (p.call a) (removedAfter removed p a) := by
  constructor
  · intro fd c hc
    rw [fd_eq_of_sameChannels (sameChannels_call p a)]
    rcases fd2chan_call hc with hold | ⟨-, hfd⟩
    · exact h.fd fd c hold
    · exact hfd
  · intro fd c hc
    by_contra hremoved
    rw [Bool.not_eq_false] at hremoved
    obtain ⟨hcases, hadd⟩ := removedAfter_eq_true hremoved
    rcases fd2chan_call hc with hold | ⟨rfl, hfd⟩
    · rcases hcases with hr | rfl
      · simp [h.live fd c hold] at hr
      · have hnone := fd2chan_epollDel p c
        rw [h.fd fd c hold] at hnone
        simp [call, hnone] at hc
    · subst hfd
      exact hadd ⟨rfl, hc⟩

theorem tabled_setEvents {p : Epoll} {removed : ChannelId → Bool} (h : Tabled p removed)
    (c : ChannelId) (events : UInt32) : Tabled (p.setEvents c events) removed :=
  tabled_call h (.setEvents c events)

theorem tabled_getEventsRequest {p : Epoll} {removed : ChannelId → Bool}
    (h : Tabled p removed) (events : List (Fd × UInt32)) :
    Tabled (p.getEventsRequest events).1 removed := by
  constructor
  · intro fd c hc
    rw [fd2chan_getEventsRequest] at hc
    rw [fd_getEventsRequest]
    exact h.fd fd c hc
  · intro fd c hc
    rw [fd2chan_getEventsRequest] at hc
    exact h.live fd c hc

theorem outstanding_iff_of_sameChannels {p q : Epoll} (h : p.sameChannels q) (pc : LoopPc)
    (c : ChannelId) : outstanding q pc c ↔ outstanding p pc c := by
  unfold outstanding
  cases pc <;>
    simp only [handles_eq_of_sameChannels h, handlesWrite_eq_of_sameChannels h]

theorem outstanding_of_afterEvents {p : Epoll} {c : ChannelId} {active : List ChannelId}
    {x : ChannelId} (h : outstanding p (afterEvents (p.channels c) c active) x) :
    outstanding p (.dispatch (c :: active)) x := by
  unfold afterEvents at h
  cases hfirst : (p.channels c).firstHandler with
  | some g =>
      rw [hfirst] at h
      rcases h with ⟨rfl, -, -⟩ | ⟨hx, hhandles⟩
      · exact ⟨List.mem_cons_self, by simp [Channel.handles, hfirst]⟩
      · exact ⟨List.mem_cons_of_mem _ hx, hhandles⟩
  | none =>
      rw [hfirst] at h
      cases hreaches : (p.channels c).reachesWrite with
      | true =>
          rw [hreaches] at h
          rcases h with ⟨rfl, hwrite⟩ | ⟨hx, hhandles⟩
          · exact ⟨List.mem_cons_self, by simp [Channel.handles, hreaches, hwrite]⟩
          · exact ⟨List.mem_cons_of_mem _ hx, hhandles⟩
      | false =>
          rw [hreaches] at h
          exact ⟨List.mem_cons_of_mem _ h.1, h.2⟩

theorem handles_of_afterEvents {channel : Channel} {c x : ChannelId} {g : Handler}
    {active rest : List ChannelId} (h : afterEvents channel c active = .running x g rest) :
    x = c ∧ channel.handles = true := by
  unfold afterEvents at h
  cases hfirst : channel.firstHandler with
  | some k =>
      rw [hfirst] at h
      cases h
      exact ⟨rfl, by simp [Channel.handles, hfirst]⟩
  | none =>
      rw [hfirst] at h
      cases hreaches : channel.reachesWrite <;> simp [hreaches] at h

theorem disposed_create (channels : ChannelId → Channel) (wakeupChannel : ChannelId) :
    Disposed (create Φ channels wakeupChannel) := by
  refine ⟨⟨?_, fun _ _ _ => rfl⟩, fun c hc => by simp [EventLoop.create] at hc⟩
  have hempty : ∀ channels, Tabled (Epoll.create channels) (fun _ => false) :=
    fun _ => ⟨by simp [Epoll.create], fun _ _ _ => rfl⟩
  exact (tabled_call (tabled_setEvents (hempty _) wakeupChannel (EPOLLIN ||| EPOLLET))
    (.add wakeupChannel)).fd

/-- A call on the poller while the loop thread stays where it is. -/
theorem disposed_call {s : State Φ} (h : Disposed s) (a : Call)
    (hremoves : ∀ c, a = .del c → ¬ outstanding s.poller s.pc c) :
    Disposed { s with
      poller := s.poller.call a
      removed := removedAfter s.removed s.poller a } := by
  refine ⟨tabled_call h.tabled a, fun c hc => ?_⟩
  rw [outstanding_iff_of_sameChannels (sameChannels_call s.poller a)]
  rcases (removedAfter_eq_true hc).1 with hold | hdel
  · exact h.done c hold
  · exact hremoves c hdel

/-- The loop thread moves on to a place where less is outstanding, and changes
at most the masks of the channels. -/
theorem disposed_of_move {s t : State Φ} (h : Disposed s)
    (htabled : Tabled t.poller s.removed) (hremoved : t.removed = s.removed)
    (hmove : ∀ c, outstanding t.poller t.pc c → outstanding s.poller s.pc c) : Disposed t := by
  refine ⟨hremoved ▸ htabled, fun c hc hout => ?_⟩
  rw [hremoved] at hc
  exact h.done c hc (hmove c hout)

theorem disposed_handlerReturn {s : State Φ} {c : ChannelId} {g : Handler}
    {active : List ChannelId} (h : Disposed s) (hpc : s.pc = .running c g active)
    (counter : ℕ) :
    Disposed { s with
      poller := finishHandler s g c
      counter := counter
      pc := afterHandler g c active } := by
  have hsame : s.poller.sameChannels (finishHandler s g c) ∧
      Tabled (finishHandler s g c) s.removed := by
    unfold finishHandler
    cases g with
    | read =>
        by_cases hc : c = s.wakeupChannel
        · simpa only [hc, if_true] using And.intro
            (sameChannels_setEvents s.poller _ _) (tabled_setEvents h.tabled _ _)
        · simpa only [hc, if_false] using And.intro
            (sameChannels_of_eq rfl) h.tabled
    | write => exact ⟨sameChannels_of_eq rfl, h.tabled⟩
    | error => exact ⟨sameChannels_setEvents s.poller c 0, tabled_setEvents h.tabled c 0⟩
  refine disposed_of_move h hsame.2 rfl fun x hx => ?_
  rw [outstanding_iff_of_sameChannels hsame.1] at hx
  rw [hpc]
  cases g with
  | read =>
      rcases hx with ⟨rfl, hwrite⟩ | hrest
      · exact .inl ⟨rfl, rfl, hwrite⟩
      · exact .inr hrest
  | write => exact .inr hx
  | error => exact .inr hx

theorem disposed_step {s t : State Φ} {a : Action Φ} (h : Disposed s)
    (hremoves : ¬ removesOutstanding s a) (hstep : step s a = some t) : Disposed t := by
  cases trans_of_step hstep with
  | user a huser =>
      refine disposed_call h a ?_
      rintro c rfl
      exact hremoves
  | accept c events =>
      have hset := disposed_call h (.setEvents c events) (by simp)
      exact disposed_call hset (.add c) (by simp)
  | pollReturn events hpc hreported =>
      refine ⟨tabled_getEventsRequest h.tabled events, fun c hc hout => ?_⟩
      obtain ⟨fd, hfd⟩ := mem_getEventsRequest hout.1
      simp [h.tabled.live fd c hfd] at hc
  | dispatch c active hpc =>
      refine disposed_of_move h (tabled_setEvents h.tabled c 0) rfl fun x hx => ?_
      have hsame := sameChannels_setEvents s.poller c 0
      rw [hpc]
      exact outstanding_of_afterEvents ((outstanding_iff_of_sameChannels hsame _ x).1 hx)
  | testWrite c active hpc =>
      refine disposed_of_move h h.tabled rfl fun x hx => ?_
      rw [hpc]
      cases hwrite : (s.poller.channels c).handlesWrite with
      | true => simpa [outstanding, hwrite] using Or.inr hx
      | false => simpa [outstanding, hwrite] using Or.inr hx
  | handlerReturn c g active hpc => exact disposed_handlerReturn h hpc _
  | push | decide | wake => exact disposed_of_move h h.tabled rfl fun _ hx => hx
  | enter | dispatched | setCalling | swap | call | called | functorReturn =>
      exact disposed_of_move h h.tabled rfl fun _ hx => hx.elim

theorem handlesLive_of_disposed {s : State Φ} (h : Disposed s) (a : Action Φ) :
    handlesLive s a := by
  rintro t c g rest rfl hstep hrunning
  -- the handler that the step calls was outstanding before
  have hout : outstanding s.poller s.pc c := by
    cases trans_of_step hstep with
    | dispatch x active hpc =>
        obtain ⟨rfl, hhandles⟩ := handles_of_afterEvents hrunning
        rw [hpc]
        exact ⟨List.mem_cons_self, hhandles⟩
    | testWrite x active hpc =>
        cases hwrite : (s.poller.channels x).handlesWrite with
        | true =>
            obtain ⟨rfl, -, -⟩ : x = c ∧ Handler.write = g ∧ active = rest := by
              simpa [hwrite] using hrunning
            rw [hpc]
            exact .inl ⟨rfl, hwrite⟩
        | false => simp [hwrite] at hrunning
    | enter | dispatched | setCalling | swap | call | called => simp at hrunning
  by_contra hremoved
  exact h.done c (by simpa using hremoved) hout

/-- In every run in which no channel is removed while a handler of it is still
to be called in the batch, no handler of a removed channel is called until the
channel is added again. -/
theorem along_handlesLive {channels : ChannelId → Channel} {wakeupChannel : ChannelId}
    {as : List (Action Φ)}
    (hremoves : (machine Φ).along (fun s a => ¬ removesOutstanding s a)
      (create Φ channels wakeupChannel) as) :
    (machine Φ).along handlesLive (create Φ channels wakeupChannel) as :=
  (machine Φ).along_of_invariant (fun _ _ _ h hremoves hstep => disposed_step h hremoves hstep)
    (fun _ a _ h _ _ => handlesLive_of_disposed h a) (disposed_create channels wakeupChannel)
    hremoves

/-- The wakeup channel 0 on descriptor 4, and two channels with read handlers. -/
def threeChannels : ChannelId → Channel
  | 0 => Channel.new 4 false false false
  | 1 => Channel.new 5 true false false
  | _ => Channel.new 6 true false false

/-- The channels 1 and 2 are ready in the same batch, and the handler of the
first is running. -/
def bothReady : List (Action ℕ) :=
  [.accept 1 (EPOLLIN ||| EPOLLET), .accept 2 (EPOLLIN ||| EPOLLET), .loop,
    .pollReturn [(5, EPOLLIN), (6, EPOLLIN)], .loop]

/-- The handler of channel 2 removes channel 1, which has been handled. -/
def removesHandled : List (Action ℕ) :=
  bothReady ++ [.ret, .loop, .loop, .user (.del 1), .ret, .loop, .loop]

theorem along_handlesLive_removesHandled :
    (∃ s, (machine ℕ).exec (create ℕ threeChannels 0) removesHandled = some s) ∧
      (machine ℕ).along handlesLive (create ℕ threeChannels 0) removesHandled :=
  ⟨Option.isSome_iff_exists.1 (by decide +kernel), along_handlesLive (by decide +kernel)⟩

/-- The handler of channel 1 removes channel 2, which is handled next. -/
def removesNext : List (Action ℕ) := bothReady ++ [.user (.del 2), .ret, .loop]

theorem dispatch_after_removal :
    ∃ s t, (machine ℕ).exec (create ℕ threeChannels 0) removesNext = some s ∧
      s.removed 2 = true ∧ step s .loop = some t ∧ t.pc = .running 2 .read [] := by
  have hrun : ((machine ℕ).exec (create ℕ threeChannels 0) removesNext).map
      (fun s => (s.removed 2, (step s .loop).map State.pc)) =
        some (true, some (.running 2 .read [])) := by decide +kernel
  obtain ⟨s, hs, heq⟩ := Option.map_eq_some_iff.1 hrun
  obtain ⟨hremoved, hnext⟩ := Prod.mk.inj heq
  obtain ⟨t, ht, hpc⟩ := Option.map_eq_some_iff.1 hnext
  exact ⟨s, t, hs, hremoved, ht, hpc⟩

end EventLoop

end Net

end SoL
