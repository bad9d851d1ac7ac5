import SoL.Net.Epoll

/-!
# The cached `epoll_mod`

`epoll_mod` leaves out its system call when the events of the channel are the
ones last handed to the kernel. A second poller makes the call every time, and
the two are run side by side on the same operations. The kernel here knows the
two flags that let it have a say in the masks: it disarms a descriptor watched
with `EPOLLONESHOT` when it reports it, and it refuses to modify a descriptor
watched with `EPOLLEXCLUSIVE`.

Each of the flags makes the two pollers differ. Without them the interest sets
are the same after every operation, since `lastEvents_` of the channel of a
watched descriptor is the mask that the kernel has for it
(`always_sameInterest`).
-/

namespace SoL

namespace Net

open Transition

def EPOLLEXCLUSIVE : UInt32 := 0x10000000
def EPOLLWAKEUP : UInt32 := 0x20000000
def EPOLLONESHOT : UInt32 := 0x40000000

/-- The flags that are left of a mask when its descriptor is disarmed. -/
def EP_PRIVATE_BITS : UInt32 := EPOLLWAKEUP ||| EPOLLONESHOT ||| EPOLLET ||| EPOLLEXCLUSIVE

/-- What may be asked for together with `EPOLLEXCLUSIVE`. -/
def EPOLLEXCLUSIVE_OK_BITS : UInt32 :=
  EPOLLIN ||| EPOLLOUT ||| EPOLLERR ||| EPOLLHUP ||| EPOLLWAKEUP ||| EPOLLET ||| EPOLLEXCLUSIVE

/-- The mask has the flag. -/
def flagged (flag mask : UInt32) : Bool := mask &&& flag != 0

/-- `EINVAL` for the sake of `EPOLLEXCLUSIVE`. -/
def refuses : CtlOp → Option UInt32 → UInt32 → Bool
  | .add, _, events =>
      flagged EPOLLEXCLUSIVE events && flagged (~~~EPOLLEXCLUSIVE_OK_BITS) events
  | .mod, watched, events =>
      flagged EPOLLEXCLUSIVE events || watched.any (flagged EPOLLEXCLUSIVE)
  | .del, _, _ => false

/-- `epoll_ctl` with the flags. -/
def epollCtlFlagged (op : CtlOp) (interest : Fd → Option UInt32) (fd : Fd) (events : UInt32) :
    Option (Fd → Option UInt32) :=
  if refuses op (interest fd) events then none else epollCtl op interest fd events

/-- The mask of a descriptor after it has been reported. -/
def disarm (mask : UInt32) : UInt32 :=
  if flagged EPOLLONESHOT mask then mask &&& EP_PRIVATE_BITS else mask

namespace Epoll

/-- `epoll_add` over a given `epoll_ctl`. -/
def addBy (ctl : CtlOp → (Fd → Option UInt32) → Fd → UInt32 → Option (Fd → Option UInt32))
    (p : Epoll) (request : ChannelId) : Epoll :=
  let channel := p.channels request
  let updated := Function.update p.channels request channel.equalAndUpdateLastEvents.2
  match ctl .add p.interest channel.fd channel.events with
  | some interest =>
      { channels := updated
        fd2chan := Function.update p.fd2chan channel.fd (some request)
        interest := interest }
  | none =>
      { p with
        channels := updated
        fd2chan := Function.update p.fd2chan channel.fd none }

/-- `epoll_mod` over a given `epoll_ctl`, with the test of
`EqualAndUpdateLastEvents` or without it. -/
def modBy (ctl : CtlOp → (Fd → Option UInt32) → Fd → UInt32 → Option (Fd → Option UInt32))
    (cached : Bool) (p : Epoll) (request : ChannelId) : Epoll :=
  let channel := p.channels request
  let updated := Function.update p.channels request channel.equalAndUpdateLastEvents.2
  if cached && channel.equalAndUpdateLastEvents.1 then { p with channels := updated }
  else
    match ctl .mod p.interest channel.fd channel.events with
    | some interest => { p with channels := updated, interest := interest }
    | none =>
        { p with
          channels := updated
          fd2chan := Function.update p.fd2chan channel.fd none }

local instance lawfulBEqFd : LawfulBEq Fd := inferInstance

/-- `poll`: the kernel disarms what it reports, and the channels are told. -/
def poll (p : Epoll) (events : List (Fd × UInt32)) : Epoll :=
  (getEventsRequest
    { p with interest := fun fd =>
        if fd ∈ events.map Prod.fst then (p.interest fd).map disarm else p.interest fd }
    events).1

/-- The operations. `handleEvents` stands for each of its assignments to
`events_`; what its handlers do are operations of their own. An `epoll_add` may
be refused for want of resources. -/
inductive Operation
  | setEvents (c : ChannelId) (events : UInt32)
  | poll (events : List (Fd × UInt32))
  | handleEvents (c : ChannelId)
  | add (c : ChannelId) (refused : Bool)
  | mod (c : ChannelId)
  | del (c : ChannelId)
  | close (fd : ℕ)

def operate (cached : Bool) (p : Epoll) : Operation → Epoll
  | .setEvents c events => p.setEvents c events
  | .poll events => p.poll events
  | .handleEvents c => p.setEvents c 0
  | .add c refused => if refused then p.addToPoller c true else p.addBy epollCtlFlagged c
  | .mod c => p.modBy epollCtlFlagged cached c
  | .del c => p.epollDel c
  | .close fd => p.closed fd

/-- The poller and the plain one side by side. -/
def sideBySide : Machine (Epoll × Epoll) Operation where
  initial := fun s => ∃ channels, s = (create channels, create channels)
  step := fun s a =>
    match a with
    | .poll events =>
        if s.1.reported events ∧ s.2.reported events then
          some (s.1.operate true a, s.2.operate false a)
        else none
    | _ => some (s.1.operate true a, s.2.operate false a)

def sameInterest (s : Epoll × Epoll) : Prop := s.1.interest = s.2.interest

/-- Only a descriptor that the kernel does not watch is added, and the channel of
a watched descriptor is the one in the table, which keeps it alive. -/
def oneChannel (s : Epoll × Epoll) : Operation → Prop
  | .add c _ => s.1.interest (s.1.channels c).fd = none
  | .mod c => (s.1.interest (s.1.channels c).fd).isSome = true →
      s.1.fd2chan (s.1.channels c).fd = some c
  | .setEvents _ _ | .poll _ | .handleEvents _ | .del _ | .close _ => True

instance (s : Epoll × Epoll) (a : Operation) : Decidable (oneChannel s a) :=
  match a with
  | .add c _ => inferInstanceAs (Decidable (s.1.interest (s.1.channels c).fd = none))
  | .mod c => inferInstanceAs (Decidable ((s.1.interest (s.1.channels c).fd).isSome = true →
      s.1.fd2chan (s.1.channels c).fd = some c))
  | .setEvents _ _ | .poll _ | .handleEvents _ | .del _ | .close _ => isTrue trivial

/-- The operation does not ask for events with the flag. -/
def avoids (flag : UInt32) : Operation → Prop
  | .setEvents _ events => flagged flag events = false
  | .poll _ | .handleEvents _ | .add _ _ | .mod _ | .del _ | .close _ => True

instance (flag : UInt32) (a : Operation) : Decidable (avoids flag a) :=
  match a with
  | .setEvents _ events => inferInstanceAs (Decidable (flagged flag events = false))
  | .poll _ | .handleEvents _ | .add _ _ | .mod _ | .del _ | .close _ => isTrue trivial

/-- The mask has neither of the flags. -/
def plain (mask : UInt32) : Prop :=
  flagged EPOLLONESHOT mask = false ∧ flagged EPOLLEXCLUSIVE mask = false

theorem plain_zero : plain 0 := ⟨by decide, by decide⟩

/-- The flags are all that `epoll_ctl` looks at in the masks. -/
theorem epollCtlFlagged_eq {op : CtlOp} {interest : Fd → Option UInt32} {fd : Fd}
    {events : UInt32} (hevents : plain events)
    (hwatched : ∀ m, interest fd = some m → plain m) :
    epollCtlFlagged op interest fd events = epollCtl op interest fd events := by
  have hrefuses : refuses op (interest fd) events = false := by
    cases op with
    | add => simp [refuses, hevents.2]
    | mod =>
        cases hm : interest fd with
        | none => simp [refuses, hevents.2]
        | some m => simp [refuses, hevents.2, (hwatched m hm).2]
    | del => rfl
  simp [epollCtlFlagged, hrefuses]

theorem addBy_eq_epollAdd {p : Epoll} {c : ChannelId} (hevents : plain (p.channels c).events)
    (hwatched : ∀ fd m, p.interest fd = some m → plain m) :
    p.addBy epollCtlFlagged c = p.epollAdd c := by
  have hplain : p.addBy epollCtl c = p.epollAdd c := rfl
  rw [← hplain]
  simp only [addBy, epollCtlFlagged_eq hevents (hwatched _)]

theorem modBy_eq_epollMod {p : Epoll} {c : ChannelId} (hevents : plain (p.channels c).events)
    (hwatched : ∀ fd m, p.interest fd = some m → plain m) :
    p.modBy epollCtlFlagged true c = p.epollMod c := by
  have hplain : p.modBy epollCtl true c = p.epollMod c := rfl
  rw [← hplain]
  simp only [modBy, epollCtlFlagged_eq hevents (hwatched _)]

/-- The two pollers agree on everything but the table entries of descriptors that
are not watched, and the kernel has the last events of the channel. -/
structure Agreeing (p q : Epoll) : Prop where
  interest : q.interest = p.interest
  channels : q.channels = p.channels
  events : ∀ c, plain (p.channels c).events
  masks : ∀ fd m, p.interest fd = some m → plain m
  entry : ∀ fd m, p.interest fd = some m → ∃ c, p.fd2chan fd = some c ∧
    q.fd2chan fd = some c ∧ (p.channels c).fd = fd ∧ (p.channels c).lastEvents = m

variable {p q : Epoll}

theorem agreeing_create {channels : ChannelId → Channel} (h : ∀ c, (channels c).events = 0) :
    Agreeing (create channels) (create channels) where
  interest := rfl
  channels := rfl
  events := fun c => by
    change plain (channels c).events
    rw [h c]
    exact plain_zero
  masks := by simp [create]
  entry := by simp [create]

theorem Agreeing.masks_snd (h : Agreeing p q) : ∀ fd m, q.interest fd = some m → plain m := by
  rw [h.interest]
  exact h.masks

theorem Agreeing.events_snd (h : Agreeing p q) (c : ChannelId) : plain (q.channels c).events := by
  rw [h.channels]
  exact h.events c

/-- Only events are assigned. -/
theorem Agreeing.assign (h : Agreeing p q) {channels : ChannelId → Channel}
    (hkeep : ∀ c, (channels c).fd = (p.channels c).fd ∧
      (channels c).lastEvents = (p.channels c).lastEvents)
    (hevents : ∀ c, plain (channels c).events) :
    Agreeing { p with channels := channels } { q with channels := channels } where
  interest := h.interest
  channels := rfl
  events := hevents
  masks := h.masks
  entry := by
    intro fd m hm
    obtain ⟨c, hp, hq, hfd, hlast⟩ := h.entry fd m hm
    exact ⟨c, hp, hq, (hkeep c).1.trans hfd, (hkeep c).2.trans hlast⟩

/-- Descriptors are forgotten. -/
theorem Agreeing.forget (h : Agreeing p q) {f g : Fd → Option ChannelId}
    {i : Fd → Option UInt32}
    (hkeep : ∀ fd m, i fd = some m →
      p.interest fd = some m ∧ f fd = p.fd2chan fd ∧ g fd = q.fd2chan fd) :
    Agreeing { p with fd2chan := f, interest := i } { q with fd2chan := g, interest := i } where
  interest := rfl
  channels := h.channels
  events := h.events
  masks := fun fd m hm => h.masks fd m (hkeep fd m hm).1
  entry := by
    intro fd m hm
    obtain ⟨hwatched, hf, hg⟩ := hkeep fd m hm
    obtain ⟨c, hp, hq, hrest⟩ := h.entry fd m hwatched
    exact ⟨c, hf.trans hp, hg.trans hq, hrest⟩

/-- The events of a channel become its last events, and with them the mask of its
descriptor, if that is watched. The channels of the other descriptors are other
channels. -/
theorem Agreeing.handOver (h : Agreeing p q) (c : ChannelId) {f g : Fd → Option ChannelId}
    {i : Fd → Option UInt32}
    (hother : ∀ fd, fd ≠ (p.channels c).fd →
      i fd = p.interest fd ∧ f fd = p.fd2chan fd ∧ g fd = q.fd2chan fd)
    (hmine : ∀ m, i (p.channels c).fd = some m → m = (p.channels c).events ∧
      f (p.channels c).fd = some c ∧ g (p.channels c).fd = some c) :
    Agreeing
      ⟨Function.update p.channels c (p.channels c).equalAndUpdateLastEvents.2, f, i⟩
      ⟨Function.update q.channels c (q.channels c).equalAndUpdateLastEvents.2, g, i⟩ where
  interest := rfl
  channels := by rw [h.channels]
  events := by
    intro d
    by_cases hd : d = c
    · subst hd
      simpa [Channel.equalAndUpdateLastEvents] using h.events d
    · simpa [Function.update_of_ne hd] using h.events d
  masks := by
    intro fd m hm
    by_cases hfd : fd = (p.channels c).fd
    · subst hfd
      rw [(hmine m hm).1]
      exact h.events c
    · exact h.masks fd m ((hother fd hfd).1.symm.trans hm)
  entry := by
    intro fd m hm
    by_cases hfd : fd = (p.channels c).fd
    · subst hfd
      obtain ⟨rfl, hf, hg⟩ := hmine m hm
      exact ⟨c, hf, hg, by simp [Channel.equalAndUpdateLastEvents],
        by simp [Channel.equalAndUpdateLastEvents]⟩
    · obtain ⟨hi, hf, hg⟩ := hother fd hfd
      obtain ⟨d, hp, hq, hd, hlast⟩ := h.entry fd m (hi.symm.trans hm)
      have hne : d ≠ c := by
        rintro rfl
        exact hfd hd.symm
      refine ⟨d, hf.trans hp, hg.trans hq, ?_, ?_⟩
      · simpa [Function.update_of_ne hne] using hd
      · simpa [Function.update_of_ne hne] using hlast

theorem agreeing_setEvents (h : Agreeing p q) (c : ChannelId) {m : UInt32} (hm : plain m) :
    Agreeing (p.setEvents c m) (q.setEvents c m) := by
  simp only [setEvents, h.channels]
  refine h.assign (fun d => ?_) fun d => ?_
  · by_cases hd : d = c
    · subst hd
      simp [Channel.setEvents]
    · simp [Function.update_of_ne hd]
  · by_cases hd : d = c
    · subst hd
      simpa [Channel.setEvents] using hm
    · simpa [Function.update_of_ne hd] using h.events d

/-- What `getEventsRequest` does to the channels. -/
def told (table : Fd → Option ChannelId) (channels : ChannelId → Channel) :
    List (Fd × UInt32) → ChannelId → Channel
  | [] => channels
  | (fd, events) :: rest =>
      match table fd with
      | none => told table channels rest
      | some c => told table (Function.update channels c
          (((channels c).setRevents events).setEvents 0)) rest

theorem getEventsRequest_fst (p : Epoll) (events : List (Fd × UInt32)) :
    (p.getEventsRequest events).1 = { p with channels := told p.fd2chan p.channels events } := by
  induction events generalizing p with
  | nil => rfl
  | cons e rest ih =>
      cases hc : p.fd2chan e.1 with
      | none => simp only [getEventsRequest, told, hc, ih]
      | some c => simp only [getEventsRequest, told, hc, ih]

theorem told_congr {f g : Fd → Option ChannelId} {events : List (Fd × UInt32)}
    (h : ∀ e ∈ events, f e.1 = g e.1) (channels : ChannelId → Channel) :
    told f channels events = told g channels events := by
  induction events generalizing channels with
  | nil => rfl
  | cons e rest ih =>
      have hrest := ih fun e he => h e (List.mem_cons_of_mem _ he)
      simp only [told, h e List.mem_cons_self, hrest]

/-- A channel is told of its events, and forgets those that it asked for. -/
theorem told_keeps {channels channels' : ChannelId → Channel} {f : Fd → Option ChannelId}
    {e : List (Fd × UInt32)}
    (hkeep : ∀ c, (channels' c).fd = (channels c).fd ∧
      (channels' c).lastEvents = (channels c).lastEvents ∧ plain (channels' c).events)
    (c : ChannelId) :
    (told f channels' e c).fd = (channels c).fd ∧
      (told f channels' e c).lastEvents = (channels c).lastEvents ∧
      plain (told f channels' e c).events := by
  induction e generalizing channels' with
  | nil => exact hkeep c
  | cons e rest ih =>
      simp only [told]
      cases f e.1 with
      | none => exact ih hkeep
      | some d =>
          refine ih fun b => ?_
          by_cases hb : b = d
          · subst hb
            obtain ⟨hfd, hlast, -⟩ := hkeep b
            simpa [Channel.setRevents, Channel.setEvents, hfd, hlast] using plain_zero
          · simpa [Function.update_of_ne hb] using hkeep b

/-- Without the flag nothing is disarmed. -/
theorem poll_eq (h : ∀ fd m, p.interest fd = some m → plain m) (events : List (Fd × UInt32)) :
    p.poll events = { p with channels := told p.fd2chan p.channels events } := by
  have hinterest : (fun fd => if fd ∈ events.map Prod.fst then (p.interest fd).map disarm
      else p.interest fd) = p.interest := by
    funext fd
    split
    · cases hm : p.interest fd with
      | none => rfl
      | some m => simp [disarm, (h fd m hm).1]
    · rfl
  rw [poll, hinterest, getEventsRequest_fst]

theorem agreeing_poll (h : Agreeing p q) {events : List (Fd × UInt32)}
    (hreported : p.reported events) : Agreeing (p.poll events) (q.poll events) := by
  have htable : ∀ e ∈ events, q.fd2chan e.1 = p.fd2chan e.1 := by
    intro e he
    obtain ⟨m, hm⟩ := Option.isSome_iff_exists.1 (hreported e he)
    obtain ⟨c, hp, hq, -⟩ := h.entry e.1 m hm
    rw [hp, hq]
  have hkeeps := told_keeps (f := p.fd2chan) (e := events) fun c => ⟨rfl, rfl, h.events c⟩
  rw [poll_eq h.masks, poll_eq h.masks_snd, h.channels, told_congr htable]
  exact h.assign (fun c => ⟨(hkeeps c).1, (hkeeps c).2.1⟩) fun c => (hkeeps c).2.2

/-- After `epoll_del` the descriptor is in neither of the tables. -/
theorem epollDel_eq (p : Epoll) (c : ChannelId) :
    p.epollDel c = { p with
      fd2chan := Function.update p.fd2chan (p.channels c).fd none
      interest := Function.update p.interest (p.channels c).fd none } := by
  cases hfd : p.interest (p.channels c).fd with
  | none =>
      simp only [epollDel, epollCtl, hfd, Option.isSome_none, Bool.false_eq_true, if_false]
      rw [← hfd, Function.update_eq_self]
  | some mask => simp only [epollDel, epollCtl, hfd, Option.isSome_some, if_true]

theorem agreeing_epollDel (h : Agreeing p q) (c : ChannelId) :
    Agreeing (p.epollDel c) (q.epollDel c) := by
  rw [epollDel_eq, epollDel_eq, h.channels, h.interest]
  have hnext := h.forget (f := Function.update p.fd2chan (p.channels c).fd none)
    (g := Function.update q.fd2chan (p.channels c).fd none)
    (i := Function.update p.interest (p.channels c).fd none) fun fd m hm => ?_
  · rwa [h.channels] at hnext
  · have hfd : fd ≠ (p.channels c).fd := by
      rintro rfl
      simp at hm
    simpa [Function.update_of_ne hfd] using hm

theorem agreeing_closed (h : Agreeing p q) (fd : ℕ) : Agreeing (p.closed fd) (q.closed fd) := by
  unfold closed
  rw [h.interest]
  refine h.forget fun g m hm => ?_
  split at hm
  · cases hm
  · exact ⟨hm, rfl, rfl⟩

/-- The kernel does not watch the descriptor, so the channel is the only one that
changes. -/
theorem agreeing_refused (h : Agreeing p q) {c : ChannelId}
    (hfree : p.interest (p.channels c).fd = none) :
    Agreeing (p.addToPoller c true) (q.addToPoller c true) := by
  have hnext := h.handOver c (f := Function.update p.fd2chan (p.channels c).fd none)
    (g := Function.update q.fd2chan (p.channels c).fd none) (i := p.interest)
    (fun fd hfd => by simp [Function.update_of_ne hfd]) (by simp [hfree])
  simpa only [addToPoller, if_true, h.channels, h.interest] using hnext

theorem agreeing_epollAdd (h : Agreeing p q) {c : ChannelId}
    (hfree : p.interest (p.channels c).fd = none) :
    Agreeing (p.epollAdd c) (q.epollAdd c) := by
  have hnext := h.handOver c (f := Function.update p.fd2chan (p.channels c).fd (some c))
    (g := Function.update q.fd2chan (p.channels c).fd (some c))
    (i := Function.update p.interest (p.channels c).fd (some (p.channels c).events))
    (fun fd hfd => by simp [Function.update_of_ne hfd]) (by simp [eq_comm])
  simpa only [epollAdd, epollCtl, h.channels, h.interest, hfree, Option.isSome_none,
    Bool.false_eq_true, if_false] using hnext

/-- The plain `epoll_mod` on a kernel that does not look at the masks. -/
theorem modBy_false_eq (h : Agreeing p q) (c : ChannelId) :
    q.modBy epollCtlFlagged false c = q.modBy epollCtl false c := by
  simp only [modBy, epollCtlFlagged_eq (h.events_snd c) (h.masks_snd _)]

/-- A call that is left out would have given the kernel the mask that it has. -/
theorem agreeing_epollMod (h : Agreeing p q) {c : ChannelId}
    (hmine : (p.interest (p.channels c).fd).isSome = true →
      p.fd2chan (p.channels c).fd = some c) :
    Agreeing (p.epollMod c) (q.modBy epollCtl false c) := by
  cases hfd : p.interest (p.channels c).fd with
  | none =>
      have hnext : ∀ f, (∀ fd, fd ≠ (p.channels c).fd → f fd = p.fd2chan fd) →
          Agreeing ⟨_, f, p.interest⟩
            ⟨_, Function.update q.fd2chan (p.channels c).fd none, p.interest⟩ :=
        fun f hf => h.handOver c (fun fd hne => by simp [hf fd hne, Function.update_of_ne hne])
          (by simp [hfd])
      simp only [epollMod, modBy, epollCtl, Bool.false_and, h.channels, h.interest, hfd]
      split
      · simpa [h.channels] using hnext p.fd2chan fun _ _ => rfl
      · simpa [h.channels] using hnext (Function.update p.fd2chan (p.channels c).fd none)
          fun fd hne => Function.update_of_ne hne _ _
  | some mask =>
      obtain ⟨d, hp, hq, -, hlast⟩ := h.entry _ _ hfd
      obtain rfl : c = d := Option.some.inj ((hmine (by simp [hfd])).symm.trans hp)
      have hnext := h.handOver c (f := p.fd2chan) (g := q.fd2chan)
        (i := Function.update p.interest (p.channels c).fd (some (p.channels c).events))
        (fun fd hne => by simp [Function.update_of_ne hne]) (by simp [hp, hq, eq_comm])
      simp only [epollMod, modBy, epollCtl, Bool.false_and, h.channels, h.interest, hfd]
      split
      · rename_i hequal
        have hevents : (p.channels c).events = mask := by
          rw [← hlast]
          exact (beq_iff_eq.1 hequal).symm
        have hsame : Function.update p.interest (p.channels c).fd
            (some (p.channels c).events) = p.interest := by
          rw [hevents, ← hfd, Function.update_eq_self]
        simp only [hsame] at hnext ⊢
        simpa [h.channels] using hnext
      · simpa [h.channels] using hnext

theorem agreeing_step {s t : Epoll × Epoll} {a : Operation} (h : Agreeing s.1 s.2)
    (hone : oneChannel s a) (honeshot : avoids EPOLLONESHOT a)
    (hexclusive : avoids EPOLLEXCLUSIVE a) (hstep : sideBySide.step s a = some t) :
    Agreeing t.1 t.2 := by
  cases a with
  | setEvents c events =>
      obtain rfl := Option.some.inj hstep
      exact agreeing_setEvents h c ⟨honeshot, hexclusive⟩
  | poll events =>
      obtain ⟨hreported, hstep⟩ := Option.ite_none_right_eq_some.1 hstep
      obtain rfl := Option.some.inj hstep
      exact agreeing_poll h hreported.1
  | handleEvents c =>
      obtain rfl := Option.some.inj hstep
      exact agreeing_setEvents h c plain_zero
  | add c refused =>
      obtain rfl := Option.some.inj hstep
      cases refused with
      | true => exact agreeing_refused h hone
      | false =>
          simp only [operate, Bool.false_eq_true, if_false,
            addBy_eq_epollAdd (h.events c) h.masks, addBy_eq_epollAdd (h.events_snd c) h.masks_snd]
          exact agreeing_epollAdd h hone
  | mod c =>
      obtain rfl := Option.some.inj hstep
      simp only [operate, modBy_eq_epollMod (h.events c) h.masks, modBy_false_eq h]
      exact agreeing_epollMod h hone
  | del c =>
      obtain rfl := Option.some.inj hstep
      exact agreeing_epollDel h c
  | close fd =>
      obtain rfl := Option.some.inj hstep
      exact agreeing_closed h fd

/-- For all operations on new channels, one channel at a time for each descriptor
and no mask with one of the two flags, the interest set after every operation is
the same as without the cache. -/
theorem always_sameInterest {channels : ChannelId → Channel}
    (hnew : ∀ c, ∃ fd read write error, channels c = .new fd read write error)
    {as : List Operation}
    (hone : sideBySide.along oneChannel (create channels, create channels) as)
    (honeshot : ∀ a ∈ as, avoids EPOLLONESHOT a)
    (hexclusive : ∀ a ∈ as, avoids EPOLLEXCLUSIVE a) :
    sideBySide.always sameInterest (create channels, create channels) as := by
  have hstart : Agreeing (create channels) (create channels) := by
    refine agreeing_create fun c => ?_
    obtain ⟨fd, read, write, error, hc⟩ := hnew c
    rw [hc, Channel.new]
  have halong := sideBySide.along_and hone
    (sideBySide.along_and (sideBySide.along_of_forall_mem honeshot _)
      (sideBySide.along_of_forall_mem hexclusive _))
  refine sideBySide.always_mono (fun s h => h.interest.symm)
    (sideBySide.always_of_invariant (I := fun s => Agreeing s.1 s.2) ?_ hstart halong)
  exact fun s a t hs hP hstep => agreeing_step hs hP.1 hP.2.1 hP.2.2 hstep

/-- A channel for the descriptor 5. -/
def fifth : ChannelId → Channel := fun _ => Channel.new 5 true true true

/-- The channel asks for the same events after a report, and then for more. -/
theorem sameInterest_fifth :
    ∃ s, sideBySide.exec (create fifth, create fifth)
        [.setEvents 1 EPOLLIN, .add 1 false, .poll [(5, EPOLLIN)], .setEvents 1 EPOLLIN, .mod 1,
          .setEvents 1 (EPOLLIN ||| EPOLLOUT), .mod 1] = some s ∧ sameInterest s := by
  have hexec : sideBySide.exec (create fifth, create fifth)
      [.setEvents 1 EPOLLIN, .add 1 false, .poll [(5, EPOLLIN)], .setEvents 1 EPOLLIN, .mod 1,
        .setEvents 1 (EPOLLIN ||| EPOLLOUT), .mod 1] = some _ := rfl
  refine ⟨_, hexec, sideBySide.always_last (always_sameInterest
    (fun _ => ⟨5, true, true, true, rfl⟩) ?_ ?_ ?_) hexec⟩
  · decide
  · decide
  · decide

/-- Neither of the flags can be allowed. With `EPOLLONESHOT` a report disarms the
descriptor, and the call that would arm it again is left out. With
`EPOLLEXCLUSIVE` the plain call fails and clears the table entry, so that the
channel keeps its events when the kernel reports it and is added with them
later. -/
theorem not_sameInterest_flagged :
    (¬ ∀ channels as, (∀ c, ∃ fd read write error, channels c = .new fd read write error) →
      sideBySide.along oneChannel (create channels, create channels) as →
      (∀ a ∈ as, avoids EPOLLEXCLUSIVE a) →
      sideBySide.always sameInterest (create channels, create channels) as) ∧
    ¬ ∀ channels as, (∀ c, ∃ fd read write error, channels c = .new fd read write error) →
      sideBySide.along oneChannel (create channels, create channels) as →
      (∀ a ∈ as, avoids EPOLLONESHOT a) →
      sideBySide.always sameInterest (create channels, create channels) as := by
  have hnew : ∀ c, ∃ fd read write error, fifth c = .new fd read write error :=
    fun _ => ⟨5, true, true, true, rfl⟩
  refine ⟨fun h => ?_, fun h => ?_⟩
  · have hexec : sideBySide.exec (create fifth, create fifth)
        [.setEvents 1 (EPOLLIN ||| EPOLLONESHOT), .add 1 false, .poll [(5, EPOLLIN)],
          .setEvents 1 (EPOLLIN ||| EPOLLONESHOT), .mod 1] = some _ := rfl
    have hsame := sideBySide.always_last (h fifth _ hnew (by decide) (by decide)) hexec
    have hfive := congrFun hsame 5
    revert hfive
    decide
  · have hexec : sideBySide.exec (create fifth, create fifth)
        [.setEvents 1 (EPOLLIN ||| EPOLLEXCLUSIVE), .add 1 false, .mod 1, .poll [(5, EPOLLIN)],
          .del 1, .add 1 false] = some _ := rfl
    have hsame := sideBySide.always_last (h fifth _ hnew (by decide) (by decide)) hexec
    have hfive := congrFun hsame 5
    revert hfive
    decide

end Epoll

end Net

end SoL
