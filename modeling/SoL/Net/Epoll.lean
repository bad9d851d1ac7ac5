import SoL.Net.Channel
import SoL.Transition.Machine

/-!
# The poller and the kernel's interest set

`Epoll` is the poller with everything its operations touch: the channel objects,
the table `fd2chan_` and the interest set of the kernel, which is a map from
descriptors to masks. `EPOLL_CTL_ADD` fails on a descriptor that is present,
`EPOLL_CTL_MOD` and `EPOLL_CTL_DEL` on one that is absent. The timers that
`epoll_add` and `epoll_mod` mention are not implemented (`add_timer` is empty),
so their `timeout` is left out.

The table and the interest set agree as long as no descriptor is added twice: a
second `epoll_add` fails in the kernel and clears the table entry of a
descriptor that the kernel still watches (`always_agrees_iff`).
-/

namespace SoL

namespace Net

open Transition

inductive CtlOp
  | add
  | mod
  | del
  deriving DecidableEq

/-- `epoll_ctl` on the interest set; `none` is a negative result. -/
def epollCtl (op : CtlOp) (interest : Fd → Option UInt32) (fd : Fd) (events : UInt32) :
    Option (Fd → Option UInt32) :=
  match op with
  | .add =>
      if (interest fd).isSome then none
      else some (Function.update interest fd (some events))
  | .mod =>
      if (interest fd).isSome then some (Function.update interest fd (some events))
      else none
  | .del =>
      if (interest fd).isSome then some (Function.update interest fd none) else none

structure Epoll where
  channels : ChannelId → Channel
  fd2chan : Fd → Option ChannelId
  interest : Fd → Option UInt32

namespace Epoll

/-- `Epoll::Epoll`, among the channels of the program. -/
def create (channels : ChannelId → Channel) : Epoll where
  channels := channels
  fd2chan := fun _ => none
  interest := fun _ => none

def setEvents (p : Epoll) (c : ChannelId) (events : UInt32) : Epoll :=
  { p with channels := Function.update p.channels c ((p.channels c).setEvents events) }

def epollAdd (p : Epoll) (request : ChannelId) : Epoll :=
  let channel := p.channels request
  let updated := Function.update p.channels request channel.equalAndUpdateLastEvents.2
  match epollCtl .add p.interest channel.fd channel.events with
  | some interest =>
      { channels := updated
        fd2chan := Function.update p.fd2chan channel.fd (some request)
        interest := interest }
  | none =>
      { p with
        channels := updated
        fd2chan := Function.update p.fd2chan channel.fd none }

def epollMod (p : Epoll) (request : ChannelId) : Epoll :=
  let channel := p.channels request
  let updated := Function.update p.channels request channel.equalAndUpdateLastEvents.2
  if channel.equalAndUpdateLastEvents.1 then { p with channels := updated }
  else
    match epollCtl .mod p.interest channel.fd channel.events with
    | some interest => { p with channels := updated, interest := interest }
    | none =>
        { p with
          channels := updated
          fd2chan := Function.update p.fd2chan channel.fd none }

def epollDel (p : Epoll) (request : ChannelId) : Epoll :=
  let channel := p.channels request
  let fd2chan := Function.update p.fd2chan channel.fd none
  match epollCtl .del p.interest channel.fd channel.lastEvents with
  | some interest => { p with fd2chan := fd2chan, interest := interest }
  | none => { p with fd2chan := fd2chan }

/-- `addToPoller`, where the kernel may refuse for want of resources. -/
def addToPoller (p : Epoll) (request : ChannelId) (refused : Bool) : Epoll :=
  let channel := p.channels request
  if refused then
    { p with
      channels := Function.update p.channels request channel.equalAndUpdateLastEvents.2
      fd2chan := Function.update p.fd2chan channel.fd none }
  else p.epollAdd request

/-- The kernel stops watching a descriptor when it is closed. -/
def closed (p : Epoll) (fd : ℕ) : Epoll :=
  { p with interest := fun g => if g.val = fd then none else p.interest g }

/-- `getEventsRequest`: the channels of the reported descriptors, in order. A
descriptor without a channel is skipped. -/
def getEventsRequest (p : Epoll) : List (Fd × UInt32) → Epoll × List ChannelId
  | [] => (p, [])
  | (fd, events) :: rest =>
      match p.fd2chan fd with
      | none => getEventsRequest p rest
      | some c =>
          let channel := ((p.channels c).setRevents events).setEvents 0
          let next := getEventsRequest
            { p with channels := Function.update p.channels c channel } rest
          (next.1, c :: next.2)

/-- The kernel can report these events. -/
def reported (p : Epoll) (events : List (Fd × UInt32)) : Prop :=
  ∀ e ∈ events, (p.interest e.1).isSome = true

instance (p : Epoll) (events : List (Fd × UInt32)) : Decidable (p.reported events) :=
  List.decidableBAll (fun e : Fd × UInt32 => (p.interest e.1).isSome = true) events

/-- A descriptor has a channel exactly when the kernel watches it. -/
def agrees (p : Epoll) : Prop :=
  ∀ fd, (p.fd2chan fd).isSome = (p.interest fd).isSome

/-- Every event that the kernel can report finds its channel. -/
def findsAll (p : Epoll) : Prop :=
  ∀ events, p.reported events → (p.getEventsRequest events).2.length = events.length

theorem agrees_create (channels : ChannelId → Channel) : (create channels).agrees :=
  fun _ => rfl

theorem findsAll_of_agrees {p : Epoll} (h : p.agrees) : p.findsAll := by
  intro events
  induction events generalizing p with
  | nil => intro _; rfl
  | cons e rest ih =>
      obtain ⟨fd, mask⟩ := e
      intro hreported
      have hsome : (p.fd2chan fd).isSome = true := by
        rw [h fd]
        exact hreported (fd, mask) List.mem_cons_self
      obtain ⟨c, hc⟩ := Option.isSome_iff_exists.1 hsome
      simp only [getEventsRequest, hc, List.length_cons]
      exact congrArg (· + 1) (ih h fun e he => hreported e (List.mem_cons_of_mem _ he))

/-- Both tables change at the same descriptor, to entries of the same kind. -/
theorem agrees_update {p : Epoll} (h : p.agrees) {fd : Fd} {chan : Option ChannelId}
    {mask : Option UInt32} (hsame : chan.isSome = mask.isSome) (g : Fd) :
    (Function.update p.fd2chan fd chan g).isSome =
      (Function.update p.interest fd mask g).isSome := by
  by_cases hg : g = fd
  · subst g
    simpa using hsame
  · simpa [Function.update_of_ne hg] using h g

/-- The table loses an entry that the kernel does not have. -/
theorem agrees_clear {p : Epoll} (h : p.agrees) {fd : Fd} (hfd : p.interest fd = none)
    (g : Fd) : (Function.update p.fd2chan fd none g).isSome = (p.interest g).isSome := by
  by_cases hg : g = fd
  · subst g
    simp [hfd]
  · simpa [Function.update_of_ne hg] using h g

/-- `epoll_add` keeps the tables in agreement exactly when the descriptor is not
watched yet. -/
theorem agrees_epollAdd_iff {p : Epoll} (h : p.agrees) (c : ChannelId) :
    (p.epollAdd c).agrees ↔ (p.interest (p.channels c).fd).isSome = false := by
  cases hfd : p.interest (p.channels c).fd with
  | none =>
      simp only [epollAdd, epollCtl, hfd, Option.isSome_none, Bool.false_eq_true, if_false,
        iff_true]
      exact agrees_update h rfl
  | some mask =>
      simp only [epollAdd, epollCtl, hfd, Option.isSome_some, if_true, Bool.true_eq_false,
        iff_false]
      intro hagrees
      have := hagrees (p.channels c).fd
      simp [hfd] at this

theorem agrees_epollMod {p : Epoll} (h : p.agrees) (c : ChannelId) :
    (p.epollMod c).agrees := by
  simp only [epollMod]
  split
  · exact h
  · cases hfd : p.interest (p.channels c).fd with
    | none =>
        simp only [epollCtl, hfd, Option.isSome_none, Bool.false_eq_true, if_false]
        exact agrees_clear h hfd
    | some mask =>
        simp only [epollCtl, hfd, Option.isSome_some, if_true]
        intro g
        by_cases hg : g = (p.channels c).fd
        · subst g
          simpa [hfd] using h (p.channels c).fd
        · simpa [Function.update_of_ne hg] using h g

theorem agrees_epollDel {p : Epoll} (h : p.agrees) (c : ChannelId) :
    (p.epollDel c).agrees := by
  cases hfd : p.interest (p.channels c).fd with
  | none =>
      simp only [epollDel, epollCtl, hfd, Option.isSome_none, Bool.false_eq_true, if_false]
      exact agrees_clear h hfd
  | some mask =>
      simp only [epollDel, epollCtl, hfd, Option.isSome_some, if_true]
      exact agrees_update h rfl

/-- The calls that change the poller or the mask of a channel. -/
inductive Call
  | setEvents (c : ChannelId) (events : UInt32)
  | add (c : ChannelId)
  | mod (c : ChannelId)
  | del (c : ChannelId)
  deriving DecidableEq

def Call.channel : Call → ChannelId
  | .setEvents c _ | .add c | .mod c | .del c => c

def call (p : Epoll) : Call → Epoll
  | .setEvents c events => p.setEvents c events
  | .add c => p.epollAdd c
  | .mod c => p.epollMod c
  | .del c => p.epollDel c

def callMachine : Machine Epoll Call where
  initial := fun p => ∃ channels, p = create channels
  step := fun p a => some (p.call a)

/-- The call adds a descriptor that the kernel already watches. -/
def addsWatched (p : Epoll) (a : Call) : Prop :=
  ∃ c, a = .add c ∧ (p.interest (p.channels c).fd).isSome = true

theorem agrees_call_iff {p : Epoll} (h : p.agrees) (a : Call) :
    (p.call a).agrees ↔ ¬ p.addsWatched a := by
  cases a with
  | setEvents c events =>
      have hnext : (p.call (.setEvents c events)).agrees := h
      simp [hnext, addsWatched]
  | add c => simp [call, agrees_epollAdd_iff h, addsWatched]
  | mod c => simp [call, agrees_epollMod h, addsWatched]
  | del c => simp [call, agrees_epollDel h, addsWatched]

/-- For every sequence of calls on a new poller, the table and the interest set
agree after every call, and every reportable event finds its channel, exactly
when no call adds a descriptor that the kernel already watches. -/
theorem always_agrees_iff (channels : ChannelId → Channel) (as : List Call) :
    callMachine.always (fun p => p.agrees ∧ p.findsAll) (create channels) as ↔
      callMachine.along (fun p a => ¬ p.addsWatched a) (create channels) as := by
  refine callMachine.always_iff_along (I := fun _ => True) (fun _ _ _ _ _ => trivial) ?_ as
    trivial ⟨agrees_create channels, findsAll_of_agrees (agrees_create channels)⟩
  rintro p a q - ⟨hp, -⟩ hstep
  obtain rfl : p.call a = q := Option.some.inj hstep
  rw [← agrees_call_iff hp a]
  exact ⟨And.left, fun h => ⟨h, findsAll_of_agrees h⟩⟩

/-- Among the channels that the calls are about, each descriptor has one owner. -/
def ownsFds (channels : ChannelId → Channel) (as : List Call) : Prop :=
  ∀ a ∈ as, ∀ b ∈ as, (channels a.channel).fd = (channels b.channel).fd →
    a.channel = b.channel

/-- A channel that is added twice is watched by the kernel and has lost its
table entry. -/
theorem not_agrees_add_twice :
    ¬ ∀ channels as p, ownsFds channels as →
      callMachine.exec (create channels) as = some p → p.agrees := by
  intro h
  have hagrees := h (fun _ => Channel.new 5 true false false)
    [.setEvents 1 (EPOLLIN ||| EPOLLET), .add 1, .add 1] _ (by simp [ownsFds, Call.channel])
    rfl 5
  revert hagrees
  decide

end Epoll

end Net

end SoL
