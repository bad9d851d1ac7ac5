import SoL.Net.Socket

/-!
# The echo server

`echoServerRead` is called once for every edge on a connection: it reads one
length byte and one body, whatever the socket holds, and writes both back. It
keeps nothing between two calls, so it echoes a stream of frames faithfully only
when every arrival completes exactly one frame, and the call for the peer's
close always writes a byte that was never received
(`Session.echoes_iff`).

The log lines are left out. A length above `MAX_SIZE` overruns `echoContent`,
and a negative one is refused by `new char[size]`; both end the program.
-/

namespace SoL

namespace EchoServer

open Net

def MAX_SIZE : ℕ := 20

inductive Fault
  | badArrayNewLength
  | bodyOverflow
  deriving DecidableEq

/-- `echoServerRead`: `size` stays 0 when the length byte cannot be read, and a
body that comes short is filled up with zeros. -/
def echoServerRead {σ : Type*} (K : Kernel σ) (s : σ) : Except Fault σ :=
  let length := readn K s 1
  let size := length.stored.headD 0
  -- `char` is signed: a byte of 128 and above is a negative length
  if 128 ≤ size.toNat then .error .badArrayNewLength
  else
    let body := readn K length.kernel size.toNat
    let buffer := body.stored ++ List.replicate (size.toNat - body.stored.length) 0
    if MAX_SIZE < size.toNat then .error .bodyOverflow
    else .ok (writen K body.kernel (size :: buffer)).kernel

/-- The body that a call echoes: what has arrived, up to the length, and zeros
for the rest. -/
def padded (n : ℕ) (bytes : List UInt8) : List UInt8 :=
  bytes.take n ++ List.replicate (n - (bytes.take n).length) 0

theorem echoServerRead_kernel {s : Socket} {size : UInt8} (hsize : s.received.headD 0 = size)
    (hle : size.toNat ≤ MAX_SIZE) :
    ∃ choices, echoServerRead Socket.kernel s =
      .ok { s with
        received := s.received.tail.drop size.toNat
        sent := s.sent ++ size :: padded size.toNat s.received.tail
        choices := choices } := by
  obtain ⟨c₁, hlength⟩ := Socket.readn_kernel s 1
  obtain ⟨c₂, hbody⟩ := Socket.readn_kernel
    { s with received := s.received.drop 1, choices := c₁ } size.toNat
  obtain ⟨c₃, hwrite⟩ := Socket.writen_kernel
    { s with received := (s.received.drop 1).drop size.toNat, choices := c₂ }
    (size :: padded size.toNat (s.received.drop 1))
  have hhead : (s.received.take 1).headD 0 = size := by
    rw [← hsize]
    cases s.received <;> rfl
  have hsmall : ¬ 128 ≤ size.toNat := by
    have : size.toNat ≤ 20 := hle
    omega
  refine ⟨c₃, ?_⟩
  simp only [echoServerRead, hlength, hhead, if_neg hsmall, hbody, if_neg hle.not_gt]
  rw [padded] at hwrite
  rw [hwrite]
  simp [padded]

/-- A well-formed message: its length byte is at most `MAX_SIZE`. -/
structure Frame where
  body : List UInt8
  short : body.length ≤ MAX_SIZE

namespace Frame

def size (f : Frame) : UInt8 := UInt8.ofNat f.body.length

def bytes (f : Frame) : List UInt8 := f.size :: f.body

theorem toNat_size (f : Frame) : f.size.toNat = f.body.length :=
  UInt8.toNat_ofNat_of_lt (lt_of_le_of_lt f.short (by decide))

theorem bytes_ne_nil (f : Frame) : f.bytes ≠ [] := List.cons_ne_nil _ _

end Frame

/-- The bytes of a sequence of frames. -/
def stream (frames : List Frame) : List UInt8 := frames.flatMap Frame.bytes

/-- The frames that are complete when `n` bytes of the stream have arrived. -/
def arrived : List Frame → ℕ → List Frame
  | [], _ => []
  | f :: frames, n =>
      if f.bytes.length ≤ n then f :: arrived frames (n - f.bytes.length) else []

theorem stream_cons (f : Frame) (frames : List Frame) :
    stream (f :: frames) = f.bytes ++ stream frames := rfl

theorem stream_eq_nil_iff {frames : List Frame} : stream frames = [] ↔ frames = [] := by
  cases frames with
  | nil => simp [stream]
  | cons f frames => simp [stream_cons, f.bytes_ne_nil]

theorem arrived_cons_add (f : Frame) (frames : List Frame) (n : ℕ) :
    arrived (f :: frames) (f.bytes.length + n) = f :: arrived frames n := by
  simp [arrived]

theorem arrived_cons_of_lt {f : Frame} {frames : List Frame} {n : ℕ}
    (h : n < f.bytes.length) : arrived (f :: frames) n = [] := if_neg h.not_ge

/-- What happens on the connection before a call of `echoServerRead`, with the
kernel's choices for the system calls of that call. -/
inductive Event
  | arrival (bytes : List UInt8) (choices : List Choice)
  | close (choices : List Choice)

namespace Event

def bytes : Event → List UInt8
  | arrival bytes _ => bytes
  | close _ => []

def deliver (s : Socket) : Event → Socket
  | arrival bytes choices => { s with received := s.received ++ bytes, choices := choices }
  | close choices => { s with closed := true, choices := choices }

end Event

/-- One call of `echoServerRead` for every event. -/
def serve : Socket → List Event → Except Fault Socket
  | s, [] => .ok s
  | s, e :: es =>
      match echoServerRead Socket.kernel (e.deliver s) with
      | .ok t => serve t es
      | .error f => .error f

/-- A client that sends frames in arbitrary pieces and then closes or not. -/
structure Session where
  frames : List Frame
  arrivals : List (List UInt8 × List Choice)
  closing : Option (List Choice)
  partition : (arrivals.map Prod.fst).flatten = stream frames

def events (arrivals : List (List UInt8 × List Choice)) (closing : Option (List Choice)) :
    List Event :=
  arrivals.map (fun a => .arrival a.1 a.2) ++ closing.toList.map .close

/-- Each arrival completes exactly one frame, when `n` bytes have arrived before. -/
def oneFrameEach (frames : List Frame) (n : ℕ)
    (arrivals : List (List UInt8 × List Choice)) : Prop :=
  ∀ k ≤ arrivals.length,
    (arrived frames (n + ((arrivals.take k).map Prod.fst).flatten.length)).length = k

namespace Session

def events (x : Session) : List Event := EchoServer.events x.arrivals x.closing

/-- After every call the bytes written are the complete frames that have arrived
so far. -/
def echoes (x : Session) : Prop :=
  ∀ k ≤ x.events.length, ∃ s, serve Socket.new (x.events.take k) = .ok s ∧
    s.sent = stream (arrived x.frames ((x.events.take k).flatMap Event.bytes).length)

end Session

/-- The same from a connection in use: the frames are those not echoed yet. -/
def faithful (s : Socket) (frames : List Frame) (es : List Event) : Prop :=
  ∀ k ≤ es.length, ∃ t, serve s (es.take k) = .ok t ∧
    t.sent = s.sent ++
      stream (arrived frames (s.received.length + ((es.take k).flatMap Event.bytes).length))

theorem length_received_deliver (s : Socket) (e : Event) :
    (e.deliver s).received.length = s.received.length + e.bytes.length := by
  cases e <;> simp [Event.deliver, Event.bytes]

theorem sent_deliver (s : Socket) (e : Event) : (e.deliver s).sent = s.sent := by
  cases e <;> rfl

/-- With a complete frame in the socket, a call echoes it and takes it out. -/
theorem call_complete {s : Socket} {f : Frame} {rest : List UInt8}
    (h : s.received = f.bytes ++ rest) :
    ∃ t, echoServerRead Socket.kernel s = .ok t ∧ t.sent = s.sent ++ f.bytes ∧
      t.received = rest := by
  have hhead : s.received.headD 0 = f.size := by rw [h]; rfl
  have htail : s.received.tail = f.body ++ rest := by rw [h]; rfl
  obtain ⟨choices, hcall⟩ := echoServerRead_kernel hhead (f.toNat_size ▸ f.short)
  refine ⟨_, hcall, ?_, ?_⟩
  · simp [htail, f.toNat_size, padded, Frame.bytes]
  · simp [htail, f.toNat_size]

/-- Without a complete frame in the socket, a call writes something. -/
theorem call_incomplete {s : Socket} {frames : List Frame} {rest : List UInt8}
    (h : s.received ++ rest = stream frames) :
    ∃ t w, echoServerRead Socket.kernel s = .ok t ∧ t.sent = s.sent ++ w ∧ w ≠ [] := by
  have hhead : (s.received.headD 0).toNat ≤ MAX_SIZE := by
    cases hr : s.received with
    | nil => simp
    | cons b bs =>
        cases frames with
        | nil => simp [hr, stream] at h
        | cons f frames =>
            obtain rfl : b = f.size := by
              rw [hr, stream_cons] at h
              exact (List.cons.inj h).1
            simpa [f.toNat_size] using f.short
  obtain ⟨choices, hcall⟩ := echoServerRead_kernel rfl hhead
  exact ⟨_, _, hcall, rfl, List.cons_ne_nil _ _⟩

theorem serve_cons {s t : Socket} {e : Event} (es : List Event)
    (h : echoServerRead Socket.kernel (e.deliver s) = .ok t) :
    serve s (e :: es) = serve t es := by
  simp [serve, h]

theorem not_faithful_cons {s t : Socket} {frames : List Frame} {e : Event} {es : List Event}
    (h : echoServerRead Socket.kernel (e.deliver s) = .ok t)
    (hsent : t.sent ≠
      s.sent ++ stream (arrived frames (s.received.length + e.bytes.length))) :
    ¬ faithful s frames (e :: es) := by
  intro hfaithful
  obtain ⟨u, hu, hsentu⟩ := hfaithful 1 (by simp)
  rw [List.take_succ_cons, List.take_zero, serve_cons [] h] at hu
  obtain rfl : t = u := by simpa [serve] using hu
  exact hsent (by simpa using hsentu)

/-- A call that echoes the next frame leaves the question to the later calls. -/
theorem faithful_cons_iff {s t : Socket} {f : Frame} {frames : List Frame} {e : Event}
    {es : List Event} (h : echoServerRead Socket.kernel (e.deliver s) = .ok t)
    (hnone : arrived (f :: frames) s.received.length = [])
    (hsent : t.sent = s.sent ++ f.bytes)
    (hlength : s.received.length + e.bytes.length = f.bytes.length + t.received.length) :
    faithful s (f :: frames) (e :: es) ↔ faithful t frames es := by
  have hbytes : ∀ k, s.sent ++ stream (arrived (f :: frames) (s.received.length +
        (((e :: es).take (k + 1)).flatMap Event.bytes).length)) =
      t.sent ++ stream (arrived frames (t.received.length +
        ((es.take k).flatMap Event.bytes).length)) := by
    intro k
    rw [List.take_succ_cons, List.flatMap_cons, List.length_append, ← add_assoc, hlength,
      add_assoc, arrived_cons_add, stream_cons, hsent, List.append_assoc]
  constructor
  · intro hs k hk
    obtain ⟨u, hu, hsentu⟩ := hs (k + 1) (Nat.succ_le_succ hk)
    rw [List.take_succ_cons, serve_cons _ h] at hu
    exact ⟨u, hu, hsentu.trans (hbytes k)⟩
  · intro ht k hk
    cases k with
    | zero => exact ⟨s, rfl, by simp [hnone, stream]⟩
    | succ k =>
        obtain ⟨u, hu, hsentu⟩ := ht k (Nat.le_of_succ_le_succ hk)
        refine ⟨u, ?_, hsentu.trans (hbytes k).symm⟩
        rw [List.take_succ_cons, serve_cons _ h]
        exact hu

theorem oneFrameEach_cons_iff {f : Frame} {frames : List Frame} {n m : ℕ}
    {a : List UInt8 × List Choice} {arrivals : List (List UInt8 × List Choice)}
    (hnone : arrived (f :: frames) n = []) (hlength : n + a.1.length = f.bytes.length + m) :
    oneFrameEach (f :: frames) n (a :: arrivals) ↔ oneFrameEach frames m arrivals := by
  have hcount : ∀ k, (arrived (f :: frames)
        (n + (((a :: arrivals).take (k + 1)).map Prod.fst).flatten.length)).length =
      (arrived frames (m + ((arrivals.take k).map Prod.fst).flatten.length)).length + 1 := by
    intro k
    rw [List.take_succ_cons, List.map_cons, List.flatten_cons, List.length_append, ← add_assoc,
      hlength, add_assoc, arrived_cons_add, List.length_cons]
  constructor
  · intro h k hk
    have := h (k + 1) (Nat.succ_le_succ hk)
    rw [hcount] at this
    exact Nat.succ.inj this
  · intro h k hk
    cases k with
    | zero => simp [hnone]
    | succ k => rw [hcount, h k (Nat.le_of_succ_le_succ hk)]

/-- The first arrival decides against a session unless it completes exactly one
frame. -/
theorem not_oneFrameEach_cons {frames : List Frame} {n : ℕ} {a : List UInt8 × List Choice}
    {arrivals : List (List UInt8 × List Choice)}
    (h : (arrived frames (n + a.1.length)).length ≠ 1) :
    ¬ oneFrameEach frames n (a :: arrivals) := fun hone =>
  h (by simpa using hone 1 (by simp))

/-- A frame that is complete stands at the front of the socket. -/
theorem exists_rest {received rest : List UInt8} {frames : List Frame}
    (hstream : received ++ rest = stream frames)
    (hsome : arrived frames received.length ≠ []) :
    ∃ f more tail, frames = f :: more ∧ received = f.bytes ++ tail ∧
      tail ++ rest = stream more := by
  cases frames with
  | nil => exact absurd rfl hsome
  | cons f more =>
      have hle : f.bytes.length ≤ received.length := by
        by_contra hlt
        exact hsome (arrived_cons_of_lt (not_le.1 hlt))
      have hfront : f.bytes <+: received ++ rest := by
        rw [hstream, stream_cons]
        exact List.prefix_append _ _
      obtain ⟨tail, htail⟩ :=
        List.prefix_of_prefix_length_le hfront (List.prefix_append received rest) hle
      refine ⟨f, more, tail, rfl, htail.symm, ?_⟩
      rw [← htail, List.append_assoc, stream_cons] at hstream
      exact List.append_cancel_left hstream

/-- A call that finds no complete frame decides against the session. -/
theorem not_faithful_of_incomplete {s : Socket} {frames : List Frame} {e : Event}
    {es : List Event} {rest : List UInt8}
    (hstream : (e.deliver s).received ++ rest = stream frames)
    (hnone : arrived frames (e.deliver s).received.length = []) :
    ¬ faithful s frames (e :: es) := by
  obtain ⟨t, w, hcall, hsent, hw⟩ := call_incomplete hstream
  apply not_faithful_cons hcall
  rw [← length_received_deliver, hnone, hsent, sent_deliver]
  simpa [stream] using hw

/-- A call that leaves a complete frame in the socket decides against the
session. -/
theorem not_faithful_of_left {s t : Socket} {f : Frame} {frames : List Frame} {e : Event}
    {es : List Event} (hcall : echoServerRead Socket.kernel (e.deliver s) = .ok t)
    (hsent : t.sent = s.sent ++ f.bytes)
    (hlength : s.received.length + e.bytes.length = f.bytes.length + t.received.length)
    (hleft : arrived frames t.received.length ≠ []) :
    ¬ faithful s (f :: frames) (e :: es) := by
  apply not_faithful_cons hcall
  rw [hlength, arrived_cons_add, stream_cons, hsent]
  simpa [stream_eq_nil_iff] using hleft

theorem faithful_iff (arrivals : List (List UInt8 × List Choice))
    (closing : Option (List Choice)) {s : Socket} {frames : List Frame}
    (hstream : s.received ++ (arrivals.map Prod.fst).flatten = stream frames)
    (hnone : arrived frames s.received.length = []) :
    faithful s frames (events arrivals closing) ↔
      closing = none ∧ oneFrameEach frames s.received.length arrivals := by
  induction arrivals generalizing s frames with
  | nil =>
      cases closing with
      | none =>
          refine iff_of_true ?_ ⟨rfl, ?_⟩
          · rintro k -
            exact ⟨s, by simp [events, serve], by simp [events, hnone, stream]⟩
          · intro k hk
            obtain rfl : k = 0 := by simpa using hk
            simp [hnone]
      | some choices =>
          refine iff_of_false ?_ (fun h => absurd h.1 (Option.some_ne_none _))
          have hrest : (Event.deliver s (.close choices)).received ++ [] = stream frames := by
            simpa [Event.deliver] using hstream
          exact not_faithful_of_incomplete hrest hnone
  | cons a arrivals ih =>
      have hrest : (Event.deliver s (.arrival a.1 a.2)).received ++
          (arrivals.map Prod.fst).flatten = stream frames := by
        simpa [Event.deliver] using hstream
      have hlen : (Event.deliver s (.arrival a.1 a.2)).received.length =
          s.received.length + a.1.length := length_received_deliver s (.arrival a.1 a.2)
      by_cases hsome : arrived frames (Event.deliver s (.arrival a.1 a.2)).received.length = []
      · refine iff_of_false (not_faithful_of_incomplete hrest hsome) fun h => ?_
        rw [hlen] at hsome
        exact not_oneFrameEach_cons (by simp [hsome]) h.2
      obtain ⟨f, more, tail, rfl, hreceived, htail⟩ := exists_rest hrest hsome
      obtain ⟨t, hcall, hsent, ht⟩ := call_complete hreceived
      rw [sent_deliver] at hsent
      have hlength : s.received.length + a.1.length = f.bytes.length + t.received.length := by
        rw [ht, ← hlen, hreceived, List.length_append]
      by_cases hleft : arrived more t.received.length = []
      · refine (faithful_cons_iff hcall hnone hsent hlength).trans ?_
        rw [oneFrameEach_cons_iff hnone hlength]
        exact ih (by rw [ht]; exact htail) hleft
      · refine iff_of_false (not_faithful_of_left hcall hsent hlength hleft) fun h => ?_
        refine not_oneFrameEach_cons ?_ h.2
        rw [hlength, arrived_cons_add]
        simpa using hleft

namespace Session

/-- A session is echoed faithfully, after every call, exactly when the peer does
not close and every arrival completes exactly one frame. -/
theorem echoes_iff (x : Session) :
    x.echoes ↔ x.closing = none ∧ ∀ k ≤ x.arrivals.length,
      (arrived x.frames ((x.arrivals.take k).map Prod.fst).flatten.length).length = k := by
  have hempty : arrived x.frames Socket.new.received.length = [] := by
    cases x.frames with
    | nil => rfl
    | cons f frames => exact arrived_cons_of_lt (List.length_pos_iff.2 f.bytes_ne_nil)
  have hiff := faithful_iff x.arrivals x.closing
    (s := Socket.new) (by simpa [Socket.new] using x.partition) hempty
  simpa [faithful, oneFrameEach, Socket.new, echoes, events] using hiff

/-- The frames `A` and `B` in one arrival. -/
def twoFrames : Session where
  frames := [⟨[65], by decide⟩, ⟨[66], by decide⟩]
  arrivals := [([1, 65, 1, 66], [])]
  closing := none
  partition := by decide

/-- The second of two frames that arrive together stays in the socket. -/
theorem not_echoes_twoFrames : ¬ twoFrames.echoes := by
  intro h
  obtain ⟨s, hs, hsent⟩ := h 1 (by decide)
  have hreceived : (Event.deliver Socket.new (.arrival [1, 65, 1, 66] [])).received =
      Frame.bytes ⟨[65], by decide⟩ ++ [1, 66] := rfl
  obtain ⟨t, hcall, ht, -⟩ := call_complete hreceived
  have hserve : serve Socket.new (twoFrames.events.take 1) = .ok t := serve_cons [] hcall
  obtain rfl : t = s := Except.ok.inj (hserve.symm.trans hs)
  rw [ht] at hsent
  revert hsent
  decide

end Session

end EchoServer

end SoL
