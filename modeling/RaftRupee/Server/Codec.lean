import Mathlib.Algebra.BigOperators.Group.List.Basic
import Mathlib.Algebra.GroupWithZero.Nat
import RaftRupee.Lib.Bytes
import RaftRupee.Core.Message

namespace RaftRupee

-- `bincode` is third-party code, of which the codec uses two functions.
structure Bincode where
  serialize   : Message → Option (List UInt8)
  deserialize : List UInt8 → Option Message

-- What we rely on: a message can be read back, and from no fewer bytes than it is written with.
structure Bincode.Lawful (codec : Bincode) : Prop where
  deserialize_serialize : ∀ {msg payload},
    codec.serialize msg = some payload → codec.deserialize payload = some msg
  length_le : ∀ {bytes msg payload},
    codec.deserialize bytes = some msg → codec.serialize msg = some payload →
    payload.length ≤ bytes.length

-- `u32::to_be_bytes` and `u32::from_be_bytes`.
def toBeBytes (n : ℕ) : List UInt8 :=
  (Bytes.ofNat 4 n).reverse

def fromBeBytes (bytes : List UInt8) : ℕ :=
  Bytes.toNat bytes.reverse

-- `read_exact` on a non-blocking stream consumes the bytes that are there, and then returns
-- `WouldBlock` when it needs more of them.
def readExact (n : ℕ) (stream : List UInt8) : Option (List UInt8) × List UInt8 :=
  if n ≤ stream.length then (some (stream.take n), stream.drop n) else (none, [])

inductive Reception
  | ok (msg : Message)
  | wouldBlock
  | invalidData
  deriving DecidableEq, Repr

namespace Bincode

variable (codec : Bincode)

-- The bytes that are written to the stream.
def sendFramedMsg (msg : Message) : Option (List UInt8) := do
  let payload ← codec.serialize msg
  some (toBeBytes payload.length ++ payload)

-- What is returned, and what is left of the stream.
def recvFramedMsg (stream : List UInt8) : Reception × List UInt8 :=
  match readExact 4 stream with
  | (none, stream)     => (.wouldBlock, stream)
  | (some len, stream) =>
    match readExact (fromBeBytes len) stream with
    | (none, stream)         => (.wouldBlock, stream)
    | (some payload, stream) =>
      match codec.deserialize payload with
      | none     => (.invalidData, stream)
      | some msg => (.ok msg, stream)

end Bincode

-- One stream of the polling loops of `main`: the bytes that have arrived and are not read yet, whether
-- `main` still polls it, and the messages that it has got from it.
@[ext]
structure Connection where
  stream    : List UInt8
  connected : Bool
  received  : List Message
  deriving DecidableEq, Repr

namespace Connection

def new : Connection where
  stream    := []
  connected := true
  received  := []

inductive Event
  | arrive (bytes : List UInt8)
  | poll
  deriving DecidableEq, Repr

def Event.bytes : Event → List UInt8
  | arrive bytes => bytes
  | poll         => []

section Defs

variable (codec : Bincode)

-- Every iteration of `main` polls a connection once, and gives it up on any other error.
def poll (conn : Connection) : Connection :=
  match codec.recvFramedMsg conn.stream with
  | (.ok msg, stream)      => { conn with stream, received := conn.received ++ [msg] }
  | (.wouldBlock, stream)  => { conn with stream }
  | (.invalidData, stream) => { conn with stream, connected := false }

def step (conn : Connection) : Event → Connection
  | .arrive bytes => { conn with stream := conn.stream ++ bytes }
  | .poll         => if conn.connected then conn.poll codec else conn

def run (conn : Connection) (events : List Event) : Connection :=
  events.foldl (step codec) conn

-- Nothing has arrived, or all of the first frame.
def Whole (stream : List UInt8) : Prop :=
  stream = [] ∨ 4 ≤ stream.length ∧ 4 + fromBeBytes (stream.take 4) ≤ stream.length

-- No poll falls between the arrival of the first and of the last byte of a frame.
def PollsWhole : Connection → List Event → Prop
  | _, []              => True
  | conn, event :: events =>
    (event = .poll → conn.connected → Whole conn.stream) ∧
      PollsWhole (conn.step codec event) events

end Defs
end Connection

/-! ### Frames -/

theorem length_toBeBytes (n : ℕ) : (toBeBytes n).length = 4 := by
  simp [toBeBytes]

theorem fromBeBytes_toBeBytes {n : ℕ} (h : n < 2 ^ 32) : fromBeBytes (toBeBytes n) = n := by
  rw [fromBeBytes, toBeBytes, List.reverse_reverse]
  exact Bytes.toNat_ofNat <| by simpa using h

theorem readExact_append (bytes rest : List UInt8) :
    readExact bytes.length (bytes ++ rest) = (some bytes, rest) := by
  simp [readExact]

theorem readExact_length {n : ℕ} {stream bytes rest : List UInt8}
    (h : readExact n stream = (some bytes, rest)) :
    bytes.length = n ∧ stream.length = n + rest.length := by
  rw [readExact] at h
  split at h
  case isFalse => simp at h
  case isTrue hn =>
    simp only [Prod.mk.injEq, Option.some.injEq] at h
    obtain ⟨rfl, rfl⟩ := h
    simp [hn]

theorem readExact_none {n : ℕ} {stream rest : List UInt8} (h : readExact n stream = (none, rest)) :
    stream.length < n ∧ rest = [] := by
  rw [readExact] at h
  split at h
  case isTrue     => simp at h
  case isFalse hn => exact ⟨Nat.lt_of_not_le hn, (Prod.mk.inj h).right.symm⟩

namespace Bincode

variable {codec : Bincode} {msg : Message} {frame stream rest : List UInt8}

-- `frame` is what `send_framed_msg` writes for a message whose length fits the prefix.
structure Frames (codec : Bincode) (msg : Message) (frame : List UInt8) : Prop where
  send   : codec.sendFramedMsg msg = some frame
  length : frame.length < 4 + 2 ^ 32

theorem Frames.payload (h : codec.Frames msg frame) :
    ∃ payload, codec.serialize msg = some payload ∧ payload.length < 2 ^ 32 ∧
      frame = toBeBytes payload.length ++ payload := by
  obtain ⟨payload, hp, hf⟩ := Option.bind_eq_some_iff.mp h.send
  cases hf
  have := h.length
  rw [List.length_append, length_toBeBytes] at this
  exact ⟨payload, hp, by omega, rfl⟩

-- The number of bytes on the wire.
def size (codec : Bincode) (msg : Message) : ℕ :=
  4 + ((codec.serialize msg).getD []).length

theorem Frames.size_eq (h : codec.Frames msg frame) : codec.size msg = frame.length := by
  obtain ⟨payload, hp, _, rfl⟩ := h.payload
  simp [size, hp, length_toBeBytes]

theorem recvFramedMsg_frame (hc : codec.Lawful) (h : codec.Frames msg frame) (rest : List UInt8) :
    codec.recvFramedMsg (frame ++ rest) = (.ok msg, rest) := by
  obtain ⟨payload, hp, hl, rfl⟩ := h.payload
  have hr := readExact_append (toBeBytes payload.length) (payload ++ rest)
  rw [length_toBeBytes] at hr
  rw [recvFramedMsg, List.append_assoc, hr]
  simp only [fromBeBytes_toBeBytes hl, readExact_append, hc.deserialize_serialize hp]

-- Either the stream runs out, and all of it is gone, or a payload is read and then looked at.
theorem recvFramedMsg_cases (codec : Bincode) (stream : List UInt8) :
    codec.recvFramedMsg stream = (.wouldBlock, []) ∨
    ∃ payload rest, Connection.Whole stream ∧ stream.length = 4 + payload.length + rest.length ∧
      codec.recvFramedMsg stream =
        ((codec.deserialize payload).elim .invalidData .ok, rest) := by
  cases h₁ : readExact 4 stream with | mk len rest₁ => ?_
  cases len
  case none =>
    left
    rw [recvFramedMsg, h₁, (readExact_none h₁).right]
  case some len =>
    obtain ⟨hl, hs⟩ := readExact_length h₁
    cases h₂ : readExact (fromBeBytes len) rest₁ with | mk payload rest₂ => ?_
    cases payload
    case none =>
      left
      rw [recvFramedMsg, h₁]
      simp only [h₂, (readExact_none h₂).right]
    case some payload =>
      obtain ⟨hp, hr⟩ := readExact_length h₂
      have hlen : stream.take 4 = len := by
        rw [readExact, if_pos (by omega)] at h₁
        exact Option.some.inj (Prod.mk.inj h₁).left
      refine .inr ⟨payload, rest₂, .inr ?_, by omega, ?_⟩
      · rw [hlen]
        omega
      · rw [recvFramedMsg, h₁]
        simp only [h₂]
        cases codec.deserialize payload <;> rfl

-- A message is read from at least as many bytes as it is sent with.
theorem Lawful.size_le (hc : codec.Lawful) {payload : List UInt8}
    (h : codec.deserialize payload = some msg) : codec.size msg ≤ 4 + payload.length := by
  rw [size]
  cases hs : codec.serialize msg
  case none      => simp
  case some sent => simpa using hc.length_le h hs

end Bincode

namespace Connection

open Bincode

variable {codec : Bincode} {conn : Connection} {event : Event} {events : List Event}
variable {msg : Message} {msgs : List Message} {frame : List UInt8} {frames : List (List UInt8)}

def arrivals (events : List Event) : List UInt8 :=
  (events.map Event.bytes).flatten

/-! ### Bytes that are lost -/

-- The bytes that a connection accounts for: those that are still to be read, and those of the messages.
def weight (codec : Bincode) (conn : Connection) : ℕ :=
  conn.stream.length + (conn.received.map codec.size).sum

theorem poll_weight_le (hc : codec.Lawful) : (conn.poll codec).weight codec ≤ conn.weight codec := by
  rcases codec.recvFramedMsg_cases conn.stream with h | ⟨payload, rest, _, hl, h⟩
  case inl => simp [poll, h, weight]
  case inr =>
    cases hd : codec.deserialize payload
    case none =>
      simp only [poll, h, hd, Option.elim, weight]
      omega
    case some msg =>
      have := hc.size_le hd
      simp only [poll, h, hd, Option.elim, weight, List.map_append, List.map_cons, List.map_nil,
        List.sum_append, List.sum_singleton]
      omega

theorem poll_weight_lt (codec : Bincode) (h : ¬Whole conn.stream) :
    (conn.poll codec).weight codec < conn.weight codec := by
  have hn : 0 < conn.stream.length := by
    refine List.length_pos_iff.mpr fun hn => ?_
    exact h (.inl hn)
  rcases codec.recvFramedMsg_cases conn.stream with hr | ⟨_, _, hw, _⟩
  case inl => simpa [poll, hr, weight] using hn
  case inr => exact absurd hw h

theorem step_weight_le (hc : codec.Lawful) (conn : Connection) (event : Event) :
    (conn.step codec event).weight codec ≤ conn.weight codec + event.bytes.length := by
  cases event
  case arrive bytes =>
    simp only [step, weight, Event.bytes, List.length_append]
    omega
  case poll =>
    rw [step]
    split
    case isTrue  => simpa [Event.bytes] using poll_weight_le hc
    case isFalse => simp [Event.bytes]

theorem run_weight_le (hc : codec.Lawful) (conn : Connection) (events : List Event) :
    (conn.run codec events).weight codec ≤ conn.weight codec + (arrivals events).length := by
  induction events generalizing conn
  case nil => simp [run, arrivals]
  case cons event events hi =>
    have hs := step_weight_le hc conn event
    have hr := hi (conn.step codec event)
    simp only [run, List.foldl_cons, arrivals, List.map_cons, List.flatten_cons,
      List.length_append] at hr ⊢
    omega

-- Bytes of a cut frame are missing for good.
theorem run_weight_lt (hc : codec.Lawful) (h : ¬conn.PollsWhole codec events) :
    (conn.run codec events).weight codec < conn.weight codec + (arrivals events).length := by
  induction events generalizing conn
  case nil => exact absurd trivial h
  case cons event events hi =>
    rw [PollsWhole, not_and_or] at h
    simp only [run, List.foldl_cons, arrivals, List.map_cons, List.flatten_cons,
      List.length_append]
    rcases h with h | h
    case inl =>
      push Not at h
      obtain ⟨rfl, hconn, hw⟩ := h
      have hl := poll_weight_lt codec hw
      have hr := run_weight_le hc (conn.poll codec) events
      simp only [run, arrivals] at hr
      simp only [step, hconn, if_true, Event.bytes, List.length_nil]
      omega
    case inr =>
      have hs := step_weight_le hc conn event
      have hr := hi h
      simp only [run, arrivals] at hr
      omega

/-! ### Frames that are read whole -/

theorem poll_nil (h : conn.stream = []) : conn.poll codec = conn := by
  have hr : codec.recvFramedMsg [] = (.wouldBlock, []) := rfl
  ext1 <;> simp [poll, h, hr]

theorem poll_frame (hc : codec.Lawful) (hf : codec.Frames msg frame) {rest : List UInt8}
    (h : conn.stream = frame ++ rest) :
    conn.poll codec = { conn with stream := rest, received := conn.received ++ [msg] } := by
  simp [poll, h, recvFramedMsg_frame hc hf]

-- What is at the front of a whole stream is the next frame.
theorem Whole.frame_first {later rest : List UInt8} (h : Whole conn.stream) (hf : codec.Frames msg frame)
    (hn : conn.stream ≠ []) (hs : conn.stream ++ later = frame ++ rest) : frame <+: conn.stream := by
  obtain ⟨hl, h⟩ := h.resolve_left hn
  obtain ⟨payload, _, hp, hf⟩ := hf.payload
  have hlen : conn.stream.take 4 = toBeBytes payload.length := by
    have := congrArg (List.take 4) hs
    rwa [List.take_append_of_le_length hl, hf, List.append_assoc,
      List.take_left' (length_toBeBytes _)] at this
  rw [hlen, fromBeBytes_toBeBytes hp] at h
  refine List.prefix_of_prefix_length_le ⟨rest, hs.symm⟩ ⟨later, rfl⟩ ?_
  simpa [hf, length_toBeBytes] using h

-- The invariant: the messages received so far are the first `k`, and the stream continues with the
-- frame of the next one.
theorem run_whole (conn : Connection) (hc : codec.Lawful) (hf : List.Forall₂ codec.Frames msgs frames)
    (hconn : conn.connected) (hs : conn.stream ++ arrivals events = frames.flatten)
    (h : conn.PollsWhole codec events) : ∃ k, conn.run codec events =
      { stream    := (frames.drop k).flatten
        connected := true
        received  := conn.received ++ msgs.take k } := by
  induction events generalizing conn msgs frames
  case nil =>
    refine ⟨0, ?_⟩
    ext1 <;> simp_all [run, arrivals]
  case cons event events hi =>
    obtain ⟨hw, h⟩ := h
    cases event
    case arrive bytes =>
      refine hi (conn.step codec (.arrive bytes)) hf hconn ?_ h
      simpa [step, arrivals, Event.bytes] using hs
    case poll =>
      have hs' : conn.stream ++ arrivals events = frames.flatten := by
        simpa [arrivals, Event.bytes] using hs
      have hstep : conn.step codec .poll = conn.poll codec := by simp [step, hconn]
      rw [hstep] at h
      rw [run, List.foldl_cons, hstep]
      by_cases hn : conn.stream = []
      case pos =>
        rw [poll_nil hn] at h ⊢
        exact hi conn hf hconn hs' h
      case neg =>
        cases hf
        case nil =>
          rw [List.flatten_nil, List.append_eq_nil_iff] at hs'
          exact absurd hs'.left hn
        case cons msg frame msgs frames hf hfs =>
          rw [List.flatten_cons] at hs'
          obtain ⟨rest, hr⟩ := Whole.frame_first (hw rfl hconn) hf hn hs'
          rw [poll_frame hc hf hr.symm] at h ⊢
          rw [← hr, List.append_assoc, List.append_cancel_left_eq] at hs'
          obtain ⟨k, hk⟩ := hi { conn with stream := rest, received := _ } hfs hconn hs' h
          refine ⟨k + 1, ?_⟩
          rw [run] at hk
          simp [hk]

-- When all bytes have arrived, polling as often as there are messages left is enough.
theorem run_polls (conn : Connection) (hc : codec.Lawful) (hf : List.Forall₂ codec.Frames msgs frames)
    (hconn : conn.connected) (hs : conn.stream = frames.flatten) {n : ℕ} (hn : msgs.length ≤ n) :
    (conn.run codec (.replicate n .poll)).received = conn.received ++ msgs := by
  induction n generalizing conn msgs frames
  case zero =>
    have : msgs = [] := List.eq_nil_of_length_eq_zero <| Nat.le_zero.mp hn
    simp [run, this]
  case succ n hi =>
    have hstep : conn.step codec .poll = conn.poll codec := by simp [step, hconn]
    rw [run, List.replicate_succ, List.foldl_cons, hstep]
    cases hf
    case nil =>
      rw [poll_nil hs]
      exact hi conn .nil hconn hs (Nat.zero_le n)
    case cons msg frame msgs frames hf hfs =>
      rw [poll_frame hc hf hs]
      have := hi { conn with stream := frames.flatten, received := conn.received ++ [msg] } hfs hconn
        rfl (Nat.le_of_succ_le_succ hn)
      simpa [run] using this

theorem sum_size (hf : List.Forall₂ codec.Frames msgs frames) :
    (msgs.map codec.size).sum = frames.flatten.length := by
  induction hf
  case nil => rfl
  case cons hf _ hi => simp [hf.size_eq, hi]

theorem PollsWhole.append {events' : List Event} (h : conn.PollsWhole codec (events ++ events')) :
    conn.PollsWhole codec events := by
  induction events generalizing conn
  case nil          => trivial
  case cons _ _ hi => exact ⟨h.left, hi h.right⟩

theorem arrivals_polls (n : ℕ) : arrivals (.replicate n .poll) = [] := by
  simp [arrivals, Event.bytes]

-- Once all bytes have arrived, `main` goes on polling.
theorem received_iff (codec : Bincode) (hc : codec.Lawful) (msgs : List Message)
    (frames : List (List UInt8)) (hf : List.Forall₂ codec.Frames msgs frames)
    (events : List Event) (ha : arrivals events = frames.flatten) (n : ℕ) (hn : msgs.length ≤ n) :
    (new.run codec (events ++ .replicate n .poll)).received = msgs ↔
      new.PollsWhole codec (events ++ .replicate n .poll) := by
  constructor <;> intro h
  case mp =>
    by_contra hw
    have hlt := run_weight_lt hc hw
    have hb : arrivals (events ++ .replicate n .poll) = frames.flatten := by
      rw [arrivals, List.map_append, List.flatten_append]
      exact (congrArg₂ _ ha (arrivals_polls n)).trans (List.append_nil _)
    rw [hb, weight, h, sum_size hf] at hlt
    simp only [weight, new, List.map_nil, List.sum_nil, List.length_nil] at hlt
    omega
  case mpr =>
    obtain ⟨k, hk⟩ := run_whole new hc hf rfl ha h.append
    have hd : List.Forall₂ codec.Frames (msgs.drop k) (frames.drop k) := List.forall₂_drop k hf
    rw [run, List.foldl_append]
    rw [run] at hk
    have hr := run_polls (new.run codec events) hc hd (by rw [run, hk]) (by rw [run, hk]) (n := n)
      (by rw [List.length_drop]; omega)
    rw [run, run, hk] at hr
    rw [hk, hr]
    simp [new]

end Connection

-- `bincode` on `InstallSnapshotResponse` messages: three `u64` and the number of the variant, all of a
-- fixed width. Bytes that are left over are ignored.
def replyCodec : Bincode where
  serialize msg :=
    if msg.kind = .installSnapshotResponse ∧ msg.sender < 256 ^ 8 ∧ msg.receiver < 256 ^ 8 ∧
        msg.term < 256 ^ 8 then
      some (Bytes.ofNat 8 msg.sender ++ (Bytes.ofNat 8 msg.receiver ++
        (Bytes.ofNat 8 msg.term ++ Bytes.ofNat 4 7)))
    else
      none
  deserialize bytes :=
    if 28 ≤ bytes.length ∧ Bytes.read bytes 24 4 = 7 then
      some {
        sender   := Bytes.read bytes 0 8
        receiver := Bytes.read bytes 8 8
        term     := Bytes.read bytes 16 8
        kind     := .installSnapshotResponse }
    else
      none

theorem replyCodec_lawful : replyCodec.Lawful where
  deserialize_serialize {msg payload} h := by
    simp only [replyCodec, Option.ite_none_right_eq_some, Option.some.injEq] at h ⊢
    obtain ⟨⟨hk, hs, hr, ht⟩, rfl⟩ := h
    have h7 : 7 < 256 ^ 4 := by decide
    refine ⟨⟨by simp, ?_⟩, ?_⟩
    · simp [Bytes.read_append_right, Bytes.read_ofNat h7]
    · ext1 <;> simp [Bytes.read_append_right, Bytes.read_append_left, Bytes.read_ofNat hs,
        Bytes.read_ofNat hr, Bytes.read_ofNat ht, hk]
  length_le {bytes msg payload} hd hs := by
    simp only [replyCodec, Option.ite_none_right_eq_some, Option.some.injEq] at hd hs
    obtain ⟨⟨hl, _⟩, _⟩ := hd
    obtain ⟨_, rfl⟩ := hs
    simpa using hl

namespace Connection

def reply : Message where
  sender   := 2
  receiver := 1
  term     := 3
  kind     := .installSnapshotResponse

def replyFrame : List UInt8 :=
  (replyCodec.sendFramedMsg reply).getD []

theorem frames_reply : List.Forall₂ replyCodec.Frames [reply, reply] [replyFrame, replyFrame] := by
  have : replyCodec.Frames reply replyFrame := ⟨by decide +kernel, by decide +kernel⟩
  exact .cons this <| .cons this .nil

-- A poll after the first ten bytes of a frame, and the next four are taken for a length.
theorem not_received : ¬∀ (codec : Bincode), codec.Lawful →
    ∀ msgs frames, List.Forall₂ codec.Frames msgs frames →
    ∀ events, arrivals events = frames.flatten → ∀ n, msgs.length ≤ n →
    (new.run codec (events ++ .replicate n .poll)).received = msgs := by
  intro h
  have := h replyCodec replyCodec_lawful _ _ frames_reply
    [.arrive (replyFrame.take 10), .poll, .arrive (replyFrame.drop 10 ++ replyFrame)]
    (by decide +kernel) 2 (by decide)
  exact absurd this (by decide +kernel)

-- Both frames arrive in pieces, but are only polled when they are there.
theorem received_iff_reply :
    (new.run replyCodec ([.arrive (replyFrame.take 10), .arrive (replyFrame.drop 10), .poll,
      .arrive replyFrame] ++ .replicate 2 .poll)).received = [reply, reply] ↔
    new.PollsWhole replyCodec ([.arrive (replyFrame.take 10), .arrive (replyFrame.drop 10), .poll,
      .arrive replyFrame] ++ .replicate 2 .poll) :=
  received_iff replyCodec replyCodec_lawful _ _ frames_reply _ (by decide +kernel) 2 (by decide)

end Connection
end RaftRupee
