import RaftRupee.Server.Codec

namespace RaftRupee

-- `write_all` on a non-blocking stream that has room for `room` more bytes: what is written, and
-- whether this is all. Otherwise the call returns `WouldBlock`.
def writeAll (room : ℕ) (bytes : List UInt8) : List UInt8 × Bool :=
  (bytes.take room, bytes.length ≤ room)

inductive Sending
  | ok
  | wouldBlock
  | invalidData
  deriving DecidableEq, Repr

-- A call of `send_framed_msg`, with the room that the stream has during the two calls of `write_all`.
structure Attempt where
  msg         : Message
  prefixRoom  : ℕ
  payloadRoom : ℕ
  deriving DecidableEq, Repr

namespace Bincode

variable (codec : Bincode)

-- What is returned, and what is written to the stream.
def attempt (a : Attempt) : Sending × List UInt8 :=
  match codec.serialize a.msg with
  | none         => (.invalidData, [])
  | some payload =>
    match writeAll a.prefixRoom (toBeBytes payload.length) with
    | (len, false) => (.wouldBlock, len)
    | (len, true)  =>
      match writeAll a.payloadRoom payload with
      | (bytes, false) => (.wouldBlock, len ++ bytes)
      | (bytes, true)  => (.ok, len ++ bytes)

-- `process_actions` ignores what is returned and keeps the stream.
def wire (attempts : List Attempt) : List UInt8 :=
  (attempts.map fun a => (codec.attempt a).2).flatten

-- What is written fits the length that precedes it. Once a call has stopped inside of its frame, no
-- later call writes anything.
def Unbroken : List Attempt → Prop
  | [] => True
  | a :: as =>
    ((codec.attempt a).2 ≠ [] →
      (∃ frame, codec.Frames a.msg frame) ∧
        ((codec.attempt a).1 ≠ .ok → ∀ b ∈ as, (codec.attempt b).2 = [])) ∧
    Unbroken as

-- The bytes on the wire are always those of whole frames of messages that were sent, in order, and maybe
-- of a part of the next one. A peer that reads them gets only such messages.
def InStep (attempts : List Attempt) : Prop :=
  ∃ msgs frames, msgs.Sublist (attempts.map (·.msg)) ∧ List.Forall₂ codec.Frames msgs frames ∧
    ∀ k, codec.wire (attempts.take k) <+: frames.flatten ∧
      ∀ n, (Connection.new.run codec (.arrive (codec.wire (attempts.take k)) ::
        .replicate n .poll)).received <+: msgs

variable {codec : Bincode} {a : Attempt} {as : List Attempt} {frame : List UInt8}

/-! ### What the peer reads -/

-- The part of a frame that is there is lost, but nothing is read from it.
theorem recvFramedMsg_part {msg : Message} {part : List UInt8} (hf : codec.Frames msg frame)
    (hp : part <+: frame) (hn : part ≠ frame) : codec.recvFramedMsg part = (.wouldBlock, []) := by
  rcases codec.recvFramedMsg_cases part with h | ⟨_, _, hw, _⟩
  case inl => exact h
  case inr =>
    by_cases hne : part = []
    case pos =>
      rw [hne]
      rfl
    case neg =>
      obtain ⟨later, hl⟩ := id hp
      let conn : Connection := { Connection.new with stream := part }
      have hfirst : frame <+: conn.stream :=
        Connection.Whole.frame_first hw hf hne (hl.trans (List.append_nil frame).symm)
      exact absurd (hp.eq_of_length_le hfirst.length_le) hn

theorem received_prefix {msgs : List Message} {frames : List (List UInt8)} (hc : codec.Lawful)
    (conn : Connection) (hconn : conn.connected) (hf : List.Forall₂ codec.Frames msgs frames)
    (hs : conn.stream <+: frames.flatten) (n : ℕ) :
    ∃ j, (conn.run codec (.replicate n .poll)).received = conn.received ++ msgs.take j := by
  induction n generalizing conn msgs frames
  case zero => exact ⟨0, by simp [Connection.run]⟩
  case succ n hi =>
    have hstep : conn.step codec .poll = conn.poll codec := by simp [Connection.step, hconn]
    rw [Connection.run, List.replicate_succ, List.foldl_cons, hstep]
    by_cases hn : conn.stream = []
    case pos =>
      rw [Connection.poll_nil hn]
      exact hi conn hconn hf hs
    case neg =>
      cases hf
      case nil => exact absurd (List.prefix_nil.mp hs) hn
      case cons msg frame msgs frames hf hfs =>
        rw [List.flatten_cons] at hs
        by_cases hfirst : frame <+: conn.stream
        case pos =>
          obtain ⟨rest, hr⟩ := hfirst
          rw [Connection.poll_frame hc hf hr.symm]
          rw [← hr, List.prefix_append_right_inj] at hs
          obtain ⟨j, hj⟩ := hi { conn with stream := rest, received := conn.received ++ [msg] } hconn hfs hs
          refine ⟨j + 1, hj.trans ?_⟩
          simp
        case neg =>
          -- Only a part of the next frame is there.
          have hpart : conn.stream <+: frame := (List.prefix_or_prefix_of_prefix hs
            (List.prefix_append frame frames.flatten)).resolve_right hfirst
          have hlost : conn.poll codec = { conn with stream := [] } := by
            have hr := recvFramedMsg_part hf hpart fun he => hfirst (he ▸ List.prefix_rfl)
            simp [Connection.poll, hr]
          rw [hlost]
          have hnil : List.Forall₂ codec.Frames [] [] := .nil
          obtain ⟨j, hj⟩ := hi { conn with stream := [] } hconn hnil List.nil_prefix
          exact ⟨0, hj.trans (by simp)⟩

/-! ### What is put on the wire -/

theorem writeAll_prefix (room : ℕ) (bytes : List UInt8) :
    (writeAll room bytes).1 <+: bytes ∧ ((writeAll room bytes).2 → (writeAll room bytes).1 = bytes) :=
  ⟨List.take_prefix .., fun h => List.take_of_length_le <| of_decide_eq_true h⟩

-- A call writes the first bytes of its frame, and all of them if it returns `Ok`.
theorem attempt_prefix (codec : Bincode) (a : Attempt) :
    (codec.attempt a).2 <+: (codec.sendFramedMsg a.msg).getD [] ∧
      ((codec.attempt a).1 = .ok → (codec.attempt a).2 = (codec.sendFramedMsg a.msg).getD []) := by
  unfold attempt sendFramedMsg
  cases codec.serialize a.msg
  case none => simp
  case some payload =>
    obtain ⟨hl, hall⟩ := writeAll_prefix a.prefixRoom (toBeBytes payload.length)
    obtain ⟨hp, hpall⟩ := writeAll_prefix a.payloadRoom payload
    dsimp only [Option.bind_eq_bind, Option.bind_some, Option.getD_some]
    split
    case h_1 len h =>
      rw [h] at hl
      exact ⟨hl.trans <| List.prefix_append .., by simp⟩
    case h_2 len h =>
      rw [h] at hall
      have hlen : len = toBeBytes payload.length := hall rfl
      split
      case h_1 bytes h =>
        rw [h] at hp
        exact ⟨hlen ▸ (List.prefix_append_right_inj _).mpr hp, by simp⟩
      case h_2 bytes h =>
        rw [h] at hpall
        have hbytes : bytes = payload := hpall rfl
        rw [hlen, hbytes]
        exact ⟨List.prefix_rfl, fun _ => rfl⟩

theorem wire_cons (codec : Bincode) (a : Attempt) (as : List Attempt) :
    codec.wire (a :: as) = (codec.attempt a).2 ++ codec.wire as := by
  simp [wire]

theorem wire_of_silent (h : ∀ a ∈ as, (codec.attempt a).2 = []) : codec.wire as = [] := by
  induction as
  case nil => rfl
  case cons a as hi =>
    obtain ⟨ha, has⟩ := List.forall_mem_cons.mp h
    rw [wire_cons, ha, hi has, List.nil_append]

-- The frames of the calls that have written something.
theorem Unbroken.frames (h : codec.Unbroken as) : ∃ msgs frames, msgs.Sublist (as.map (·.msg)) ∧
    List.Forall₂ codec.Frames msgs frames ∧ ∀ k, codec.wire (as.take k) <+: frames.flatten := by
  induction as
  case nil => exact ⟨[], [], List.Sublist.refl _, .nil, by simp [wire]⟩
  case cons a as hi =>
    obtain ⟨ha, has⟩ := h
    obtain ⟨msgs, frames, hsub, hf, hw⟩ := hi has
    by_cases hn : (codec.attempt a).2 = []
    case pos =>
      refine ⟨msgs, frames, hsub.cons _, hf, fun k => ?_⟩
      rcases k with _ | k
      case zero => exact List.nil_prefix
      case succ => simpa [wire_cons, hn] using hw k
    case neg =>
      obtain ⟨⟨frame, hframe⟩, hstop⟩ := ha hn
      obtain ⟨hp, hall⟩ := codec.attempt_prefix a
      rw [hframe.send, Option.getD_some] at hp hall
      by_cases hok : (codec.attempt a).1 = .ok
      case pos =>
        refine ⟨a.msg :: msgs, frame :: frames, hsub.cons_cons _, .cons hframe hf, fun k => ?_⟩
        rcases k with _ | k
        case zero => exact List.nil_prefix
        case succ =>
          rw [List.take_succ_cons, wire_cons, hall hok, List.flatten_cons]
          exact (List.prefix_append_right_inj _).mpr (hw k)
      case neg =>
        refine ⟨[a.msg], [frame], by simp, .cons hframe .nil, fun k => ?_⟩
        rcases k with _ | k
        case zero => exact List.nil_prefix
        case succ =>
          have hsilent := wire_of_silent fun b hb => hstop hok b (List.mem_of_mem_take (i := k) hb)
          rw [List.take_succ_cons, wire_cons, hsilent, List.append_nil, List.flatten_singleton]
          exact hp

-- Sends that fail do no harm as long as nothing is written after a part of a frame.
theorem in_step (codec : Bincode) (hc : codec.Lawful) (attempts : List Attempt)
    (h : codec.Unbroken attempts) : codec.InStep attempts := by
  obtain ⟨msgs, frames, hsub, hf, hw⟩ := h.frames
  refine ⟨msgs, frames, hsub, hf, fun k => ⟨hw k, fun n => ?_⟩⟩
  let conn : Connection := { Connection.new with stream := codec.wire (attempts.take k) }
  obtain ⟨j, hj⟩ := received_prefix hc conn rfl hf (hw k) n
  rw [Connection.run, List.foldl_cons]
  exact hj ▸ List.take_prefix j msgs

end Bincode

namespace Attempt

-- A reply that stops after 16 of its 32 bytes, and the same reply again.
def replies : List Attempt :=
  [⟨{ Connection.reply with receiver := 7 }, 4, 12⟩, ⟨{ Connection.reply with receiver := 7 }, 4, 28⟩]

-- The peer takes the second one for the rest of the first, and gets a reply of term 2 that nobody sent.
theorem not_in_step : replyCodec.Lawful ∧ (∀ a ∈ replies, a.msg.term = 3) ∧
    (Connection.new.run replyCodec [.arrive (replyCodec.wire replies), .poll]).received.map (·.term) = [2] ∧
    ¬replyCodec.InStep replies := by
  have hreceived : (Connection.new.run replyCodec
      [.arrive (replyCodec.wire replies), .poll]).received.map (·.term) = [2] := by decide +kernel
  refine ⟨replyCodec_lawful, by decide, hreceived, ?_⟩
  rintro ⟨msgs, frames, hsub, _, h⟩
  have hprefix := ((h 2).right 1).map (·.term)
  change (Connection.new.run replyCodec
    [.arrive (replyCodec.wire replies), .poll]).received.map (·.term) <+: _ at hprefix
  rw [hreceived] at hprefix
  have hmem := (hsub.map (·.term)).subset <| hprefix.subset List.mem_cons_self
  exact absurd hmem (by decide)

-- A call that cannot write anything between two whole frames.
theorem in_step_skip : replyCodec.InStep [⟨Connection.reply, 4, 28⟩, ⟨Connection.reply, 0, 0⟩,
    ⟨Connection.reply, 4, 28⟩] := by
  have hframe : replyCodec.Frames Connection.reply Connection.replyFrame :=
    ⟨by decide +kernel, by decide +kernel⟩
  have hok : (replyCodec.attempt ⟨Connection.reply, 4, 28⟩).1 = .ok := by decide +kernel
  have hsilent : (replyCodec.attempt ⟨Connection.reply, 0, 0⟩).2 = [] := by decide +kernel
  refine Bincode.in_step replyCodec replyCodec_lawful _ ⟨fun _ => ⟨⟨_, hframe⟩, fun h => absurd hok h⟩, ?_⟩
  exact ⟨fun h => absurd hsilent h, fun _ => ⟨⟨_, hframe⟩, fun h => absurd hok h⟩, trivial⟩

end Attempt
end RaftRupee
