import RaftRupee.Lib.Checksum
import RaftRupee.Server.Scanning
import Mathlib.Data.Nat.Bitwise

namespace RaftRupee

/-! ### The checksum -/

theorem toNat_crc32Bit (crc : UInt32) : (crc32Bit crc).toNat =
    crc.toNat / 2 ^^^ (if crc.toNat % 2 = 1 then 0xedb88320 else 0) := by
  have hc : crc &&& 1 = 1 ↔ crc.toNat % 2 = 1 := by
    rw [← UInt32.toNat_inj, UInt32.toNat_and]
    exact Eq.congr (Nat.and_one_is_mod _) rfl
  rw [crc32Bit]
  by_cases h : crc.toNat % 2 = 1
  case pos =>
    rw [if_pos (hc.mpr h), if_pos h, UInt32.toNat_xor, UInt32.toNat_shiftRight, Nat.shiftRight_eq_div_pow]
    rfl
  case neg =>
    rw [if_neg (mt hc.mp h), if_neg h, Nat.xor_zero, UInt32.toNat_shiftRight, Nat.shiftRight_eq_div_pow]
    rfl

-- The highest bit is set in the polynomial, but in no half of a number.
theorem polynomial_ne {m n : ℕ} (hm : m < 2 ^ 31) (hn : n < 2 ^ 31) : m ^^^ 0xedb88320 ≠ n := by
  intro h
  have hlt := Nat.xor_lt_two_pow hm hn
  rw [← h, ← Nat.xor_assoc, Nat.xor_self, Nat.zero_xor] at hlt
  exact absurd hlt (by decide)

-- So the result tells whether the lowest bit was set.
theorem crc32Bit_injective : Function.Injective crc32Bit := by
  intro a b h
  have ha := a.toNat_lt
  have hb := b.toNat_lt
  have hx := congrArg UInt32.toNat h
  rw [toNat_crc32Bit, toNat_crc32Bit] at hx
  refine UInt32.toNat_inj.mp ?_
  split at hx <;> split at hx
  case isTrue.isTrue =>
    have := Nat.xor_left_injective hx
    omega
  case isTrue.isFalse =>
    rw [Nat.xor_zero] at hx
    exact (polynomial_ne (by omega) (by omega) hx).elim
  case isFalse.isTrue =>
    rw [Nat.xor_zero] at hx
    exact (polynomial_ne (by omega) (by omega) hx.symm).elim
  case isFalse.isFalse =>
    have := Nat.xor_left_injective hx
    omega

theorem crc32Byte_faithful : Checksum.Faithful crc32Byte where
  state _ _ _ h := (UInt32.xor_left_inj _).mp <| Checksum.repeat_injective crc32Bit_injective 8 h
  symbol _ _ _ h := by
    have hx := (UInt32.xor_right_inj _).mp <| Checksum.repeat_injective crc32Bit_injective 8 h
    exact UInt8.toNat_inj.mp <| congrArg UInt32.toNat hx

theorem crc32_set_ne {bytes : List UInt8} {byte : UInt8} {i : ℕ} (hi : i < bytes.length)
    (hb : bytes[i] ≠ byte) : crc32 (bytes.set i byte) ≠ crc32 bytes := fun h =>
  crc32Byte_faithful.foldl_set_ne 0xffffffff hi hb <| (UInt32.xor_left_inj _).mp h

namespace Wal

-- The positions of the index, the term and the command in a record.
def InField (entry : LogEntry) (position : ℕ) : Prop :=
  position < 16 ∨ 20 ≤ position ∧ position < 20 + entry.command.length

-- The change of a byte in one of these fields of one of the records.
structure Change (entries : List LogEntry) where
  record    : ℕ
  position  : ℕ
  byte      : UInt8
  record_lt : record < entries.length
  in_field  : InField entries[record] position
  differs   : (encodeEntry entries[record])[position]? ≠ some byte

variable {entries : List LogEntry} {data : Wal}

namespace Change

def entry (c : Change entries) : LogEntry :=
  entries.get ⟨c.record, c.record_lt⟩

def altered (c : Change entries) : List UInt8 :=
  (encodeEntry c.entry).set c.position c.byte

def apply (c : Change entries) : Wal :=
  (payload entries).set ((payload (entries.take c.record)).length + c.position) c.byte

-- The command as it is altered.
def command (c : Change entries) : List UInt8 :=
  if 20 ≤ c.position then c.entry.command.set (c.position - 20) c.byte else c.entry.command

-- The altered record from its command on.
def body (c : Change entries) : List UInt8 :=
  c.altered.drop 20

-- The length of the command as the record has it.
def len (c : Change entries) : ℕ :=
  c.entry.command.length % 256 ^ 4

-- The records before are whole, and the change is in the command. A command that is too long for its length
-- field is cut, and what follows is taken for its checksum.
def Caught (c : Change entries) : Prop :=
  (∀ e ∈ entries.take c.record, e.command.length < 256 ^ 4) ∧
  if c.entry.command.length < 256 ^ 4 then
    20 ≤ c.position
  else
    (crc32 (c.body.take c.len)).toNat ≠ Bytes.read c.body c.len 4

instance (c : Change entries) : Decidable c.Caught :=
  inferInstanceAs (Decidable (_ ∧ ite ..))

end Change

/-! ### Decoding an altered record -/

theorem decodeEntry_none_iff (h : 24 + Bytes.read data 16 4 ≤ data.length) : decodeEntry data = none ↔
    (crc32 ((data.drop 20).take (Bytes.read data 16 4))).toNat ≠
      Bytes.read data (20 + Bytes.read data 16 4) 4 := by
  rw [decodeEntry, if_neg (by omega)]
  simp only
  rw [if_neg (by omega)]
  split
  case isTrue hne  => exact iff_of_true rfl hne
  case isFalse he => exact iff_of_false (Option.some_ne_none _) he

theorem replayWal_eq_nil : replayWal data = [] ↔ decodeEntry data = none := by
  cases hd : decodeEntry data
  case none => exact iff_of_true (replayWal_none hd) rfl
  case some => exact iff_of_false (replayWal_some hd ▸ List.cons_ne_nil _ _) (Option.some_ne_none _)

namespace Change

variable (c : Change entries)

theorem position_lt : c.position < (encodeEntry c.entry).length := by
  rw [length_encodeEntry]
  rcases c.in_field with h | h
  case inl => omega
  case inr => exact Nat.lt_of_lt_of_le h.right (Nat.add_le_add_right (by decide) _)

theorem apply_eq : c.apply =
    payload (entries.take c.record) ++ (c.altered ++ payload (entries.drop (c.record + 1))) := by
  have hs : payload entries = payload (entries.take c.record) ++
      (encodeEntry c.entry ++ payload (entries.drop (c.record + 1))) := by
    have hd : entries.drop c.record = c.entry :: entries.drop (c.record + 1) :=
      List.drop_eq_getElem_cons c.record_lt
    rw [← payload_cons, ← hd, payload, payload, payload, ← List.flatMap_append, List.take_append_drop]
  rw [apply, hs, List.set_append_right _ _ (Nat.le_add_right ..), Nat.add_sub_cancel_left,
    List.set_append_left _ _ c.position_lt, altered]

-- The length field is never altered.
theorem altered_eq : ∃ front, front.length = 16 ∧ c.altered =
    front ++ (Bytes.ofNat 4 c.entry.command.length ++
      (c.command ++ Bytes.ofNat 4 (crc32 c.entry.command).toNat)) := by
  have hfront : (Bytes.ofNat 8 c.entry.index ++ Bytes.ofNat 8 c.entry.term).length = 16 := by
    rw [List.length_append, Bytes.length_ofNat, Bytes.length_ofNat]
  rw [altered, encodeEntry, ← List.append_assoc, command]
  split
  case isTrue h =>
    have hlt : c.position < 20 + c.entry.command.length :=
      c.in_field.elim (fun hs => by omega) And.right
    refine ⟨_, hfront, ?_⟩
    rw [List.set_append_right _ _ (by omega), hfront,
      List.set_append_right _ _ (by rw [Bytes.length_ofNat]; omega), Bytes.length_ofNat, Nat.sub_sub,
      List.set_append_left _ _ (by omega)]
  case isFalse h =>
    have hlt : c.position < 16 := c.in_field.resolve_right fun hs => h hs.left
    exact ⟨_, (List.length_set ..).trans hfront, List.set_append_left _ _ (hfront ▸ hlt)⟩

theorem body_eq : c.body = c.command ++ Bytes.ofNat 4 (crc32 c.entry.command).toNat := by
  obtain ⟨front, hf, ha⟩ := c.altered_eq
  rw [body, ha, List.drop_append, List.drop_eq_nil_of_le (by omega), List.nil_append, hf,
    List.drop_append, List.drop_eq_nil_of_le (by simp), List.nil_append, Bytes.length_ofNat,
    Nat.sub_self, List.drop_zero]

theorem length_command : c.command.length = c.entry.command.length := by
  rw [command]
  split
  case isTrue  => exact List.length_set ..
  case isFalse => rfl

theorem decodeEntry_altered (rest : Wal) : decodeEntry (c.altered ++ rest) = none ↔
    (crc32 (c.body.take c.len)).toNat ≠ Bytes.read c.body c.len 4 := by
  have hlen : c.len + 4 ≤ c.body.length := by
    rw [c.body_eq, List.length_append, length_command, Bytes.length_ofNat]
    exact Nat.add_le_add_right (Nat.mod_le ..) 4
  obtain ⟨front, hf, ha⟩ := c.altered_eq
  rw [← c.body_eq] at ha
  let head := front ++ Bytes.ofNat 4 c.entry.command.length
  have hhead : head.length = 20 := by rw [List.length_append, hf, Bytes.length_ofNat]
  have hs : c.altered ++ rest = head ++ (c.body ++ rest) := by
    rw [ha, List.append_assoc, List.append_assoc, List.append_assoc]
  have hread : Bytes.read (c.altered ++ rest) 16 4 = c.len := by
    rw [hs, Bytes.read_append_left (by rw [hhead]), Bytes.read_at hf, Bytes.read_ofNat_mod, len]
  have hcommand : ((c.altered ++ rest).drop 20).take c.len = c.body.take c.len := by
    rw [hs, List.drop_left' hhead, List.take_append_of_le_length (by omega)]
  have hcrc : Bytes.read (c.altered ++ rest) (20 + c.len) 4 = Bytes.read c.body c.len 4 := by
    rw [hs, Bytes.read_append_right (by omega), hhead, Nat.add_sub_cancel_left,
      Bytes.read_append_left hlen]
  have hlength : 24 + c.len ≤ (c.altered ++ rest).length := by
    rw [hs, List.length_append, hhead, List.length_append]
    omega
  rw [decodeEntry_none_iff (by rwa [hread]), hread, hcommand, hcrc]

-- The checksum tells the altered command from the original one.
theorem crc32_command (h : 20 ≤ c.position) : crc32 c.command ≠ crc32 c.entry.command := by
  have hlt : c.position < 20 + c.entry.command.length :=
    c.in_field.elim (fun hs => by omega) And.right
  rw [command, if_pos h]
  refine crc32_set_ne (by omega) fun hb => c.differs ?_
  have hcommand : (encodeEntry c.entry).drop 20 =
      c.entry.command ++ Bytes.ofNat 4 (crc32 c.entry.command).toNat := by
    simp [encodeEntry, List.drop_append, List.drop_eq_nil_of_le]
  have hget := congrArg (·[c.position - 20]?) hcommand
  rw [List.getElem?_drop, Nat.add_sub_cancel' h, List.getElem?_append_left (by omega),
    List.getElem?_eq_getElem (l := c.entry.command) (by omega), hb] at hget
  exact hget

theorem decodeEntry_whole (h : c.entry.command.length < 256 ^ 4) (rest : Wal) :
    decodeEntry (c.altered ++ rest) = none ↔ 20 ≤ c.position := by
  have hlen : c.command.length = c.len := by rw [length_command, len, Nat.mod_eq_of_lt h]
  have hcrc : (crc32 c.entry.command).toNat < 256 ^ 4 := (crc32 c.entry.command).toNat_lt
  rw [decodeEntry_altered, body_eq, List.take_left' hlen, Bytes.read_at hlen, Bytes.read_ofNat hcrc,
    ne_eq, UInt32.toNat_inj]
  constructor <;> intro hp
  case mp =>
    by_contra hn
    rw [command, if_neg hn] at hp
    exact hp rfl
  case mpr => exact c.crc32_command hp

theorem replayWal_apply (hu : ∀ e ∈ entries, e.index < 256 ^ 8 ∧ e.term < 256 ^ 8)
    (h : ∀ e ∈ entries.take c.record, e.command.length < 256 ^ 4) :
    replayWal c.apply = entries.take c.record ↔
      decodeEntry (c.altered ++ payload (entries.drop (c.record + 1))) = none := by
  have hfits : ∀ e ∈ entries.take c.record, Fits e := fun e he =>
    have hw := hu e (List.mem_of_mem_take he)
    ⟨hw.left, hw.right, h e he⟩
  rw [apply_eq, replayWal_payload hfits, List.append_right_eq_self, replayWal_eq_nil]

end Change

theorem detects_change_iff (c : Change entries)
    (hu : ∀ e ∈ entries, e.index < 256 ^ 8 ∧ e.term < 256 ^ 8) :
    replayWal c.apply = entries.take c.record ↔ c.Caught := by
  have hdecode : decodeEntry (c.altered ++ payload (entries.drop (c.record + 1))) = none ↔
      if c.entry.command.length < 256 ^ 4 then 20 ≤ c.position
      else (crc32 (c.body.take c.len)).toNat ≠ Bytes.read c.body c.len 4 := by
    split
    case isTrue h => exact c.decodeEntry_whole h _
    case isFalse  => exact c.decodeEntry_altered _
  constructor <;> intro h
  case mp =>
    -- Whatever is replayed has a command that fits its length field.
    have hw : ∀ e ∈ entries.take c.record, e.command.length < 256 ^ 4 := fun e he =>
      (replayWal_fits c.apply e (h ▸ he)).command
    exact ⟨hw, hdecode.mp <| (c.replayWal_apply hu hw).mp h⟩
  case mpr => exact (c.replayWal_apply hu h.left).mpr <| hdecode.mpr h.right

-- One entry, and a change of the low byte of its index.
def renumbering : Change [{ index := 1, term := 1, command := [7] }] where
  record    := 0
  position  := 0
  byte      := 2
  record_lt := Nat.zero_lt_one
  in_field  := .inl (by decide)
  differs   := by decide +kernel

-- A change of the command of the second of two entries.
def miswriting :
    Change [{ index := 1, term := 1, command := [7] }, { index := 2, term := 1, command := [8] }] where
  record    := 1
  position  := 20
  byte      := 9
  record_lt := Nat.one_lt_two
  in_field  := .inr (by decide)
  differs   := by decide +kernel

-- The change of the command is caught, the other one is not.
theorem detects_change_iff_command :
    replayWal miswriting.apply = [{ index := 1, term := 1, command := [7] }] ∧
    replayWal renumbering.apply ≠ [] :=
  ⟨(detects_change_iff miswriting (by decide)).mpr (by decide +kernel),
    (detects_change_iff renumbering (by decide)).not.mpr (by decide +kernel)⟩

theorem replayWal_renumbering :
    replayWal renumbering.apply = [{ index := 2, term := 1, command := [7] }] := by
  have : renumbering.apply = payload [{ index := 2, term := 1, command := [7] }] := by decide +kernel
  rw [this, replayWal_all (List.forall_mem_singleton.mpr ⟨by decide, by decide, by decide⟩)]

theorem not_detects_change : ¬∀ (entries : List LogEntry) (c : Change entries),
    (∀ e ∈ entries, e.index < 256 ^ 8 ∧ e.term < 256 ^ 8) →
    replayWal c.apply = entries.take c.record := by
  intro h
  have hr := h _ renumbering (by decide)
  rw [replayWal_renumbering] at hr
  exact List.cons_ne_nil _ _ hr

end Wal
end RaftRupee
