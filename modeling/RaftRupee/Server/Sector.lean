import RaftRupee.Server.Wal

namespace RaftRupee

-- An `AlignedBuffer` of one sector with `front` copied to its front.
def sectorBuffer (memory : Memory) (front : List UInt8) : List UInt8 :=
  front ++ (List.range' front.length (sectorSize - front.length)).map memory

-- The content of `hard_state.dat`.
abbrev HardStateFile := List UInt8

-- The errors that are not those of a system call.
inductive IoError
  | invalidData (message : String)
  deriving DecidableEq, Repr

namespace HardStateFile

-- What is copied to the front of the buffer: the fields, and the checksum of their 16 bytes.
def record (term : ℕ) (votedFor : Option NodeId) : List UInt8 :=
  let fields := Bytes.ofNat 8 term ++ Bytes.ofNat 8 (votedFor.getD 0)
  fields ++ Bytes.ofNat 4 (crc32 fields).toNat

-- `pwrite` of a whole sector at offset zero.
def writeHardState (file : HardStateFile) (memory : Memory) (term : ℕ) (votedFor : Option NodeId) :
    HardStateFile :=
  sectorBuffer memory (record term votedFor) ++ file.drop sectorSize

-- `pread` of at most a sector, into a buffer that may hold anything behind it.
def readHardState (file : HardStateFile) (memory : Memory) :
    Except IoError (Option (ℕ × Option NodeId)) :=
  if file = [] then
    .ok none
  else
    let slice       := sectorBuffer memory (file.take sectorSize)
    let term        := Bytes.read slice 0 8
    let votedVal    := Bytes.read slice 8 8
    let expectedCrc := Bytes.read slice 16 4
    let actualCrc   := (crc32 (slice.take 16)).toNat
    if actualCrc ≠ expectedCrc ∧ expectedCrc ≠ 0 then
      .error <| .invalidData "Hard state CRC corruption detected!"
    else
      .ok <| some (term, if votedVal = 0 then none else some votedVal)

structure Write where
  term     : ℕ
  votedFor : Option NodeId
  memory   : Memory

-- The file after a sequence of writes.
def written (file : HardStateFile) (writes : List Write) : HardStateFile :=
  writes.foldl (fun file w => file.writeHardState w.memory w.term w.votedFor) file

variable {file data : HardStateFile} {memory memory' : Memory} {term : ℕ} {votedFor : Option NodeId}

theorem length_record (term : ℕ) (votedFor : Option NodeId) : (record term votedFor).length = 20 := by
  simp [record]

theorem length_sectorBuffer {front : List UInt8} (h : front.length ≤ sectorSize) :
    (sectorBuffer memory front).length = sectorSize := by
  rw [sectorBuffer, List.length_append, List.length_map, List.length_range']
  omega

-- A whole sector is read as it is.
theorem sectorBuffer_of_length (h : data.length = sectorSize) :
    sectorBuffer memory (data.take sectorSize) = data := by
  have htake : data.take sectorSize = data := List.take_of_length_le (Nat.le_of_eq h)
  rw [sectorBuffer, htake, h, Nat.sub_self]
  exact List.append_nil _

-- And so is one that has just been written.
theorem sectorBuffer_writeHardState (file : HardStateFile) (memory memory' : Memory) (term : ℕ)
    (votedFor : Option NodeId) :
    sectorBuffer memory' ((file.writeHardState memory term votedFor).take sectorSize) =
      sectorBuffer memory (record term votedFor) := by
  have hlen : (sectorBuffer memory (record term votedFor)).length = sectorSize :=
    length_sectorBuffer <| by rw [length_record]; decide
  have htake : (file.writeHardState memory term votedFor).take sectorSize =
      sectorBuffer memory (record term votedFor) := List.take_left' hlen
  have hread := @sectorBuffer_of_length _ memory' hlen
  rw [List.take_of_length_le (Nat.le_of_eq hlen)] at hread
  rw [htake, hread]

/-! ### What is written is read -/

-- But for the vote for the node whose number stands for no vote.
theorem readHardState_writeHardState (file : HardStateFile) (memory memory' : Memory)
    (ht : term < 256 ^ 8) (hv : ∀ id ∈ votedFor, id < 256 ^ 8) :
    (file.writeHardState memory term votedFor).readHardState memory' =
      .ok (some (term, votedFor.filter (· ≠ 0))) := by
  have hne : file.writeHardState memory term votedFor ≠ [] := by
    simp [writeHardState, sectorBuffer, record, Bytes.ofNat]
  have hval : votedFor.getD 0 < 256 ^ 8 := by
    cases votedFor
    case none    => decide
    case some id => exact hv id rfl
  rw [readHardState, if_neg hne, sectorBuffer_writeHardState]
  let fields := Bytes.ofNat 8 term ++ Bytes.ofNat 8 (votedFor.getD 0)
  have hcrc : (crc32 fields).toNat < 256 ^ 4 := (crc32 fields).toNat_lt
  obtain ⟨pad, hpad⟩ : ∃ pad, sectorBuffer memory (record term votedFor) =
      fields ++ (Bytes.ofNat 4 (crc32 fields).toNat ++ pad) :=
    ⟨_, by rw [sectorBuffer, record, List.append_assoc]⟩
  rw [hpad]
  have hfields : (fields ++ (Bytes.ofNat 4 (crc32 fields).toNat ++ pad)).take 16 = fields :=
    List.take_left' (by simp [fields])
  have hterm : Bytes.read (fields ++ (Bytes.ofNat 4 (crc32 fields).toNat ++ pad)) 0 8 = term := by
    simp [fields, Bytes.read_append_left, Bytes.read_ofNat ht]
  have hvoted : Bytes.read (fields ++ (Bytes.ofNat 4 (crc32 fields).toNat ++ pad)) 8 8 =
      votedFor.getD 0 := by
    simp [fields, Bytes.read_append_right, Bytes.read_append_left, Bytes.read_ofNat hval]
  have hstored : Bytes.read (fields ++ (Bytes.ofNat 4 (crc32 fields).toNat ++ pad)) 16 4 =
      (crc32 fields).toNat := by
    rw [Bytes.read_at (by simp [fields]), Bytes.read_append_left (by simp), Bytes.read_ofNat hcrc]
  simp only [hfields, hterm, hvoted, hstored, ne_eq, not_true, false_and, if_false]
  cases votedFor
  case none    => rfl
  case some id => by_cases hid : id = 0 <;> simp [hid, Option.filter]

theorem written_concat (file : HardStateFile) (writes : List Write) (w : Write) :
    file.written (writes ++ [w]) = (file.written writes).writeHardState w.memory w.term w.votedFor := by
  simp [written]

-- The numbers are `u64`.
structure Write.Fits (w : Write) : Prop where
  term     : w.term < 256 ^ 8
  votedFor : ∀ id ∈ w.votedFor, id < 256 ^ 8

-- A restarted node knows its term and its vote, unless it has voted for the node with the number zero.
theorem remembers_iff (file : HardStateFile) (writes : List Write) (w : Write) (memory : Memory)
    (h : w.Fits) :
    (file.written (writes ++ [w])).readHardState memory = .ok (some (w.term, w.votedFor)) ↔
      w.votedFor ≠ some 0 := by
  rw [written_concat, readHardState_writeHardState _ _ _ h.term h.votedFor]
  simp only [Except.ok.injEq, Option.some.injEq, Prod.mk.injEq, true_and]
  cases w.votedFor
  case none    => simp
  case some id => by_cases hid : id = 0 <;> simp [hid, Option.filter]

-- A second vote in the same term is kept instead of the first.
theorem remembers_iff_two :
    (written [] ([⟨1, none, fun _ => 0⟩] ++ [⟨1, some 2, fun _ => 0⟩])).readHardState (fun _ => 0) =
        .ok (some (1, some 2)) ↔ some 2 ≠ some 0 :=
  remembers_iff [] [⟨1, none, fun _ => 0⟩] ⟨1, some 2, fun _ => 0⟩ (fun _ => 0)
    ⟨by decide, by decide⟩

theorem not_remembers : ¬∀ (file : HardStateFile) (writes : List Write) (w : Write) (memory : Memory),
    w.Fits →
      (file.written (writes ++ [w])).readHardState memory = .ok (some (w.term, w.votedFor)) := by
  intro h
  have hread := h [] [] ⟨1, some 0, fun _ => 0⟩ (fun _ => 0) ⟨by decide, by decide⟩
  rw [written_concat, readHardState_writeHardState _ _ _ (by decide) (by decide)] at hread
  revert hread
  decide

/-! ### What is read was written -/

def corruption : IoError :=
  .invalidData "Hard state CRC corruption detected!"

-- A sector is read only if its first bytes are those of a record, and is reported otherwise.
structure Detects (data : HardStateFile) (memory : Memory) : Prop where
  accepts : ∀ term votedFor, data.readHardState memory = .ok (some (term, votedFor)) →
    Bytes.read data 16 4 = (crc32 (data.take 16)).toNat ∧ data.take 20 = record term votedFor
  rejects : Bytes.read data 16 4 ≠ (crc32 (data.take 16)).toNat →
    data.readHardState memory = .error corruption

theorem readHardState_of_length (h : data.length = sectorSize) (memory : Memory) :
    data.readHardState memory =
      if (crc32 (data.take 16)).toNat ≠ Bytes.read data 16 4 ∧ Bytes.read data 16 4 ≠ 0 then
        .error corruption
      else
        .ok <| some (Bytes.read data 0 8,
          if Bytes.read data 8 8 = 0 then none else some (Bytes.read data 8 8)) := by
  have hne : data ≠ [] := by
    rintro rfl
    contradiction
  rw [readHardState, if_neg hne, sectorBuffer_of_length h]
  rfl

-- A matching checksum makes a record of what is read.
theorem take_eq_record (h : data.length = sectorSize)
    (hcrc : Bytes.read data 16 4 = (crc32 (data.take 16)).toNat) :
    data.take 20 = record (Bytes.read data 0 8)
      (if Bytes.read data 8 8 = 0 then none else some (Bytes.read data 8 8)) := by
  have hlen : 20 ≤ data.length := h ▸ by decide
  have hval : (if Bytes.read data 8 8 = 0 then none else some (Bytes.read data 8 8)).getD 0 =
      Bytes.read data 8 8 := by
    split
    case isTrue hz => exact hz.symm
    case isFalse   => rfl
  have hfields : data.take 16 = (data.drop 0).take 8 ++ (data.drop 8).take 8 := by
    rw [List.drop_zero, ← List.take_add]
  have hrecord : data.take 20 = data.take 16 ++ (data.drop 16).take 4 := by
    rw [← List.take_add]
  rw [record, hval, Bytes.ofNat_read (by omega), Bytes.ofNat_read (by omega), ← hfields, ← hcrc,
    Bytes.ofNat_read (by omega), hrecord]

-- A checksum of zero is not compared.
theorem detects_iff (data : HardStateFile) (memory : Memory) (h : data.length = sectorSize) :
    Detects data memory ↔ (Bytes.read data 16 4 = 0 → (crc32 (data.take 16)).toNat = 0) := by
  have hread := readHardState_of_length h memory
  constructor
  case mp =>
    intro hd hz
    by_contra hne
    have hok : data.readHardState memory = _ := hread.trans (if_neg (by simp [hz]))
    have herr := hd.rejects fun he => hne (he.symm.trans hz)
    rw [hok] at herr
    contradiction
  case mpr =>
    intro hz
    have hreject : Bytes.read data 16 4 ≠ (crc32 (data.take 16)).toNat →
        data.readHardState memory = .error corruption := by
      intro hne
      refine hread.trans <| if_pos ⟨hne.symm, fun h0 => hne ?_⟩
      rw [h0, hz h0]
    refine ⟨fun term votedFor hok => ?_, hreject⟩
    by_cases hcrc : Bytes.read data 16 4 = (crc32 (data.take 16)).toNat
    case neg =>
      rw [hreject hcrc] at hok
      contradiction
    case pos =>
      rw [hread, if_neg (by simp [hcrc]), Except.ok.injEq, Option.some.injEq, Prod.mk.injEq] at hok
      exact ⟨hcrc, by rw [take_eq_record h hcrc, hok.left, hok.right]⟩

-- A blank sector.
def blank : HardStateFile :=
  .replicate sectorSize 0

theorem length_blank : blank.length = sectorSize :=
  List.length_replicate

-- A sector with the record of a vote in term 3.
def voted : HardStateFile :=
  record 3 (some 2) ++ .replicate (sectorSize - 20) 0

-- The corruption of the record is detected, that of the blank sector is not.
theorem detects_iff_voted : Detects voted (fun _ => 0) ∧ Detects (voted.set 0 4) (fun _ => 0) ∧
    ¬Detects blank fun _ => 0 :=
  ⟨(detects_iff voted (fun _ => 0) (by decide +kernel)).mpr (by decide +kernel),
    (detects_iff (voted.set 0 4) (fun _ => 0) (by decide +kernel)).mpr (by decide +kernel),
    (detects_iff blank (fun _ => 0) length_blank).not.mpr (by decide +kernel)⟩

-- It is taken for the record of term zero without a vote, whose checksum is another one.
theorem not_detects : ¬∀ (data : HardStateFile) (memory : Memory), data.length = sectorSize →
    Detects data memory := by
  intro h
  have hstored : Bytes.read blank 16 4 = 0 := by decide +kernel
  have hcrc : Bytes.read blank 16 4 ≠ (crc32 (blank.take 16)).toNat := by decide +kernel
  have herr := (h blank (fun _ => 0) length_blank).rejects hcrc
  rw [readHardState_of_length length_blank, if_neg (by simp [hstored])] at herr
  cases herr

end HardStateFile
end RaftRupee
