import RaftRupee.Lib.Bytes
import RaftRupee.Core.Message

namespace RaftRupee

-- `crc32fast::hash` is CRC-32, with the reflected polynomial `0xedb88320`.
def crc32Bit (crc : UInt32) : UInt32 :=
  if crc &&& 1 = 1 then (crc >>> 1) ^^^ 0xedb88320 else crc >>> 1

def crc32Byte (crc : UInt32) (byte : UInt8) : UInt32 :=
  Nat.repeat crc32Bit 8 (crc ^^^ byte.toUInt32)

def crc32 (bytes : List UInt8) : UInt32 :=
  bytes.foldl crc32Byte 0xffffffff ^^^ 0xffffffff

-- The check value of the standard: the checksum of the digits `1` to `9`.
example : crc32 [49, 50, 51, 52, 53, 54, 55, 56, 57] = 0xcbf43926 := by decide +kernel

def sectorSize : ℕ := 4096

-- `(size + SECTOR_SIZE - 1) & !(SECTOR_SIZE - 1)`.
def roundedSize (size : ℕ) : ℕ :=
  (size + sectorSize - 1) / sectorSize * sectorSize

-- What the allocator hands out is not initialized, and may hold anything.
abbrev Memory := ℕ → UInt8

-- An `AlignedBuffer` with the payload copied to its front.
def alignedBuffer (memory : Memory) (payload : List UInt8) : List UInt8 :=
  payload ++ (List.range' payload.length (roundedSize payload.length - payload.length)).map memory

-- The content of `wal.log`.
abbrev Wal := List UInt8

namespace Wal

def encodeEntry (entry : LogEntry) : List UInt8 :=
  Bytes.ofNat 8 entry.index ++ (Bytes.ofNat 8 entry.term ++
    (Bytes.ofNat 4 entry.command.length ++ (entry.command ++
      Bytes.ofNat 4 (crc32 entry.command).toNat)))

def payload (entries : List LogEntry) : List UInt8 :=
  entries.flatMap encodeEntry

-- The buffer is written at the end of the file.
def appendLogEntries (wal : Wal) (entries : List LogEntry) (memory : Memory) : Wal :=
  if entries = [] then wal else wal ++ alignedBuffer memory (payload entries)

-- One round of the loop of `replay_wal`, on the data from `offset` on: the entry that is pushed and the
-- data from the next offset on, or none where the loop is left.
def decodeEntry (data : List UInt8) : Option (LogEntry × List UInt8) :=
  if data.length < 24 then
    none
  else
    let index := Bytes.read data 0 8
    let term  := Bytes.read data 8 8
    let len   := Bytes.read data 16 4
    if data.length < 24 + len then
      none
    else
      let command := (data.drop 20).take len
      if (crc32 command).toNat ≠ Bytes.read data (20 + len) 4 then
        none
      else
        some ({ index, term, command }, data.drop (24 + len))

-- What is read lies within the data, and the fields have the widths of the record.
theorem decodeEntry_some {data rest : List UInt8} {entry : LogEntry}
    (h : decodeEntry data = some (entry, rest)) :
    entry.index = Bytes.read data 0 8 ∧ entry.term = Bytes.read data 8 8 ∧
      entry.command.length = Bytes.read data 16 4 ∧
      data.length = 24 + entry.command.length + rest.length := by
  rw [decodeEntry] at h
  split at h
  case isTrue => contradiction
  case isFalse =>
    simp only [ne_eq] at h
    split at h
    case isTrue => contradiction
    case isFalse hl =>
      split at h
      case isTrue => contradiction
      case isFalse =>
        cases h
        have : (List.take (Bytes.read data 16 4) (data.drop 20)).length = Bytes.read data 16 4 := by
          rw [List.length_take, List.length_drop]
          omega
        refine ⟨rfl, rfl, this, ?_⟩
        rw [this, List.length_drop]
        omega

theorem decodeEntry_length {data rest : List UInt8} {entry : LogEntry}
    (h : decodeEntry data = some (entry, rest)) : rest.length < data.length := by
  have := (decodeEntry_some h).right.right.right
  omega

def replayWal (data : Wal) : List LogEntry :=
  match _h : decodeEntry data with
  | none               => []
  | some (entry, rest) => entry :: replayWal rest
termination_by data.length
decreasing_by exact decodeEntry_length ‹_›

-- The steps of `truncate_and_append`. In memory it keeps the entries that it has read.
inductive TruncateStep
  | replay
  | ftruncate
  | appendPreserved
  | appendEntries
  deriving DecidableEq, Repr

structure Truncation where
  file      : Wal
  preserved : List LogEntry

-- `preserved` is cut at the first entry with an index from `from_index` on.
def truncateStep (fromIndex : ℕ) (entries : List LogEntry) (memory memory' : Memory)
    (t : Truncation) : TruncateStep → Truncation
  | .replay          => { t with preserved := (replayWal t.file).takeWhile (·.index < fromIndex) }
  | .ftruncate       => { t with file := [] }
  | .appendPreserved => { t with file := appendLogEntries t.file t.preserved memory }
  | .appendEntries   => { t with file := appendLogEntries t.file entries memory' }

def truncateSteps : List TruncateStep :=
  [.replay, .ftruncate, .appendPreserved, .appendEntries]

-- The file when only the first `k` steps are made.
def truncateCut (wal : Wal) (fromIndex : ℕ) (entries : List LogEntry) (memory memory' : Memory)
    (k : ℕ) : Wal :=
  ((truncateSteps.take k).foldl (truncateStep fromIndex entries memory memory')
    { file := wal, preserved := [] }).file

def truncateAndAppend (wal : Wal) (fromIndex : ℕ) (entries : List LogEntry)
    (memory memory' : Memory) : Wal :=
  truncateCut wal fromIndex entries memory memory' truncateSteps.length

/-! ### Records -/

-- The numbers are `u64`, and the length of the command has to fit four bytes.
structure Fits (entry : LogEntry) : Prop where
  index   : entry.index < 256 ^ 8
  term    : entry.term < 256 ^ 8
  command : entry.command.length < 256 ^ 4

variable {entry e : LogEntry} {entries es batch : List LogEntry} {data rest : List UInt8} {wal : Wal}

theorem length_encodeEntry (entry : LogEntry) :
    (encodeEntry entry).length = 24 + entry.command.length := by
  simp only [encodeEntry, List.length_append, Bytes.length_ofNat]
  omega

theorem decodeEntry_encodeEntry (h : Fits entry) (rest : List UInt8) :
    decodeEntry (encodeEntry entry ++ rest) = some (entry, rest) := by
  have hcrc : (crc32 entry.command).toNat < 256 ^ 4 := (crc32 entry.command).toNat_lt
  have hindex : Bytes.read (encodeEntry entry ++ rest) 0 8 = entry.index := by
    simp [encodeEntry, Bytes.read_append_left, Bytes.read_ofNat h.index]
  have hterm : Bytes.read (encodeEntry entry ++ rest) 8 8 = entry.term := by
    simp [encodeEntry, Bytes.read_append_right, Bytes.read_append_left, Bytes.read_ofNat h.term]
  have hlen : Bytes.read (encodeEntry entry ++ rest) 16 4 = entry.command.length := by
    simp [encodeEntry, Bytes.read_append_right, Bytes.read_append_left, Bytes.read_ofNat h.command]
  have hcommand : ((encodeEntry entry ++ rest).drop 20).take entry.command.length = entry.command := by
    simp [encodeEntry, List.drop_append, List.drop_eq_nil_of_le]
  have hread : Bytes.read (encodeEntry entry ++ rest) (20 + entry.command.length) 4 =
      (crc32 entry.command).toNat := by
    have hs : encodeEntry entry ++ rest =
        (Bytes.ofNat 8 entry.index ++ Bytes.ofNat 8 entry.term ++
          Bytes.ofNat 4 entry.command.length ++ entry.command) ++
        (Bytes.ofNat 4 (crc32 entry.command).toNat ++ rest) := by
      simp [encodeEntry]
    rw [hs, Bytes.read_at (by simp; omega), Bytes.read_append_left (by simp), Bytes.read_ofNat hcrc]
  have hl : (encodeEntry entry ++ rest).length = 24 + entry.command.length + rest.length := by
    rw [List.length_append, length_encodeEntry]
  rw [decodeEntry, if_neg (by omega)]
  simp only [hindex, hterm, hlen, hcommand, hread, ne_eq, not_true, if_false]
  rw [if_neg (by omega), ← length_encodeEntry, List.drop_left]

theorem replayWal_none (h : decodeEntry data = none) : replayWal data = [] := by
  rw [replayWal]
  split
  case h_1      => rfl
  case h_2 hd => simp [h] at hd

theorem replayWal_some (h : decodeEntry data = some (entry, rest)) :
    replayWal data = entry :: replayWal rest := by
  rw [replayWal]
  split
  case h_1 hd => simp [h] at hd
  case h_2 hd =>
    cases h.symm.trans hd
    rfl

theorem payload_cons (entry : LogEntry) (entries : List LogEntry) :
    payload (entry :: entries) = encodeEntry entry ++ payload entries :=
  rfl

theorem replayWal_encodeEntry (h : Fits entry) (rest : List UInt8) :
    replayWal (encodeEntry entry ++ rest) = entry :: replayWal rest :=
  replayWal_some <| decodeEntry_encodeEntry h rest

theorem replayWal_payload (h : ∀ e ∈ entries, Fits e) (rest : List UInt8) :
    replayWal (payload entries ++ rest) = entries ++ replayWal rest := by
  induction entries
  case nil => rfl
  case cons e es hi =>
    rw [List.forall_mem_cons] at h
    rw [payload_cons, List.append_assoc, replayWal_encodeEntry h.left, hi h.right, List.cons_append]

theorem replayWal_short (h : data.length < 24) : replayWal data = [] :=
  replayWal_none <| if_pos h

-- Whatever the data, the fields of a record are of a fixed width.
theorem replayWal_fits (data : Wal) : ∀ e ∈ replayWal data, Fits e := by
  induction data using replayWal.induct
  case case1 data hd => simp [replayWal_none hd]
  case case2 data entry rest hd hi =>
    obtain ⟨hi', ht, hc, _⟩ := decodeEntry_some hd
    rw [replayWal_some hd, List.forall_mem_cons]
    exact ⟨⟨hi' ▸ Bytes.read_lt .., ht ▸ Bytes.read_lt .., hc ▸ Bytes.read_lt ..⟩, hi⟩

-- Zeros are the record of an entry without a command, as the checksum of no bytes is zero.
theorem replayWal_zeros {n : ℕ} (h : 24 ≤ n) : replayWal (.replicate n 0) ≠ [] := by
  have hr : List.replicate n (0 : UInt8) =
      encodeEntry { index := 0, term := 0, command := [] } ++ List.replicate (n - 24) 0 := by
    have : encodeEntry { index := 0, term := 0, command := [] } = List.replicate 24 0 := by
      decide +kernel
    rw [this, List.replicate_append_replicate]
    congr
    omega
  rw [hr, replayWal_encodeEntry ⟨by decide, by decide, by decide⟩]
  exact List.cons_ne_nil _ _

-- The first byte of what is replayed is the low byte of an index.
theorem replayWal_head {b : UInt8} (h : (replayWal (b :: data)).head? = some entry) :
    entry.index % 256 = b.toNat := by
  cases hd : decodeEntry (b :: data)
  case none => simp [replayWal_none hd] at h
  case some r =>
    rw [replayWal_some hd] at h
    cases h
    rw [(decodeEntry_some hd).left]
    exact Bytes.toNat_mod _

/-! ### Batches and the unused bytes behind them -/

def padding (entries : List LogEntry) : ℕ :=
  roundedSize (payload entries).length - (payload entries).length

-- The files that consist of these batches, each followed by the unused bytes of its buffer.
inductive Layout : List (List LogEntry) → Wal → Prop
  | nil : Layout [] []
  | cons {batch batches pad wal} :
    pad.length = padding batch → Layout batches wal →
    Layout (batch :: batches) (payload batch ++ (pad ++ wal))

variable {batches : List (List LogEntry)} {memory : Memory} {b : UInt8}

theorem Layout.exists (batches : List (List LogEntry)) : ∃ wal, Layout batches wal := by
  induction batches
  case nil => exact ⟨[], .nil⟩
  case cons batch _ hi =>
    obtain ⟨_, hi⟩ := hi
    exact ⟨_, .cons (List.length_replicate (a := (0 : UInt8))) hi⟩

theorem layout_concat : Layout (batches ++ [batch]) wal ↔ ∃ wal' pad, Layout batches wal' ∧
    pad.length = padding batch ∧ wal = wal' ++ (payload batch ++ pad) := by
  induction batches generalizing wal
  case nil =>
    constructor <;> intro h
    case mp =>
      cases h
      case cons pad _ hp hn =>
        cases hn
        exact ⟨[], pad, .nil, hp, by simp⟩
    case mpr =>
      obtain ⟨_, pad, hn, hp, rfl⟩ := h
      cases hn
      simpa using Layout.cons hp .nil
  case cons first batches hi =>
    constructor <;> intro h
    case mp =>
      cases h
      case cons pad _ hp hl =>
        obtain ⟨wal', pad', hl', hp', rfl⟩ := hi.mp hl
        exact ⟨_, pad', .cons hp hl', hp', by simp⟩
    case mpr =>
      obtain ⟨_, pad', hl, hp', rfl⟩ := h
      cases hl
      case cons pad wal' hp hl =>
        simpa using Layout.cons hp <| hi.mpr ⟨wal', pad', hl, hp', rfl⟩

-- Nothing is written for an empty batch.
def push (batches : List (List LogEntry)) (batch : List LogEntry) : List (List LogEntry) :=
  if batch = [] then batches else batches ++ [batch]

theorem flatten_push (batches : List (List LogEntry)) (batch : List LogEntry) :
    (push batches batch).flatten = batches.flatten ++ batch := by
  rw [push]
  split
  case isTrue h  => simp [h]
  case isFalse   => simp

theorem mem_push (h : es ∈ push batches batch) : es ∈ batches ∨ es = batch ∧ batch ≠ [] := by
  rw [push] at h
  split at h
  case isTrue     => exact .inl h
  case isFalse hn =>
    rcases List.mem_append.mp h with h | h
    case inl => exact .inl h
    case inr => exact .inr ⟨List.mem_singleton.mp h, hn⟩

theorem alignedBuffer_pad (memory : Memory) (batch : List LogEntry) :
    ∃ pad, pad.length = padding batch ∧
      alignedBuffer memory (payload batch) = payload batch ++ pad :=
  ⟨_, by simp [padding], rfl⟩

theorem alignedBuffer_zeros (batch : List LogEntry) :
    alignedBuffer (fun _ => 0) (payload batch) =
      payload batch ++ List.replicate (padding batch) 0 := by
  simp [alignedBuffer, padding, List.map_const']

-- The unused bytes can be any.
theorem exists_memory {pad : List UInt8} (h : pad.length = padding batch) :
    ∃ memory, alignedBuffer memory (payload batch) = payload batch ++ pad := by
  refine ⟨fun i => pad.getD (i - (payload batch).length) 0, ?_⟩
  rw [alignedBuffer, ← padding, List.append_cancel_left_eq]
  refine List.ext_getElem (by simp [h]) fun i hi hp => ?_
  simp [hp]

theorem layout_push : Layout (push batches batch) wal ↔
    ∃ wal' memory, Layout batches wal' ∧ wal = appendLogEntries wal' batch memory := by
  by_cases hb : batch = []
  case pos =>
    simp only [push, appendLogEntries, hb, if_true]
    exact ⟨fun h => ⟨wal, fun _ => 0, h, rfl⟩, by rintro ⟨_, _, h, rfl⟩; exact h⟩
  case neg =>
    simp only [push, appendLogEntries, hb, if_false]
    refine layout_concat.trans ⟨?_, ?_⟩
    · rintro ⟨wal', pad, hl, hp, rfl⟩
      obtain ⟨memory, hm⟩ := exists_memory hp
      exact ⟨wal', memory, hl, by rw [hm]⟩
    · rintro ⟨wal', memory, hl, rfl⟩
      obtain ⟨pad, hp, hm⟩ := alignedBuffer_pad memory batch
      exact ⟨wal', pad, hl, hp, by rw [hm]⟩

-- Every batch but the last fills whole sectors, and the last one leaves less than a record unused.
def Clean : List (List LogEntry) → Prop
  | []               => True
  | [batch]          => padding batch < 24
  | batch :: batches => padding batch = 0 ∧ Clean batches

theorem replayWal_of_clean (hf : ∀ es ∈ batches, ∀ e ∈ es, Fits e) (h : Clean batches)
    (hl : Layout batches wal) : replayWal wal = batches.flatten := by
  induction hl
  case nil => exact replayWal_short (by decide)
  case cons batch batches pad wal hp hl hi =>
    rw [List.forall_mem_cons] at hf
    rw [replayWal_payload hf.left, List.flatten_cons]
    cases batches
    case nil =>
      cases hl
      have hs : pad.length < 24 := hp ▸ h
      rw [List.append_nil, replayWal_short hs, List.flatten_nil]
    case cons =>
      rw [List.eq_nil_of_length_eq_zero (hp.trans h.left), List.nil_append, hi hf.right h.right]

-- Some content of the unused bytes brings replay to other entries.
theorem clean_of_replayWal (hn : ∀ es ∈ batches, es ≠ []) (hf : ∀ es ∈ batches, ∀ e ∈ es, Fits e)
    (h : ∀ wal, Layout batches wal → replayWal wal = batches.flatten) : Clean batches := by
  induction batches
  case nil => trivial
  case cons batch batches hi =>
    rw [List.forall_mem_cons] at hn hf
    have tail : ∀ pad wal, pad.length = padding batch → Layout batches wal →
        replayWal (pad ++ wal) = batches.flatten := by
      intro pad wal hp hl
      have := h _ (.cons hp hl)
      rwa [replayWal_payload hf.left, List.flatten_cons, List.append_cancel_left_eq] at this
    cases batches
    case nil =>
      by_contra hc
      have := tail (.replicate (padding batch) 0) [] (List.length_replicate ..) .nil
      rw [List.append_nil] at this
      exact replayWal_zeros (Nat.le_of_not_lt hc) this
    case cons next batches =>
      have hp : padding batch = 0 := by
        by_contra hp
        obtain ⟨n, hp⟩ := Nat.exists_eq_succ_of_ne_zero hp
        obtain ⟨first, es, rfl⟩ := List.exists_cons_of_ne_nil <| hn.right next (List.mem_cons_self ..)
        obtain ⟨wal, hl⟩ := Layout.exists ((first :: es) :: batches)
        -- A byte that the index of the next entry does not start with.
        let b := UInt8.ofNat (first.index + 1)
        have := tail (b :: .replicate n 0) wal (by simp [hp]) hl
        rw [List.cons_append] at this
        have := replayWal_head (by rw [this]; rfl)
        simp only [b, UInt8.toNat_ofNat'] at this
        omega
      refine ⟨hp, hi hn.right hf.right fun wal hl => ?_⟩
      simpa using tail [] wal (by simp [hp]) hl

end Wal
end RaftRupee
