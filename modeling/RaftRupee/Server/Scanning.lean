import RaftRupee.Lib.Rounds
import RaftRupee.Server.Wal

namespace RaftRupee
namespace Wal

-- `data[start..stop]`, which panics unless the range is within the data.
def slice (data : List UInt8) (start stop : ℕ) : Option (List UInt8) :=
  if start ≤ stop ∧ stop ≤ data.length then some ((data.drop start).take (stop - start)) else none

-- The variables that change in the loop of `replay_wal`.
structure Scan where
  offset  : ℕ
  entries : List LogEntry

-- One round of the loop: it is left with the entries, or goes on, or a slice is out of range.
def scanRound (data : Wal) (s : Scan) : Option (Scan ⊕ List LogEntry) :=
  if data.length ≤ s.offset then
    some (.inr s.entries)
  else if data.length < s.offset + 24 then
    some (.inr s.entries)
  else
    (slice data s.offset (s.offset + 8)).bind fun idxBytes =>
    (slice data (s.offset + 8) (s.offset + 16)).bind fun termBytes =>
    (slice data (s.offset + 16) (s.offset + 20)).bind fun lenBytes =>
    let len := Bytes.toNat lenBytes
    if data.length < s.offset + 24 + len then
      some (.inr s.entries)
    else
      (slice data (s.offset + 20) (s.offset + 20 + len)).bind fun command =>
      (slice data (s.offset + 20 + len) (s.offset + 24 + len)).bind fun crcBytes =>
      if (crc32 command).toNat ≠ Bytes.toNat crcBytes then
        some (.inr s.entries)
      else
        let entry := { index := Bytes.toNat idxBytes, term := Bytes.toNat termBytes, command }
        some (.inl { offset := s.offset + 24 + len, entries := s.entries ++ [entry] })

-- The loop returns these entries.
def Scans (data : Wal) (es : List LogEntry) : Prop :=
  ∃ n, Rounds.run (scanRound data) n { offset := 0, entries := [] } = some es

-- The records of these entries are at the front of the data, and no more whole records with a matching
-- checksum are.
structure LongestRun (data : Wal) (es : List LogEntry) : Prop where
  fits    : ∀ e ∈ es, Fits e
  within  : payload es <+: data
  longest : ∀ es', (∀ e ∈ es', Fits e) → payload es' <+: data → es' <+: es

variable {data rest : Wal} {entry : LogEntry} {entries es es' : List LogEntry} {s : Scan} {n : ℕ}

/-! ### Rounds -/

theorem slice_eq {start stop offset k w : ℕ} (hl : offset + k + w ≤ data.length)
    (h₁ : start = offset + k) (h₂ : stop = offset + k + w) :
    slice data start stop = some (((data.drop offset).drop k).take w) := by
  rw [h₁, h₂, slice, if_pos ⟨Nat.le_add_right .., hl⟩, Nat.add_sub_cancel_left, List.drop_drop]

-- Both checks together keep the slices within the data.
theorem scanRound_eq (data : Wal) (s : Scan) : scanRound data s =
    some ((decodeEntry (data.drop s.offset)).elim (.inr s.entries) fun r =>
      .inl { offset := s.offset + 24 + r.1.command.length, entries := s.entries ++ [r.1] }) := by
  rw [scanRound, decodeEntry, List.length_drop]
  by_cases hshort : data.length < s.offset + 24
  case pos => rw [if_pos hshort, ite_self, if_pos (by omega), Option.elim_none]
  case neg =>
    have hidx : slice data s.offset (s.offset + 8) = some (((data.drop s.offset).drop 0).take 8) :=
      slice_eq (by omega) rfl rfl
    have hterm : slice data (s.offset + 8) (s.offset + 16) =
        some (((data.drop s.offset).drop 8).take 8) :=
      slice_eq (by omega) rfl rfl
    have hlen : slice data (s.offset + 16) (s.offset + 20) =
        some (((data.drop s.offset).drop 16).take 4) :=
      slice_eq (by omega) rfl rfl
    rw [if_neg (by omega), if_neg hshort, if_neg (by omega), hidx, hterm, hlen]
    simp only [Option.bind_some, Bytes.toNat_field]
    generalize Bytes.read (data.drop s.offset) 16 4 = len
    by_cases hcut : data.length < s.offset + 24 + len
    case pos => rw [if_pos hcut, if_pos (by omega), Option.elim_none]
    case neg =>
      have hcommand : slice data (s.offset + 20) (s.offset + 20 + len) =
          some (((data.drop s.offset).drop 20).take len) :=
        slice_eq (by omega) rfl rfl
      have hcrc : slice data (s.offset + 20 + len) (s.offset + 24 + len) =
          some (((data.drop s.offset).drop (20 + len)).take 4) :=
        slice_eq (by omega) (by omega) (by omega)
      have hlength : (((data.drop s.offset).drop 20).take len).length = len := by
        simp only [List.length_take, List.length_drop]
        omega
      rw [if_neg hcut, if_neg (by omega), hcommand, hcrc]
      simp only [Option.bind_some, Bytes.toNat_field]
      split
      case isTrue  => rfl
      case isFalse => rw [Option.elim_some, hlength]

theorem decodeEntry_fields (h : decodeEntry data = some (entry, rest)) :
    entry.command = (data.drop 20).take entry.command.length ∧
      (crc32 entry.command).toNat = Bytes.read data (20 + entry.command.length) 4 ∧
      rest = data.drop (24 + entry.command.length) := by
  have hc := (decodeEntry_some h).right.right.left
  rw [decodeEntry] at h
  split at h
  case isTrue  => cases h
  case isFalse =>
    simp only at h
    split at h
    case isTrue  => cases h
    case isFalse =>
      split at h
      case isTrue       => cases h
      case isFalse hcrc =>
        cases h
        rw [hc]
        exact ⟨rfl, not_ne_iff.mp hcrc, rfl⟩

-- What is still to be replayed follows what the loop has read.
def Scanned (data : Wal) (s : Scan) : Prop :=
  s.entries ++ replayWal (data.drop s.offset) = replayWal data

theorem scanRound_scanned (h : Scanned data s) :
    (∃ es, scanRound data s = some (.inr es) ∧ es = replayWal data) ∨
    ∃ s', scanRound data s = some (.inl s') ∧ Scanned data s' ∧
      data.length - s'.offset < data.length - s.offset := by
  rw [scanRound_eq]
  cases hd : decodeEntry (data.drop s.offset)
  case none =>
    rw [Scanned, replayWal_none hd, List.append_nil] at h
    exact .inl ⟨_, rfl, h⟩
  case some r =>
    obtain ⟨entry, rest⟩ := r
    have hlength := (decodeEntry_some hd).right.right.right
    rw [List.length_drop] at hlength
    refine .inr ⟨_, rfl, ?_, by simp only; omega⟩
    have hrest := (decodeEntry_fields hd).right.right
    rw [Scanned, replayWal_some hd, hrest, List.drop_drop, ← Nat.add_assoc] at h
    rw [Scanned, List.append_assoc, List.singleton_append]
    exact h

theorem scans_replayWal (data : Wal) : Scans data (replayWal data) := by
  have ⟨n, es, hr, he⟩ := Rounds.run_of_rank (Scanned data) (data.length - ·.offset)
    (fun _ => scanRound_scanned) (show Scanned data { offset := 0, entries := [] } from rfl)
  exact ⟨n, he ▸ hr⟩

theorem scans_iff : Scans data es ↔ es = replayWal data := by
  have ⟨m, hm⟩ := scans_replayWal data
  constructor <;> intro h
  case mp =>
    obtain ⟨n, hn⟩ := h
    exact Rounds.run_unique hn hm
  case mpr => exact h ▸ ⟨m, hm⟩

/-! ### Records -/

-- What is decoded is a record, byte by byte.
theorem eq_of_decodeEntry (h : decodeEntry data = some (entry, rest)) :
    data = encodeEntry entry ++ rest := by
  obtain ⟨hindex, hterm, hcommand, hlength⟩ := decodeEntry_some h
  obtain ⟨hbytes, hcrc, hrest⟩ := decodeEntry_fields h
  have field (k w : ℕ) : (data.drop k).take w ++ data.drop (k + w) = data.drop k := by
    rw [← List.drop_drop, List.take_append_drop]
  calc data = (data.drop 0).take 8 ++ ((data.drop 8).take 8 ++ ((data.drop 16).take 4 ++
        ((data.drop 20).take entry.command.length ++
          ((data.drop (20 + entry.command.length)).take 4 ++ rest)))) := by
        -- From the last field to the first.
        rw [hrest, show 24 + entry.command.length = 20 + entry.command.length + 4 by omega,
          field, field, field 16 4, field 8 8, field 0 8, List.drop_zero]
    _ = encodeEntry entry ++ rest := by
        rw [← hbytes, ← Bytes.ofNat_read (by omega), ← Bytes.ofNat_read (by omega),
          ← Bytes.ofNat_read (by omega), ← Bytes.ofNat_read (by omega), ← hindex, ← hterm, ← hcommand,
          ← hcrc, encodeEntry]
        simp only [List.append_assoc]

theorem payload_replayWal (data : Wal) : payload (replayWal data) <+: data := by
  induction data using replayWal.induct
  case case1 data hd => simp [replayWal_none hd, payload]
  case case2 data entry rest hd hi =>
    rw [replayWal_some hd, payload_cons, eq_of_decodeEntry hd]
    exact (List.prefix_append_right_inj _).mpr hi

theorem replayWal_longest (hf : ∀ e ∈ es, Fits e) (h : payload es <+: data) :
    es <+: replayWal data := by
  obtain ⟨rest, rfl⟩ := h
  exact ⟨_, (replayWal_payload hf rest).symm⟩

theorem longestRun_replayWal (data : Wal) : LongestRun data (replayWal data) where
  fits := replayWal_fits data
  within := payload_replayWal data
  longest _ := replayWal_longest

/-! ### Torn writes -/

theorem payload_extends (h : es <+: es') : payload es <+: payload es' := by
  obtain ⟨rest, rfl⟩ := h
  exact ⟨payload rest, List.flatMap_append.symm⟩

theorem replayWal_all (hf : ∀ e ∈ entries, Fits e) : replayWal (payload entries) = entries := by
  have := replayWal_payload hf []
  rwa [List.append_nil, @replayWal_short [] (by decide), List.append_nil] at this

theorem replayWal_take (hf : ∀ e ∈ entries, Fits e) (n : ℕ) :
    ∃ k, replayWal ((payload entries).take n) = entries.take k ∧
      ∀ j < entries.length, j < k ↔ (payload (entries.take (j + 1))).length ≤ n := by
  have hw := payload_replayWal ((payload entries).take n)
  have hp := replayWal_longest (replayWal_fits _) (hw.trans (List.take_prefix n _))
  rw [replayWal_all hf] at hp
  have he := List.prefix_iff_eq_take.mp hp
  refine ⟨_, he, fun j hj => ⟨fun hk => ?_, fun hn => ?_⟩⟩
  · have hl := Nat.le_trans hw.length_le (List.length_take_le n _)
    refine Nat.le_trans (payload_extends ?_).length_le hl
    rw [he]
    exact List.take_prefix_take_left hk
  · have hin := List.prefix_take_iff.mpr ⟨payload_extends (List.take_prefix (j + 1) entries), hn⟩
    have hl := (replayWal_longest (fun e he => hf e (List.mem_of_mem_take he)) hin).length_le
    rw [List.length_take] at hl
    omega

theorem replay_inverts :
    (∀ data, (∃ es, Scans data es) ∧ ∀ es, Scans data es → LongestRun data es) ∧
    ∀ entries, (∀ e ∈ entries, Fits e) → ∀ n, ∃ k,
      (∀ es, Scans ((payload entries).take n) es ↔ es = entries.take k) ∧
      ∀ j < entries.length, j < k ↔ (payload (entries.take (j + 1))).length ≤ n := by
  refine ⟨fun data => ⟨⟨_, scans_replayWal data⟩, fun es h => ?_⟩, fun entries hf n => ?_⟩
  · exact scans_iff.mp h ▸ longestRun_replayWal data
  · obtain ⟨k, hk, hj⟩ := replayWal_take hf n
    exact ⟨k, fun es => hk ▸ scans_iff, hj⟩

def twoEntries : List LogEntry :=
  [{ index := 1, term := 1, command := [] }, { index := 2, term := 1, command := [7] }]

theorem twoEntries_fits : ∀ e ∈ twoEntries, Fits e := by
  refine List.forall_mem_cons.mpr ⟨⟨?_, ?_, ?_⟩, List.forall_mem_singleton.mpr ⟨?_, ?_, ?_⟩⟩ <;> decide

-- The cut goes through the second record.
theorem replay_inverts_torn : Scans ((payload twoEntries).take 30) (twoEntries.take 1) := by
  obtain ⟨k, hk, hj⟩ := replay_inverts.right twoEntries twoEntries_fits 30
  have h₁ : 0 < k := (hj 0 (by decide)).mpr (by decide)
  have h₂ : ¬1 < k := fun h => absurd ((hj 1 (by decide)).mp h) (by decide)
  have : k = 1 := by omega
  exact (hk _).mpr (this ▸ rfl)

end Wal
end RaftRupee
