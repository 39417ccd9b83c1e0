import Mathlib.Data.List.Induction
import RaftRupee.Server.Wal

namespace RaftRupee.Wal

variable {wal : Wal} {log : List LogEntry} {fromIndex : ℕ}

-- On entries with increasing indices it makes no difference that the source stops at the first one
-- that is not below the index.
theorem takeWhile_index_eq_filter (h : log.Pairwise (·.index < ·.index)) :
    log.takeWhile (·.index < fromIndex) = log.filter (·.index < fromIndex) := by
  induction log
  case nil => rfl
  case cons e log hi =>
    rw [List.pairwise_cons] at h
    by_cases he : e.index < fromIndex
    case pos => simp [he, hi h.right]
    case neg =>
      rw [List.takeWhile_cons_of_neg (by simpa using he), List.filter_cons_of_neg (by simpa using he)]
      refine (List.filter_eq_nil_iff.mpr fun e' he' => ?_).symm
      have := h.left e' he'
      simp only [decide_eq_true_eq]
      omega

theorem truncateAndAppend_eq (wal : Wal) (fromIndex : ℕ) (entries : List LogEntry)
    (memory memory' : Memory) :
    truncateAndAppend wal fromIndex entries memory memory' =
      appendLogEntries
        (appendLogEntries [] ((replayWal wal).takeWhile (·.index < fromIndex)) memory)
        entries memory' :=
  rfl

/-! ### Sequences of calls -/

inductive Call
  | append (batch : List LogEntry)
  | truncateAndAppend (fromIndex : ℕ) (batch : List LogEntry)

namespace Call

def batch : Call → List LogEntry
  | append batch              => batch
  | truncateAndAppend _ batch => batch

-- The log that a call describes.
def describe (log : List LogEntry) : Call → List LogEntry
  | append batch                      => log ++ batch
  | truncateAndAppend fromIndex batch => log.filter (·.index < fromIndex) ++ batch

-- A call with what the memory of its buffers holds.
def exec (wal : Wal) : Call × Memory × Memory → Wal
  | (append batch, memory, _)                            => appendLogEntries wal batch memory
  | (truncateAndAppend fromIndex batch, memory, memory') =>
    Wal.truncateAndAppend wal fromIndex batch memory memory'

-- The batches that are in the file after a call.
def batches (bs : List (List LogEntry)) : Call → List (List LogEntry)
  | append batch                      => push bs batch
  | truncateAndAppend fromIndex batch => push (push [] (bs.flatten.filter (·.index < fromIndex))) batch

end Call

-- `wal.log` is empty at first.
def write (run : List (Call × Memory × Memory)) : Wal :=
  run.foldl Call.exec []

def described (calls : List Call) : List LogEntry :=
  calls.foldl Call.describe []

def batches (calls : List Call) : List (List LogEntry) :=
  calls.foldl Call.batches []

-- The calls that a node makes: the numbers fit the record, and the indices of its log increase.
structure Emitted (calls : List Call) : Prop where
  fits       : ∀ call ∈ calls, ∀ entry ∈ call.batch, Fits entry
  increasing : ∀ calls', calls' <+: calls → (described calls').Pairwise (·.index < ·.index)

-- Whatever the memory holds, replay returns the log that the calls describe.
def RoundTrips (calls : List Call) : Prop :=
  ∀ run : List (Call × Memory × Memory), run.map (·.1) = calls → replayWal (write run) = described calls

variable {calls calls' : List Call} {call : Call}

theorem Emitted.upTo (h : Emitted calls) (hp : calls' <+: calls) : Emitted calls' where
  fits c hc           := h.fits c (hp.subset hc)
  increasing cs hcs   := h.increasing cs (hcs.trans hp)

@[simp]
theorem described_concat (calls : List Call) (call : Call) :
    described (calls ++ [call]) = call.describe (described calls) := by
  simp [described]

@[simp]
theorem batches_concat (calls : List Call) (call : Call) :
    batches (calls ++ [call]) = call.batches (batches calls) := by
  simp [batches]

@[simp]
theorem write_concat (run : List (Call × Memory × Memory)) (c : Call × Memory × Memory) :
    write (run ++ [c]) = Call.exec (write run) c := by
  simp [write]

theorem flatten_batches (calls : List Call) : (batches calls).flatten = described calls := by
  induction calls using List.reverseRecOn
  case nil => rfl
  case append_singleton calls call hi =>
    rw [batches_concat, described_concat]
    cases call
    case append            => simp [Call.batches, Call.describe, flatten_push, hi]
    case truncateAndAppend => simp [Call.batches, Call.describe, flatten_push, hi]

theorem batches_valid (h : Emitted calls) :
    ∀ es ∈ batches calls, es ≠ [] ∧ ∀ e ∈ es, Fits e := by
  induction calls using List.reverseRecOn
  case nil => simp [batches]
  case append_singleton calls call hi =>
    have hi := hi <| h.upTo (List.prefix_append ..)
    have hb : ∀ e ∈ call.batch, Fits e := h.fits call (by simp)
    intro es hes
    rw [batches_concat] at hes
    cases call
    case append =>
      rcases mem_push hes with hes | ⟨rfl, hn⟩
      case inl => exact hi es hes
      case inr => exact ⟨hn, hb⟩
    case truncateAndAppend =>
      rcases mem_push hes with hes | ⟨rfl, hn⟩
      case inr => exact ⟨hn, hb⟩
      case inl =>
        rcases mem_push hes with hes | ⟨rfl, hn⟩
        case inl => contradiction
        case inr =>
          refine ⟨hn, fun e he => ?_⟩
          obtain ⟨es, hes, he⟩ := List.mem_flatten.mp (List.mem_filter.mp he).left
          exact (hi es hes).right e he

theorem layout_nil : Layout [] wal ↔ wal = [] := by
  constructor
  case mp =>
    intro h
    cases h
    rfl
  case mpr =>
    rintro rfl
    exact .nil

theorem exists_run_concat :
    (∃ run : List (Call × Memory × Memory), run.map (·.1) = calls ++ [call] ∧ write run = wal) ↔
      ∃ (run : List (Call × Memory × Memory)) (memory memory' : Memory),
        run.map (·.1) = calls ∧ Call.exec (write run) (call, memory, memory') = wal := by
  constructor
  case mp =>
    rintro ⟨run, hrun, rfl⟩
    obtain ⟨run', last, rfl, hrun', hlast⟩ := List.map_eq_append_iff.mp hrun
    obtain ⟨c, rfl, rfl⟩ := List.map_eq_singleton_iff.mp hlast
    exact ⟨run', c.2.1, c.2.2, hrun', (write_concat run' c).symm⟩
  case mpr =>
    rintro ⟨run, memory, memory', hrun, rfl⟩
    exact ⟨run ++ [(call, memory, memory')], by simp [hrun], write_concat ..⟩

-- As long as what `truncate_and_append` reads back is right, the calls write their batches in any of
-- the layouts, depending on the memory.
theorem layout_iff (h : Emitted calls)
    (hr : ∀ calls', calls' <+: calls → calls' ≠ calls → RoundTrips calls') :
    Layout (batches calls) wal ↔
      ∃ run : List (Call × Memory × Memory), run.map (·.1) = calls ∧ write run = wal := by
  induction calls using List.reverseRecOn generalizing wal
  case nil =>
    constructor
    case mp =>
      intro hl
      cases hl
      exact ⟨[], rfl, rfl⟩
    case mpr =>
      rintro ⟨run, hrun, rfl⟩
      rw [List.map_eq_nil_iff.mp hrun]
      exact .nil
  case append_singleton calls call hi =>
    have hpre : calls <+: calls ++ [call] := List.prefix_append ..
    have hne : calls ≠ calls ++ [call] := by simp
    have hi : ∀ {wal}, Layout (batches calls) wal ↔
        ∃ run : List (Call × Memory × Memory), run.map (·.1) = calls ∧ write run = wal :=
      hi (h.upTo hpre) fun cs hcs _ => hr cs (hcs.trans hpre) fun he =>
        hne <| hpre.eq_of_length_le <| he ▸ hcs.length_le
    rw [exists_run_concat, batches_concat]
    cases call
    case append batch =>
      rw [Call.batches, layout_push]
      constructor
      case mp =>
        rintro ⟨_, memory, hl, rfl⟩
        obtain ⟨run, hrun, rfl⟩ := hi.mp hl
        exact ⟨run, memory, memory, hrun, rfl⟩
      case mpr =>
        rintro ⟨run, memory, _, hrun, rfl⟩
        exact ⟨write run, memory, hi.mpr ⟨run, hrun, rfl⟩, rfl⟩
    case truncateAndAppend fromIndex batch =>
      have preserved : ∀ run : List (Call × Memory × Memory), run.map (·.1) = calls →
          (replayWal (write run)).takeWhile (·.index < fromIndex) =
            (batches calls).flatten.filter (·.index < fromIndex) := by
        intro run hrun
        rw [hr calls hpre hne run hrun, flatten_batches]
        exact takeWhile_index_eq_filter <| h.increasing calls hpre
      rw [Call.batches, layout_push]
      constructor
      case mp =>
        rintro ⟨_, memory', hl, rfl⟩
        obtain ⟨_, memory, hn, rfl⟩ := layout_push.mp hl
        obtain ⟨wal, hl'⟩ := Layout.exists (batches calls)
        obtain ⟨run, hrun, rfl⟩ := hi.mp hl'
        refine ⟨run, memory, memory', hrun, ?_⟩
        rw [Call.exec, truncateAndAppend_eq, preserved run hrun, layout_nil.mp hn]
      case mpr =>
        rintro ⟨run, memory, memory', hrun, rfl⟩
        rw [Call.exec, truncateAndAppend_eq, preserved run hrun]
        exact ⟨_, memory', layout_push.mpr ⟨[], memory, .nil, rfl⟩, rfl⟩

theorem roundTrips_iff_clean (h : Emitted calls)
    (hr : ∀ calls', calls' <+: calls → calls' ≠ calls → RoundTrips calls') :
    RoundTrips calls ↔ Clean (batches calls) := by
  have hb := batches_valid h
  constructor <;> intro hc
  case mp =>
    refine clean_of_replayWal (fun es hes => (hb es hes).left) (fun es hes => (hb es hes).right) ?_
    intro wal hl
    obtain ⟨run, hrun, rfl⟩ := (layout_iff h hr).mp hl
    rw [hc run hrun, flatten_batches]
  case mpr =>
    intro run hrun
    rw [← flatten_batches]
    exact replayWal_of_clean (fun es hes => (hb es hes).right) hc <|
      (layout_iff h hr).mpr ⟨run, hrun, rfl⟩

-- In every state of the run, replay is right whatever the memory holds, just when the batches in the
-- file of every state are clean.
theorem round_trips_iff (calls : List Call) (h : Emitted calls) :
    (∀ calls', calls' <+: calls → RoundTrips calls') ↔
      ∀ calls', calls' <+: calls → Clean (batches calls') := by
  constructor <;> intro hc
  case mp =>
    intro calls' hp
    exact (roundTrips_iff_clean (h.upTo hp) fun cs hcs _ => hc cs (hcs.trans hp)).mp (hc calls' hp)
  case mpr =>
    intro calls' hp
    induction hn : calls'.length using Nat.strongRecOn generalizing calls'
    case ind n hi =>
      refine (roundTrips_iff_clean (h.upTo hp) fun cs hcs hne => ?_).mpr (hc calls' hp)
      refine hi cs.length ?_ cs (hcs.trans hp) rfl
      exact hn ▸ Nat.lt_of_le_of_ne hcs.length_le fun hl => hne <| hcs.eq_of_length hl

theorem Emitted.nil : Emitted [] where
  fits       := by simp
  increasing := by simp [described]

theorem Emitted.concat (h : Emitted calls) (hf : ∀ entry ∈ call.batch, Fits entry)
    (hp : (described (calls ++ [call])).Pairwise (·.index < ·.index)) : Emitted (calls ++ [call]) where
  fits c hc := by
    rcases List.mem_append.mp hc with hc | hc
    case inl => exact h.fits c hc
    case inr => exact List.mem_singleton.mp hc ▸ hf
  increasing cs hcs := by
    rcases List.prefix_concat_iff.mp hcs with rfl | hcs
    case inl => exact hp
    case inr => exact h.increasing cs hcs

def first : LogEntry where
  index   := 1
  term    := 1
  command := []

theorem first_fits : Fits first :=
  ⟨by decide, by decide, by decide⟩

theorem emitted_first : Emitted [.append [first]] :=
  Emitted.nil.concat (by simp [Call.batch, first_fits]) (by simp [described, Call.describe])

theorem write_first : write [(.append [first], fun _ => 0, fun _ => 0)] =
    payload [first] ++ List.replicate (padding [first]) 0 :=
  alignedBuffer_zeros [first]

-- One entry, and a buffer whose unused bytes are zeros.
theorem not_round_trips : ¬∀ calls, Emitted calls → RoundTrips calls := by
  intro h
  have hr := h [.append [first]] emitted_first [(.append [first], fun _ => 0, fun _ => 0)] rfl
  rw [write_first, replayWal_payload (by simp [first_fits])] at hr
  exact replayWal_zeros (by decide) <| List.append_right_eq_self.mp hr

-- An entry whose record fills a sector.
def whole (index : ℕ) : LogEntry where
  index   := index
  term    := 1
  command := .replicate 4072 0

@[simp]
theorem whole_index (index : ℕ) : (whole index).index = index :=
  rfl

theorem whole_length (index : ℕ) : (whole index).command.length = 4072 :=
  List.length_replicate

theorem padding_whole (index : ℕ) : padding [whole index] = 0 := by
  simp [padding, payload, length_encodeEntry, whole_length, roundedSize, sectorSize]

def wholeCalls : List Call :=
  [.append [whole 1], .append [whole 2], .truncateAndAppend 2 [whole 2]]

theorem emitted_whole : Emitted wholeCalls := by
  have hfits : ∀ index < 256 ^ 8, Fits (whole index) := fun index h =>
    ⟨h, (by decide : 1 < 256 ^ 8), by simp [whole_length]⟩
  have h₁ : Emitted [.append [whole 1]] :=
    Emitted.nil.concat (by simp [Call.batch, hfits]) (by simp [described, Call.describe])
  have h₂ : Emitted [.append [whole 1], .append [whole 2]] :=
    h₁.concat (by simp [Call.batch, hfits]) (by simp [described, Call.describe])
  exact h₂.concat (by simp [Call.batch, hfits]) (by simp [described, Call.describe])

theorem round_trips_iff_whole :
    ((∀ calls', calls' <+: wholeCalls → RoundTrips calls') ↔
      ∀ calls', calls' <+: wholeCalls → Clean (batches calls')) ∧ RoundTrips wholeCalls := by
  have h := round_trips_iff wholeCalls emitted_whole
  refine ⟨h, h.mpr (fun calls' hp => ?_) wholeCalls List.prefix_rfl⟩
  simp only [wholeCalls, List.prefix_cons_iff, List.prefix_nil] at hp
  obtain rfl | ⟨_, rfl, rfl | ⟨_, rfl, rfl | ⟨_, rfl, rfl⟩⟩⟩ := hp <;>
    simp [batches, Call.batches, push, Clean, padding_whole]

/-! ### Stopping in the middle of a truncation -/

-- A later replay returns every entry below the truncation, though only `k` steps are made.
def Keeps (wal : Wal) (fromIndex : ℕ) (entries : List LogEntry) (memory memory' : Memory) (k : ℕ) :
    Prop :=
  ∀ e ∈ replayWal wal, e.index < fromIndex →
    e ∈ replayWal (truncateCut wal fromIndex entries memory memory' k)

theorem appendLogEntries_extends (wal : Wal) (entries : List LogEntry) (memory : Memory) :
    wal ++ payload entries <+: appendLogEntries wal entries memory := by
  rw [appendLogEntries]
  split
  case isTrue h => simp [h, payload]
  case isFalse =>
    rw [List.prefix_append_right_inj]
    exact List.prefix_append ..

theorem subset_replayWal {preserved : List LogEntry} (hf : ∀ e ∈ preserved, Fits e)
    (hp : payload preserved <+: wal) : preserved ⊆ replayWal wal := by
  obtain ⟨rest, rfl⟩ := hp
  rw [replayWal_payload hf]
  exact List.subset_append_left ..

-- Once the preserved entries are written, they are there to stay.
theorem keeps_of_ne_two (h : (replayWal wal).Pairwise (·.index < ·.index)) (entries : List LogEntry)
    (memory memory' : Memory) {k : ℕ} (hk : k ≠ 2) :
    Keeps wal fromIndex entries memory memory' k := by
  intro e he hi
  let preserved := (replayWal wal).takeWhile (·.index < fromIndex)
  have hf : ∀ e ∈ preserved, Fits e := fun e he => replayWal_fits wal e <| List.takeWhile_subset _ he
  have hm : e ∈ preserved := by
    rw [show preserved = _ from takeWhile_index_eq_filter h]
    simpa using ⟨he, hi⟩
  have hw : payload preserved <+: appendLogEntries [] preserved memory :=
    appendLogEntries_extends [] preserved memory
  rcases k with _ | _ | _ | _ | k
  · exact he
  · exact he
  · contradiction
  · exact subset_replayWal hf hw hm
  · have hc : truncateCut wal fromIndex entries memory memory' (k + 4) =
        appendLogEntries (appendLogEntries [] preserved memory) entries memory' := by
      simp [truncateCut, truncateSteps, truncateStep, preserved]
    rw [hc]
    exact subset_replayWal hf
      (hw.trans <| (List.prefix_append ..).trans <| appendLogEntries_extends ..) hm

-- The file is empty between `ftruncate` and the first append.
theorem truncateCut_two (wal : Wal) (fromIndex : ℕ) (entries : List LogEntry)
    (memory memory' : Memory) : replayWal (truncateCut wal fromIndex entries memory memory' 2) = [] :=
  replayWal_short (show ([] : Wal).length < 24 by decide)

theorem survives_iff (wal : Wal) (fromIndex : ℕ) (entries : List LogEntry)
    (memory memory' : Memory) :
    (∀ k, Keeps wal fromIndex entries memory memory' k) ↔
      ∀ e ∈ replayWal wal, fromIndex ≤ e.index := by
  constructor <;> intro h
  case mp =>
    intro e he
    by_contra hi
    have := h 2 e he (Nat.lt_of_not_le hi)
    rw [truncateCut_two] at this
    contradiction
  case mpr =>
    intro k e he hi
    exact absurd (h e he) (Nat.not_le_of_lt hi)

-- The file holds an entry, which a truncation from the next index on does not concern.
theorem not_survives : ¬∀ wal fromIndex entries memory memory' k,
    Keeps wal fromIndex entries memory memory' k := by
  intro h
  let wal := write [(.append [first], fun _ => 0, fun _ => 0)]
  have hm : first ∈ replayWal wal := by
    simp [wal, write_first, replayWal_payload, first_fits]
  have := h wal 2 [] (fun _ => 0) (fun _ => 0) 2 first hm (by decide)
  rw [truncateCut_two] at this
  contradiction

end RaftRupee.Wal
