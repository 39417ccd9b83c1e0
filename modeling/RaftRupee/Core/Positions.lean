import RaftRupee.Core.Contiguous
import RaftRupee.Lib.Transition
import RaftRupee.Lib.Window

namespace RaftRupee

variable {log log' : RaftLog} {es : List LogEntry} {i j t : ℕ}

-- Terms and commands by index. The base has a term only.
abbrev LogWindow := Window ℕ (ℕ × Command)

def LogEntry.value (entry : LogEntry) : ℕ × Command :=
  (entry.term, entry.command)

-- The operations that change a log.
inductive LogOp
  | append (entries : List LogEntry)
  | truncateAndAppend (fromIndex : ℕ) (entries : List LogEntry)
  | compact (lastIncludedIndex : ℕ) (lastIncludedTerm : ℕ)
  | installSnapshot (snap : SnapshotMeta)
  deriving DecidableEq

namespace LogOp

def apply (log : RaftLog) : LogOp → Option RaftLog
  | append es              => some (log.append es)
  | truncateAndAppend i es => log.truncateAndAppend i es
  | compact i t            => some (log.compact i t)
  | installSnapshot snap   => some (log.installSnapshot snap)

-- What the callers respect.
def Admitted (log : RaftLog) : LogOp → Prop
  | append es              => Consecutive (log.lastIndex + 1) es
  | truncateAndAppend i es => (log.firstIndex < i ∧ i ≤ log.lastIndex + 1) ∧ Consecutive i es
  | compact i t            => ∀ u, log.termAt i = some u → t = u
  | installSnapshot _      => True

-- The same operation on the terms and commands by index.
def update (w : LogWindow) : LogOp → LogWindow
  | append es              => w.append (es.map (·.value))
  | truncateAndAppend i es =>
    if h : w.base < i ∧ i ≤ w.last + 1 then w.splice i (es.map (·.value)) h else w
  | compact i t            => w.dropTo i t
  | installSnapshot snap   => .reset snap.lastIncludedIndex snap.lastIncludedTerm

end LogOp

-- Runs of operations on a new log.
def RaftLog.operations : TransitionSystem RaftLog LogOp where
  init := .new
  step := LogOp.apply

-- The entry at an index, with the base as an entry without a command.
def LogWindow.entry (w : LogWindow) (j : ℕ) : Option LogEntry :=
  if j = w.base then
    some { index := w.base, term := w.label, command := [] }
  else
    (w.get j).map fun v => { index := j, term := v.1, command := v.2 }

-- The queries to the log have the answers that the window gives.
structure Answers (log : RaftLog) (w : LogWindow) : Prop where
  entryAt     : ∀ j, log.entryAt j = w.entry j
  termAt      : ∀ j, log.termAt j = (w.entry j).map (·.term)
  isSome      : ∀ j, (log.entryAt j).isSome ↔ w.base ≤ j ∧ j ≤ w.last
  index       : ∀ j e, log.entryAt j = some e → e.index = j
  entriesFrom : ∀ j, log.entriesFrom j =
    (List.range' (max j (w.base + 1)) (w.last + 1 - max j (w.base + 1))).filterMap w.entry
  lastIndex   : log.lastIndex = w.last
  lastTerm    : some log.lastTerm = (w.entry w.last).map (·.term)

-- The queries above index `i` have the answers that they had.
structure SameAbove (i : ℕ) (log log' : RaftLog) : Prop where
  entryAt     : ∀ j, i < j → log'.entryAt j = log.entryAt j
  termAt      : ∀ j, i ≤ j → log'.termAt j = log.termAt j
  entriesFrom : ∀ j, i < j → log'.entriesFrom j = log.entriesFrom j
  lastIndex   : log'.lastIndex = log.lastIndex
  lastTerm    : log'.lastTerm = log.lastTerm

/-! ### The window of a log -/

namespace RaftLog

def window (log : RaftLog) : LogWindow :=
  .ofList log.firstIndex log.sentinel.term (log.rest.map (·.value))

-- A log with entries at the right positions, and a base that is none.
structure Represents (log : RaftLog) (w : LogWindow) : Prop where
  contiguous : log.Contiguous
  command    : log.sentinel.command = []
  window     : log.window = w

theorem represents_new : RaftLog.new.Represents (.reset 0 0) where
  contiguous := trivial
  command    := rfl
  window     := (Window.reset_eq 0 0).symm

end RaftLog

namespace RaftLog.Represents

variable {w : LogWindow} {op : LogOp}

theorem base (h : log.Represents w) : log.firstIndex = w.base :=
  h.window ▸ rfl

theorem last (h : log.Represents w) : log.lastIndex = w.last := by
  rw [h.contiguous.lastIndex_eq, ← h.window, RaftLog.window]
  simp only [Window.ofList, List.length_map]

theorem append (h : log.Represents w) (he : Consecutive (log.lastIndex + 1) es) :
    (log.append es).Represents (w.append (es.map (·.value))) where
  contiguous := h.contiguous.append he
  command    := h.command
  window     := by
    rw [← h.window, RaftLog.window, RaftLog.window, Window.append_ofList, ← List.map_append]
    rfl

theorem truncateAndAppend (h : log.Represents w) (hi : log.firstIndex < i) (hl : i ≤ log.lastIndex + 1)
    (he : Consecutive i es) : ∃ log', log.truncateAndAppend i es = some log' ∧
      log'.Represents (LogOp.update w (.truncateAndAppend i es)) := by
  have ht := @RaftLog.truncateAndAppend_eq _ es _ hi
  obtain ⟨hc, hs, _⟩ := h.contiguous.truncateAndAppend hl he ht
  refine ⟨_, ht, hc, hs ▸ h.command, ?_⟩
  rw [LogOp.update, dif_pos ⟨h.base ▸ hi, h.last ▸ hl⟩]
  obtain ⟨_, _, rfl⟩ := h
  rw [RaftLog.window, List.map_append, List.map_take]
  exact (Window.splice_ofList _).symm

theorem compact (h : log.Represents w) (i t : ℕ) : (log.compact i t).Represents (w.dropTo i t) where
  contiguous := h.contiguous.compact
  command    := command_compact h.command
  window     := by
    rw [← h.window, RaftLog.window, RaftLog.window, rest_compact, List.map_drop]
    rcases Nat.lt_or_ge log.firstIndex i with hi | hi
    case inl =>
      rw [Window.dropTo_ofList_of_lt hi, firstIndex_compact, Nat.max_eq_right hi.le, sentinel_compact hi]
    case inr =>
      rw [Window.dropTo_ofList_of_le hi, compact_of_le hi, Nat.sub_eq_zero_of_le hi, List.drop_zero]

theorem step (h : log.Represents w) (ha : op.Admitted log) :
    ∃ log', op.apply log = some log' ∧ log'.Represents (op.update w) := by
  cases op
  case append            => exact ⟨_, rfl, h.append ha⟩
  case truncateAndAppend => exact h.truncateAndAppend ha.left.left ha.left.right ha.right
  case compact i t       => exact ⟨_, rfl, h.compact i t⟩
  case installSnapshot   => exact ⟨_, rfl, trivial, rfl, (Window.reset_eq ..).symm⟩

theorem get_eq (h : log.Represents w) (j : ℕ) : w.get j =
    if j ≤ log.firstIndex then none else (log.rest[j - log.firstIndex - 1]?).map (·.value) := by
  rw [← h.window, ← List.getElem?_map]
  rfl

theorem entryAt (h : log.Represents w) (j : ℕ) : log.entryAt j = w.entry j := by
  have hbase := h.base
  rw [LogWindow.entry, h.get_eq, ← hbase]
  rcases Nat.lt_trichotomy j log.firstIndex with hj | rfl | hj
  · rw [RaftLog.entryAt, if_pos hj, if_neg hj.ne, if_pos hj.le, Option.map_none]
  · have hlabel : log.sentinel.term = w.label := h.window ▸ rfl
    rw [entryAt_firstIndex, if_pos rfl, ← hlabel, ← h.command]
    rfl
  · rw [entryAt_of_lt hj, if_neg hj.ne', if_neg (Nat.not_le.mpr hj)]
    cases he : log.rest[j - log.firstIndex - 1]?
    case none   => rfl
    case some e =>
      have hindex : e.index = j := by
        have := h.contiguous.index_eq he
        omega
      rw [Option.map_some, Option.map_some, ← hindex]
      rfl

theorem isSome_entryAt (h : log.Represents w) (j : ℕ) :
    (log.entryAt j).isSome ↔ w.base ≤ j ∧ j ≤ w.last := by
  rw [h.contiguous.isSome_entryAt, h.base, h.last]

theorem entriesFrom (h : log.Represents w) (j : ℕ) : log.entriesFrom j =
    (List.range' (max j (w.base + 1)) (w.last + 1 - max j (w.base + 1))).filterMap w.entry := by
  have hbase := h.base
  have hlast := h.contiguous.lastIndex_eq
  rw [h.last] at hlast
  generalize ha : max j (w.base + 1) = a
  have hdrop : log.entriesFrom j = log.rest.drop (a - log.firstIndex - 1) := by
    rcases Nat.lt_or_ge log.firstIndex j with hj | hj
    case inl => rw [entriesFrom_of_lt hj, ← ha, Nat.max_eq_left (by omega)]
    case inr => rw [entriesFrom_of_le hj, show a - log.firstIndex - 1 = 0 by omega, List.drop_zero]
  have hlen : (log.rest.drop (a - log.firstIndex - 1)).length = w.last + 1 - a := by
    rw [List.length_drop]
    omega
  rw [hdrop, ← hlen]
  refine (Window.filterMap_range' fun k _ => ?_).symm
  rw [← h.entryAt, entryAt_of_lt (by omega), List.getElem?_drop]
  congr 1
  omega

theorem answers (h : log.Represents w) : Answers log w where
  entryAt     := h.entryAt
  termAt j    := by rw [RaftLog.termAt, h.entryAt]
  isSome      := h.isSome_entryAt
  index j e he := by
    rw [h.entryAt, LogWindow.entry] at he
    split at he
    case isTrue hj =>
      cases he
      exact hj.symm
    case isFalse   =>
      obtain ⟨_, _, rfl⟩ := Option.map_eq_some_iff.mp he
      rfl
  entriesFrom := h.entriesFrom
  lastIndex   := h.last
  lastTerm    := by
    rw [← h.entryAt, ← h.last, ← h.contiguous.termAt_lastIndex, RaftLog.termAt]

end RaftLog.Represents

theorem RaftLog.Contiguous.sameAbove (h : log.Contiguous) (hi : log.termAt i = some t) :
    SameAbove i log (log.compact i t) := by
  have ⟨hbase, hlast⟩ := h.bounds_of_termAt hi
  have hfirst := (log.firstIndex_compact i t).trans (Nat.max_eq_right hbase)
  have hterm (j : ℕ) (hj : i ≤ j) : (log.compact i t).termAt j = log.termAt j := by
    rcases hbase.eq_or_lt with heq | hlt
    case inl => rw [compact_of_le heq.ge]
    case inr =>
      rcases hj.eq_or_lt with rfl | hj
      case inl =>
        have := (log.compact i t).termAt_firstIndex
        rwa [hfirst, sentinel_compact hlt, ← hi] at this
      case inr => rw [RaftLog.termAt, RaftLog.termAt, entryAt_compact (by omega)]
  have hindex : (log.compact i t).lastIndex = log.lastIndex :=
    h.lastIndex_compact.trans (Nat.max_eq_right hlast)
  refine ⟨fun j hj => entryAt_compact (by omega), hterm, fun j hj => ?_, hindex, ?_⟩
  case refine_1 =>
    rw [entriesFrom_of_lt (by omega), entriesFrom_of_lt (by omega), rest_compact, List.drop_drop]
    congr 1
    omega
  case refine_2 =>
    have := Contiguous.termAt_lastIndex (h.compact (i := i) (t := t))
    rw [hindex, hterm _ hlast, h.termAt_lastIndex] at this
    exact (Option.some.inj this).symm

theorem represented {ops : List LogOp}
    (h : RaftLog.operations.Trace (fun log op => op.Admitted log) ops log) :
    log.Represents (ops.foldl LogOp.update (.reset 0 0)) := by
  induction h
  case init => exact RaftLog.represents_new
  case step ha hs hi =>
    obtain ⟨_, hs', hr⟩ := hi.step ha
    cases hs.symm.trans hs'
    rwa [List.foldl_concat]

theorem positions {ops : List LogOp}
    (h : RaftLog.operations.Trace (fun log op => op.Admitted log) ops log) :
    log.Represents (ops.foldl LogOp.update (.reset 0 0)) ∧
    Answers log (ops.foldl LogOp.update (.reset 0 0)) ∧
    (∀ op : LogOp, op.Admitted log → (op.apply log).isSome) ∧
    ∀ i t, log.termAt i = some t → SameAbove i log (log.compact i t) := by
  have hr := represented h
  refine ⟨hr, hr.answers, fun op ha => ?_, fun i t => hr.contiguous.sameAbove⟩
  obtain ⟨_, hs, _⟩ := hr.step ha
  exact Option.isSome_of_eq_some hs

-- Two entries, the first of which is compacted.
def compactOps : List LogOp :=
  [.append [{ index := 1, term := 1, command := [] }, { index := 2, term := 1, command := [7] }],
    .compact 1 1]

theorem positions_compact : Answers
    { sentinel := { index := 1, term := 1, command := [] }
      rest     := [{ index := 2, term := 1, command := [7] }] }
    (compactOps.foldl LogOp.update (.reset 0 0)) := by
  have h : RaftLog.operations.Trace (fun log op => op.Admitted log) compactOps _ :=
    .step (.step .init ⟨rfl, rfl, trivial⟩ rfl) (fun u hu => by cases hu; rfl) rfl
  exact (positions h).right.left

end RaftRupee
