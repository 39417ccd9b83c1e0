import RaftRupee.Core.Message

namespace RaftRupee

-- The Raft log of `log.rs`, using the sentinel convention: the source's `entries` vector is never
-- empty, and `entries[0]` is the sentinel (the snapshot base). We keep the sentinel apart from the
-- rest of the vector, so that an empty log cannot be built and `entries[0]` is always defined.
@[ext]
structure RaftLog where
  sentinel : LogEntry
  rest     : List LogEntry
  deriving DecidableEq, Repr

namespace RaftLog

def entries (log : RaftLog) : List LogEntry :=
  log.sentinel :: log.rest

def new : RaftLog where
  sentinel := { index := 0, term := 0, command := [] }
  rest     := []

def restore (snap : SnapshotMeta) (entries : List LogEntry) : RaftLog where
  sentinel := { index := snap.lastIncludedIndex, term := snap.lastIncludedTerm, command := [] }
  rest     := entries

def last (log : RaftLog) : LogEntry :=
  log.rest.getLastD log.sentinel

def lastIndex (log : RaftLog) : ℕ :=
  log.last.index

def lastTerm (log : RaftLog) : ℕ :=
  log.last.term

def firstIndex (log : RaftLog) : ℕ :=
  log.sentinel.index

-- `checked_sub` fails below the base, and `get` past the end of the vector.
def entryAt (log : RaftLog) (index : ℕ) : Option LogEntry :=
  if index < log.firstIndex then none else log.entries[index - log.firstIndex]?

def termAt (log : RaftLog) (index : ℕ) : Option ℕ :=
  (log.entryAt index).map (·.term)

def append (log : RaftLog) (entries : List LogEntry) : RaftLog :=
  { log with rest := log.rest ++ entries }

-- Fails where the source's assertion does. The first `from - base ≥ 1` elements of the vector that
-- are kept include the sentinel.
def truncateAndAppend (log : RaftLog) (fromIndex : ℕ) (entries : List LogEntry) :
    Option RaftLog :=
  if fromIndex > log.firstIndex then
    some { log with rest := log.rest.take (fromIndex - log.firstIndex - 1) ++ entries }
  else
    none

def entriesFrom (log : RaftLog) (startIndex : ℕ) : List LogEntry :=
  if startIndex ≤ log.firstIndex then log.rest else log.entries.drop (startIndex - log.firstIndex)

def snapshotMeta (log : RaftLog) : Option SnapshotMeta :=
  if log.sentinel.index = 0 then
    none
  else
    some { lastIncludedIndex := log.sentinel.index, lastIncludedTerm := log.sentinel.term }

def compact (log : RaftLog) (lastIncludedIndex : ℕ) (lastIncludedTerm : ℕ) : RaftLog :=
  if lastIncludedIndex ≤ log.firstIndex then
    log
  else
    let offset := lastIncludedIndex - log.firstIndex
    let base : LogEntry := { index := lastIncludedIndex, term := lastIncludedTerm, command := [] }
    if offset ≥ log.entries.length then
      { sentinel := base, rest := [] }
    else
      -- `suffix = entries.split_off(offset)`, whose first element becomes the new sentinel.
      { sentinel := base, rest := (log.entries.drop offset).tail }

-- `install_snapshot` clears the vector before it pushes the new sentinel.
def installSnapshot (_log : RaftLog) (snap : SnapshotMeta) : RaftLog where
  sentinel := { index := snap.lastIncludedIndex, term := snap.lastIncludedTerm, command := [] }
  rest     := []

def len (log : RaftLog) : ℕ :=
  log.entries.length - 1

end RaftLog
end RaftRupee
