import Mathlib.Data.List.Basic
import Mathlib.Order.Basic

namespace RaftRupee

-- The newtypes `Term` and `LogIndex` of `types.rs` wrap a `u64`, which we model by unbounded
-- naturals: `next` is `· + 1`, the saturating `prev` is `· - 1`, and both `Term::ZERO` and
-- `LogIndex::SENTINEL` are `0`.
abbrev NodeId := ℕ

-- The payload of a log entry and of a snapshot (`Vec<u8>`).
abbrev Command := List UInt8

@[ext]
structure LogEntry where
  index   : ℕ
  term    : ℕ
  command : Command
  deriving DecidableEq, Repr

structure SnapshotMeta where
  lastIncludedIndex : ℕ
  lastIncludedTerm  : ℕ
  deriving DecidableEq, Repr

inductive MessageKind
  | requestVote (lastLogIndex : ℕ) (lastLogTerm : ℕ)
  | requestVoteResponse (voteGranted : Bool)
  | preVote (lastLogIndex : ℕ) (lastLogTerm : ℕ)
  | preVoteResponse (voteGranted : Bool)
  | appendEntries (prevLogIndex : ℕ) (prevLogTerm : ℕ) (entries : List LogEntry)
      (leaderCommit : ℕ)
  | appendEntriesResponse (success : Bool) (conflictTerm : Option ℕ)
      (conflictIndex : Option ℕ)
  | installSnapshot (lastIncludedIndex : ℕ) (lastIncludedTerm : ℕ) (offset : ℕ)
      (data : Command) (done : Bool)
  | installSnapshotResponse
  | clientRequest (command : Command)
  | clientResponse (success : Bool) (leaderHint : Option NodeId)
  deriving DecidableEq, Repr

-- `from` and `to` are tokens of Lean, hence `sender` and `receiver`.
@[ext]
structure Message where
  sender   : NodeId
  receiver : NodeId
  term     : ℕ
  kind     : MessageKind
  deriving DecidableEq, Repr

namespace MessageKind

-- The two guards at the top of `RaftNode::step`: these messages pass by the term gate.
def isPreVote : MessageKind → Bool
  | preVote .. | preVoteResponse .. => true
  | _ => false

def isClient : MessageKind → Bool
  | clientRequest .. | clientResponse .. => true
  | _ => false

end MessageKind
end RaftRupee
