import Mathlib.Logic.Function.Basic
import RaftRupee.Lib.Replication.Entry
import RaftRupee.Lib.Quorum

-- Replication of a log by a sequence of terms, each of which has at most one leader. A state holds
-- complete logs only: an index is the length of a prefix, and nothing is ever compacted.
namespace Replication

open Entry

structure State (N E : Type*) where
  -- The current term and the log of each node.
  term  : N → ℕ
  log   : N → List E
  -- The log of the leader of each term, empty while the term has no leader.
  line  : ℕ → List E
  -- How much of the log of a term's leader a node has acknowledged in that term.
  acked : N → ℕ → ℕ
  -- A node has, in some term, given its vote to a candidate with some log.
  backs : N → ℕ → List E → Prop

variable {N E : Type*} [DecidableEq N] [Entry E]

-- The election restriction.
def UpToDate (candidate voter : List E) : Prop :=
  lastTerm voter < lastTerm candidate ∨
    lastTerm voter = lastTerm candidate ∧ voter.length ≤ candidate.length

-- Each entry of the log came, with all that is below it, from the leader of its term.
def Matches (line : ℕ → List E) (log : List E) : Prop :=
  ∀ k e, log[k]? = some e → log.take (k + 1) <+: line (term e)

namespace State

variable (g : State N E)

def bump (n : N) (T : ℕ) : State N E :=
  { g with term := Function.update g.term n T }

def back (n : N) (T : ℕ) (log : List E) : State N E :=
  { g with backs := fun n' T' log' => g.backs n' T' log' ∨ (n' = n ∧ T' = T ∧ log' = log) }

def extend (T : ℕ) (log : List E) : State N E :=
  { g with line := Function.update g.line T log }

def ack (n : N) (T k : ℕ) : State N E :=
  { g with
    acked := fun n' T' => if n' = n ∧ T' = T then max (g.acked n' T') k else g.acked n' T' }

def setLog (n : N) (log : List E) : State N E :=
  { g with log := Function.update g.log n log }

end State

inductive Step (Q : QuorumSystem N) (g : State N E) : State N E → Prop
  | bump {n T} : g.term n ≤ T → Step Q g (g.bump n T)
  | back {n T log} :
    g.term n = T → Matches g.line log → (∀ e ∈ log, term e < T) → UpToDate log (g.log n) →
    Step Q g (g.back n T log)
  | elect {T log e q} :
    g.line T = [] → Matches g.line log → (∀ x ∈ log, term x < T) → term e = T → 0 < T →
    q ∈ Q → (∀ n ∈ q, g.backs n T log) → Step Q g (g.extend T (log ++ [e]))
  | append {T e} :
    g.line T ≠ [] → 0 < T → term e = T → Step Q g (g.extend T (g.line T ++ [e]))
  | keep {n T k} :
    g.term n = T → k ≤ (g.line T).length → (g.line T).take k <+: g.log n →
    Step Q g (g.ack n T k)
  -- A node never gives up entries that follow a prefix it already shares with the leader.
  | replace {n T k} :
    g.term n = T → 0 < k → k ≤ (g.line T).length →
    ((g.log n).length ≤ k ∨ ¬((g.line T).take k <+: g.log n)) →
    Step Q g ((g.setLog n ((g.line T).take k)).ack n T k)

def init : State N E where
  term _      := 0
  log _       := []
  line _      := []
  acked _ _   := 0
  backs _ _ _ := False

end Replication
