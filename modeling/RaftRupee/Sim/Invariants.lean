import Mathlib.Data.List.Chain
import Mathlib.Data.List.Pairwise
import RaftRupee.Lib.Checker
import RaftRupee.Core.Contiguous
import RaftRupee.Sim.Storage

namespace RaftRupee

-- A `HashMap<NodeId, RaftNode>`, listed in the order in which its iterators yield it.
structure Nodes where
  list  : List (NodeId × RaftNode)
  nodup : (list.map (·.1)).Nodup

def Nodes.values (nodes : Nodes) : List RaftNode :=
  nodes.list.map (·.2)

-- The safety checker of the simulator. Its maps are only read by key and inserted into.
@[ext]
structure SafetyInvariants where
  termLeaders      : ℕ → Option NodeId
  committedEntries : ℕ → Option (ℕ × Command)

namespace SafetyInvariants

-- Errors are texts, and `?` passes them on, so that nobody reads the maps after an error.
abbrev Check := Except String SafetyInvariants

def new : SafetyInvariants where
  termLeaders _      := none
  committedEntries _ := none

def checkLeader (inv : SafetyInvariants) (node : RaftNode) : Check :=
  if node.role = .leader then
    match inv.termLeaders node.currentTerm with
    | some leader =>
      if leader ≠ node.id then
        .error <| s!"ELECTION SAFETY VIOLATION: Nodes {leader} and {node.id} " ++
          s!"both claim leadership in Term {node.currentTerm}"
      else
        .ok inv
    | none =>
      .ok { inv with
        termLeaders := Function.update inv.termLeaders node.currentTerm (some node.id) }
  else
    .ok inv

def checkElectionSafety (inv : SafetyInvariants) (nodes : Nodes) : Check :=
  nodes.values.foldlM checkLeader inv

-- One round of the loop over the indices. The terms that `term_at` yields are those of the entries,
-- so both entries can be unwrapped once the terms are found and equal.
def compareAt (n₁ n₂ : RaftNode) (index : ℕ) : Except String PUnit :=
  match n₁.log.entryAt index, n₂.log.entryAt index with
  | some e₁, some e₂ =>
    if e₁.term = e₂.term then
      if index > n₁.log.firstIndex ∧ index > n₂.log.firstIndex ∧ e₁.command ≠ e₂.command then
        .error <| s!"LOG MATCHING VIOLATION: Node {n₁.id} and Node {n₂.id} match " ++
          s!"at index {index} term Some(T{e₁.term}), but commands differ!"
      else
        .ok ⟨⟩
    else
      .ok ⟨⟩
  | _, _ => .ok ⟨⟩

def compareLogs (n₁ n₂ : RaftNode) : Except String PUnit :=
  (List.range' 1 (min n₁.log.lastIndex n₂.log.lastIndex)).forM (compareAt n₁ n₂)

-- The two nested loops, over the pairs with `i < j`.
def comparePairs : List RaftNode → Except String PUnit
  | []         => .ok ⟨⟩
  | n₁ :: rest => do
    rest.forM (compareLogs n₁)
    comparePairs rest

def checkLogMatching (_inv : SafetyInvariants) (nodes : Nodes) : Except String PUnit :=
  comparePairs nodes.values

def checkLeaderAppendOnly (_inv : SafetyInvariants) (_nodes : Nodes) : Except String PUnit :=
  .ok ⟨⟩

-- One round of the inner loop of `check_state_machine_safety`.
def checkAppliedAt (node : RaftNode) (inv : SafetyInvariants) (index : ℕ) : Check :=
  match node.log.entryAt index with
  | none       => .ok inv
  | some entry =>
    if entry.command = [] then
      .ok inv
    else
      match inv.committedEntries index with
      | some (term, cmd) =>
        if term ≠ entry.term ∨ cmd ≠ entry.command then
          .error <| s!"STATE MACHINE SAFETY VIOLATION: Node {node.id} applied command index " ++
            s!"{index} with Term {entry.term}, but index was already committed with Term {term}"
        else
          .ok inv
      | none =>
        .ok { inv with
          committedEntries :=
            Function.update inv.committedEntries index (some (entry.term, entry.command)) }

-- With `last_applied` at the sentinel there are no indices to go through.
def checkApplied (inv : SafetyInvariants) (node : RaftNode) : Check :=
  (List.range' 1 node.lastApplied).foldlM (checkAppliedAt node) inv

def checkStateMachineSafety (inv : SafetyInvariants) (nodes : Nodes) : Check :=
  nodes.values.foldlM checkApplied inv

def verifySafety (inv : SafetyInvariants) (nodes : Nodes) : Check := do
  let inv ← inv.checkElectionSafety nodes
  inv.checkLogMatching nodes
  inv.checkLeaderAppendOnly nodes
  inv.checkStateMachineSafety nodes

-- Every call on this sequence of cluster states returns `Ok`.
def Passes (calls : List Nodes) : Prop :=
  (calls.foldlM verifySafety new).isOk

instance (calls : List Nodes) : Decidable (Passes calls) :=
  inferInstanceAs (Decidable (_ = true))

/-! ### What an accepted state leaves on record -/

-- States grow by learning leaders and committed entries.
instance : Preorder SafetyInvariants where
  le inv inv'                := Registry.Extends inv'.termLeaders inv.termLeaders ∧
    Registry.Extends inv'.committedEntries inv.committedEntries
  le_refl _                  := ⟨.refl _, .refl _⟩
  le_trans _ _ _ h h'        := ⟨h'.left.trans h.left, h'.right.trans h.right⟩

variable {inv inv' : SafetyInvariants} {nodes nodes' : Nodes} {node n₁ n₂ : RaftNode} {index : ℕ}

def LeaderRecorded (node : RaftNode) (inv : SafetyInvariants) : Prop :=
  node.role = .leader → inv.termLeaders node.currentTerm = some node.id

def EntryRecorded (node : RaftNode) (index : ℕ) (inv : SafetyInvariants) : Prop :=
  ∀ entry, node.log.entryAt index = some entry → entry.command ≠ [] →
    inv.committedEntries index = some (entry.term, entry.command)

def AppliedRecorded (node : RaftNode) (inv : SafetyInvariants) : Prop :=
  ∀ index ∈ List.range' 1 node.lastApplied, EntryRecorded node index inv

theorem checkLeader_cases (h : inv.checkLeader node = .ok inv') :
    LeaderRecorded node inv' ∧ inv ≤ inv' := by
  rw [checkLeader] at h
  split at h
  case isFalse hr =>
    cases h
    exact ⟨fun hl => absurd hl hr, le_refl _⟩
  case isTrue hr =>
    split at h
    case h_1 leader hl =>
      split at h
      case isTrue => contradiction
      case isFalse hn =>
        cases h
        exact ⟨fun _ => hl.trans <| congrArg some <| not_not.mp hn, le_refl _⟩
    case h_2 hl =>
      cases h
      exact ⟨fun _ => Function.update_self .., Registry.extends_update _ hl, .refl _⟩

theorem checkLeader_records : Checker.Records checkLeader LeaderRecorded where
  le h          := (checkLeader_cases h).right
  record h      := (checkLeader_cases h).left
  mono h hs hr  := h.left _ _ (hs hr)

theorem checkAppliedAt_cases (h : inv.checkAppliedAt node index = .ok inv') :
    EntryRecorded node index inv' ∧ inv ≤ inv' := by
  rw [checkAppliedAt] at h
  split at h
  case h_1 hn =>
    cases h
    exact ⟨fun _ he => by simp [hn] at he, le_refl _⟩
  case h_2 entry he =>
    have recorded : ∀ {inv : SafetyInvariants},
        (entry.command ≠ [] → inv.committedEntries index = some (entry.term, entry.command)) →
        EntryRecorded node index inv := by
      intro inv hc entry' he'
      cases he.symm.trans he'
      exact hc
    split at h
    case isTrue hc =>
      cases h
      exact ⟨recorded fun hn => absurd hc hn, le_refl _⟩
    case isFalse hc =>
      split at h
      case h_1 term cmd hr =>
        split at h
        case isTrue => contradiction
        case isFalse hn =>
          cases h
          obtain ⟨rfl, rfl⟩ : term = entry.term ∧ cmd = entry.command := by simpa using hn
          exact ⟨recorded fun _ => hr, le_refl _⟩
      case h_2 hr =>
        cases h
        exact ⟨recorded fun _ => Function.update_self .., .refl _, Registry.extends_update _ hr⟩

theorem checkAppliedAt_records (node : RaftNode) :
    Checker.Records (checkAppliedAt node) (EntryRecorded node) where
  le h               := (checkAppliedAt_cases h).right
  record h           := (checkAppliedAt_cases h).left
  mono h hs e he hc  := h.right _ _ (hs e he hc)

theorem checkApplied_records : Checker.Records checkApplied AppliedRecorded where
  le {_ node _} h      := (checkAppliedAt_records node).foldlM.le h
  record {_ node _} h  := (checkAppliedAt_records node).foldlM.record h
  mono {node _ _}      := (checkAppliedAt_records node).foldlM.mono

/-! ### What an accepted state agrees on -/

end SafetyInvariants

-- The log has an entry at an index above its base.
structure RaftLog.Holds (log : RaftLog) (index : ℕ) (entry : LogEntry) : Prop where
  entry : log.entryAt index = some entry
  above : log.firstIndex < index

namespace SafetyInvariants

variable {inv inv' : SafetyInvariants} {nodes nodes' : Nodes} {node n₁ n₂ : RaftNode} {index : ℕ}

def CommandsMatch (n₁ n₂ : RaftNode) : Prop :=
  ∀ i e₁ e₂, n₁.log.Holds i e₁ → n₂.log.Holds i e₂ → i ≤ min n₁.log.lastIndex n₂.log.lastIndex →
    e₁.term = e₂.term → e₁.command = e₂.command

instance : Std.Symm CommandsMatch where
  symm _ n₂ h i e₁ e₂ h₁ h₂ hi ht :=
    (h i e₂ e₁ h₂ h₁ (min_comm n₂.log.lastIndex _ ▸ hi) ht.symm).symm

theorem CommandsMatch.refl (node : RaftNode) : CommandsMatch node node := by
  intro i e₁ e₂ h₁ h₂ _ _
  rw [Option.some.inj <| h₁.entry.symm.trans h₂.entry]

theorem compareLogs_ok (h : compareLogs n₁ n₂ = .ok ⟨⟩) : CommandsMatch n₁ n₂ := by
  intro i e₁ e₂ h₁ h₂ hi ht
  have := h₁.above
  have hc := Checker.forM_ok.mp h i <| by
    rw [List.mem_range'_1]
    omega
  rw [compareAt, h₁.entry, h₂.entry] at hc
  simp only [ht, if_true] at hc
  by_contra hn
  rw [if_pos ⟨h₁.above, h₂.above, hn⟩] at hc
  contradiction

theorem comparePairs_ok {ns : List RaftNode} (h : comparePairs ns = .ok ⟨⟩) :
    ns.Pairwise CommandsMatch := by
  induction ns
  case nil => exact .nil
  case cons n ns hi =>
    rw [comparePairs] at h
    obtain ⟨_, hf, h⟩ := Checker.bind_ok.mp h
    exact .cons (fun n' hn => compareLogs_ok <| Checker.forM_ok.mp hf n' hn) (hi h)

-- What an accepted call leaves behind: in the state of the checker, and about the nodes themselves.
structure Accepted (nodes : Nodes) (inv : SafetyInvariants) : Prop where
  leader   : ∀ node ∈ nodes.values, LeaderRecorded node inv
  applied  : ∀ node ∈ nodes.values, AppliedRecorded node inv
  commands : nodes.values.Pairwise CommandsMatch

theorem verifySafety_records : Checker.Records verifySafety Accepted := by
  have parts : ∀ {inv inv' : SafetyInvariants} {nodes}, inv.verifySafety nodes = .ok inv' →
      ∃ inv₁, inv.checkElectionSafety nodes = .ok inv₁ ∧ comparePairs nodes.values = .ok ⟨⟩ ∧
        inv₁.checkStateMachineSafety nodes = .ok inv' := by
    intro inv inv' nodes h
    obtain ⟨inv₁, he, h⟩ := Checker.bind_ok.mp h
    obtain ⟨_, hm, h⟩ := Checker.bind_ok.mp h
    obtain ⟨_, _, h⟩ := Checker.bind_ok.mp h
    exact ⟨inv₁, he, hm, h⟩
  constructor
  case le =>
    intro inv nodes inv' h
    obtain ⟨inv₁, he, _, hs⟩ := parts h
    exact (checkLeader_records.foldlM.le he).trans <| checkApplied_records.foldlM.le hs
  case record =>
    intro inv nodes inv' h
    obtain ⟨inv₁, he, hm, hs⟩ := parts h
    exact {
      leader   := checkLeader_records.foldlM.mono (checkApplied_records.foldlM.le hs) <|
        checkLeader_records.foldlM.record he
      applied  := checkApplied_records.foldlM.record hs
      commands := comparePairs_ok hm }
  case mono =>
    intro nodes inv inv' hl h
    exact {
      leader   := checkLeader_records.foldlM.mono hl h.leader
      applied  := checkApplied_records.foldlM.mono hl h.applied
      commands := h.commands }

theorem Passes.accepted {calls : List Nodes} (h : Passes calls) :
    ∃ inv, ∀ nodes ∈ calls, Accepted nodes inv := by
  rw [Passes] at h
  cases hf : calls.foldlM verifySafety new
  case error => simp [hf, Except.isOk, Except.toBool] at h
  case ok inv => exact ⟨inv, verifySafety_records.foldlM.record hf⟩

/-! ### State machine safety -/

-- The node has applied the entry at `index`, and holds it uncompacted.
structure Applies (node : RaftNode) (index : ℕ) (entry : LogEntry) : Prop extends
    node.log.Holds index entry where
  applied : index ≤ node.lastApplied

theorem Accepted.recorded {p : NodeId × RaftNode} {e : LogEntry} (h : Accepted nodes inv)
    (hp : p ∈ nodes.list) (he : Applies p.2 index e) (hc : e.command ≠ []) :
    inv.committedEntries index = some (e.term, e.command) := by
  have hi : index ∈ List.range' 1 p.2.lastApplied := by
    have := he.above
    have := he.applied
    rw [List.mem_range'_1]
    omega
  exact h.applied p.2 (List.mem_map_of_mem hp) index hi e he.entry hc

-- What is applied at an index by any two nodes, at any two calls.
def AppliedAlike (calls : List Nodes) (Counts : LogEntry → Prop) : Prop :=
  ∀ nodes ∈ calls, ∀ nodes' ∈ calls, ∀ p ∈ nodes.list, ∀ p' ∈ nodes'.list, ∀ index e e',
    Applies p.2 index e → Applies p'.2 index e' → Counts e → Counts e' →
    e.term = e'.term ∧ e.command = e'.command

theorem Passes.recorded {calls : List Nodes} (h : Passes calls) :
    ∃ committed : ℕ → Option (ℕ × Command), ∀ nodes ∈ calls, ∀ p ∈ nodes.list, ∀ index e,
      Applies p.2 index e → e.command ≠ [] → committed index = some (e.term, e.command) := by
  obtain ⟨inv, h⟩ := h.accepted
  exact ⟨inv.committedEntries, fun nodes hn p hp index e => (h nodes hn).recorded hp⟩

theorem applied_alike (calls : List Nodes) (h : Passes calls) :
    AppliedAlike calls fun e => e.command ≠ [] := by
  obtain ⟨committed, h⟩ := h.recorded
  intro nodes hn nodes' hn' p hp p' hp' index e e' he he' hc hc'
  have hr := h nodes hn p hp index e he hc
  have hr' := h nodes' hn' p' hp' index e' he' hc'
  simpa using hr.symm.trans hr'

-- A node of a cluster of two with the given entries, which it has applied up to `lastApplied`.
def replica (id : NodeId) (role : Role) (term : ℕ) (entries : List LogEntry) (lastApplied : ℕ) :
    NodeId × RaftNode :=
  let config := Config.simulated id [3 - id] { draws := fun _ => 0 }
  let log := RaftLog.restore { lastIncludedIndex := 0, lastIncludedTerm := 0 } entries
  (id, { RaftNode.restore config term none log lastApplied lastApplied with role })

-- Two nodes of term 2 with these logs, applied up to `lastApplied`; the first one is the leader.
def pair (es es' : List LogEntry) (lastApplied : ℕ) : Nodes where
  list  := [replica 1 .leader 2 es lastApplied, replica 2 .follower 2 es' lastApplied]
  nodup := by simp [replica]

-- One node applies the no-op of term 1, the other one a command of term 2.
theorem not_applied_alike : ¬∀ calls, Passes calls → AppliedAlike calls fun _ => True := by
  intro h
  let nodes := pair [{ index := 1, term := 1, command := [] }]
    [{ index := 1, term := 2, command := [7] }] 1
  have hp : Passes [nodes] := by decide +kernel
  have := h [nodes] hp nodes (by simp) nodes (by simp) _ (List.mem_cons_self ..) _
    (List.mem_cons_of_mem _ <| List.mem_cons_self ..) 1 { index := 1, term := 1, command := [] }
    { index := 1, term := 2, command := [7] } ⟨⟨rfl, by decide⟩, by decide⟩
    ⟨⟨rfl, by decide⟩, by decide⟩ trivial trivial
  exact absurd this.left (by decide)

theorem applied_alike_pair :
    AppliedAlike [pair [{ index := 1, term := 2, command := [7] }]
      [{ index := 1, term := 2, command := [7] }] 1] fun e => e.command ≠ [] :=
  applied_alike _ (by decide +kernel)

/-! ### Log matching, leader append-only -/

-- Two logs with an entry of the same term at some index, and what is demanded of the entries below.
def MatchBelow (nodes : Nodes) (R : RaftNode → RaftNode → ℕ → LogEntry → LogEntry → Prop) : Prop :=
  ∀ p ∈ nodes.list, ∀ p' ∈ nodes.list, ∀ i e e', p.2.log.Holds i e → p'.2.log.Holds i e' →
    e.term = e'.term → ∀ j < i, ∀ f f', p.2.log.Holds j f → p'.2.log.Holds j f' → R p.2 p'.2 j f f'

def LogMatching (nodes : Nodes) : Prop :=
  MatchBelow nodes fun _ _ _ f f' => f.term = f'.term ∧ f.command = f'.command

-- The entries that a node which is the leader of one term at both calls must not have lost.
def LeaderKeeps (P : RaftNode → RaftNode → ℕ → Prop) (nodes nodes' : Nodes) : Prop :=
  ∀ p ∈ nodes.list, ∀ p' ∈ nodes'.list, p.1 = p'.1 → p.2.role = .leader → p'.2.role = .leader →
    p.2.currentTerm = p'.2.currentTerm → ∀ i e, p.2.log.Holds i e → p'.2.log.firstIndex < i →
    P p.2 p'.2 i → ∃ e', p'.2.log.Holds i e' ∧ e.term = e'.term ∧ e.command = e'.command

def LeaderAppendOnly : Nodes → Nodes → Prop :=
  LeaderKeeps fun _ _ _ => True

-- The properties in the state of every call, and between successive calls.
structure LogsSafe (calls : List Nodes) : Prop where
  matching   : ∀ nodes ∈ calls, LogMatching nodes
  appendOnly : calls.IsChain LeaderAppendOnly

-- An entry that both states apply, and that the checker therefore compares.
def Compared (node node' : RaftNode) (i : ℕ) : Prop :=
  ∃ e e', Applies node i e ∧ Applies node' i e' ∧ e.command ≠ [] ∧ e'.command ≠ []

-- What remains of the properties where the checker does not look. The indices beyond the `last_index`
-- of a log do not exist when its entries are contiguous.
structure UncheckedSafe (calls : List Nodes) : Prop where
  matching   : ∀ nodes ∈ calls, MatchBelow nodes fun n n' j f f' =>
    f.term = f'.term ∧ (min n.log.lastIndex n'.log.lastIndex < j → f.command = f'.command)
  appendOnly : calls.IsChain <| LeaderKeeps fun n n' i => ¬Compared n n' i

theorem Accepted.commandsMatch {p p' : NodeId × RaftNode} (h : Accepted nodes inv)
    (hp : p ∈ nodes.list) (hp' : p' ∈ nodes.list) : CommandsMatch p.2 p'.2 :=
  List.Pairwise.forall_of_forall (fun n _ => .refl n) h.commands (List.mem_map_of_mem hp)
    (List.mem_map_of_mem hp')

theorem Accepted.logMatching (h : Accepted nodes inv)
    (hm : MatchBelow nodes fun n n' j f f' =>
      f.term = f'.term ∧ (min n.log.lastIndex n'.log.lastIndex < j → f.command = f'.command)) :
    LogMatching nodes := by
  intro p hp p' hp' i e e' he he' ht j hj f f' hf hf'
  obtain ⟨ht, hc⟩ := hm p hp p' hp' i e e' he he' ht j hj f f' hf hf'
  refine ⟨ht, ?_⟩
  rcases Nat.lt_or_ge (min p.2.log.lastIndex p'.2.log.lastIndex) j with hl | hl
  case inl => exact hc hl
  case inr => exact h.commandsMatch hp hp' j f f' hf hf' hl ht

-- Entries that are compared are equal, so those that are not decide.
theorem leaderAppendOnly_iff {committed : ℕ → Option (ℕ × Command)}
    (h : ∀ p ∈ nodes.list, ∀ i e, Applies p.2 i e → e.command ≠ [] →
      committed i = some (e.term, e.command))
    (h' : ∀ p ∈ nodes'.list, ∀ i e, Applies p.2 i e → e.command ≠ [] →
      committed i = some (e.term, e.command)) :
    LeaderAppendOnly nodes nodes' ↔ LeaderKeeps (fun n n' i => ¬Compared n n' i) nodes nodes' := by
  constructor <;> intro hk p hp p' hp' hid hr hr' ht i e he hb hc
  case mp => exact hk p hp p' hp' hid hr hr' ht i e he hb trivial
  case mpr =>
    by_cases hc : Compared p.2 p'.2 i
    case neg => exact hk p hp p' hp' hid hr hr' ht i e he hb hc
    case pos =>
      obtain ⟨f, f', hf, hf', hn, hn'⟩ := hc
      obtain rfl := Option.some.inj <| he.entry.symm.trans hf.entry
      have := (h p hp i e hf hn).symm.trans (h' p' hp' i f' hf' hn')
      exact ⟨f', hf'.toHolds, by simpa using this⟩

theorem logs_safe_iff (calls : List Nodes) (h : Passes calls) :
    LogsSafe calls ↔ UncheckedSafe calls := by
  obtain ⟨committed, hc⟩ := h.recorded
  obtain ⟨inv, ha⟩ := h.accepted
  have chain : calls.IsChain LeaderAppendOnly ↔
      calls.IsChain (LeaderKeeps fun n n' i => ¬Compared n n' i) :=
    List.IsChain.iff_of_mem_imp fun _ _ hn hn' => leaderAppendOnly_iff (hc _ hn) (hc _ hn')
  constructor <;> intro hs
  case mp =>
    refine ⟨fun nodes hn p hp p' hp' i e e' he he' ht j hj f f' hf hf' => ?_, chain.mp hs.appendOnly⟩
    obtain ⟨ht, hc⟩ := hs.matching nodes hn p hp p' hp' i e e' he he' ht j hj f f' hf hf'
    exact ⟨ht, fun _ => hc⟩
  case mpr =>
    exact ⟨fun nodes hn => (ha nodes hn).logMatching (hs.matching nodes hn), chain.mpr hs.appendOnly⟩

-- The same entry at index 2 above entries of different terms; a leader that loses its only entry.
theorem not_logs_safe :
    (¬∀ calls, Passes calls → ∀ nodes ∈ calls, LogMatching nodes) ∧
    ¬∀ calls, Passes calls → calls.IsChain LeaderAppendOnly := by
  constructor <;> intro h
  case left =>
    let top : LogEntry := { index := 2, term := 3, command := [2] }
    let nodes := pair [{ index := 1, term := 1, command := [1] }, top]
      [{ index := 1, term := 2, command := [9] }, top] 0
    have hp : Passes [nodes] := by decide +kernel
    have := h [nodes] hp nodes (by simp) _ (List.mem_cons_self ..) _
      (List.mem_cons_of_mem _ <| List.mem_cons_self ..) 2 top top ⟨rfl, by decide⟩ ⟨rfl, by decide⟩
      rfl 1 (by decide) { index := 1, term := 1, command := [1] }
      { index := 1, term := 2, command := [9] } ⟨rfl, by decide⟩ ⟨rfl, by decide⟩
    exact absurd this.left (by decide)
  case right =>
    let entry : LogEntry := { index := 1, term := 2, command := [5] }
    have hp : Passes [pair [entry] [] 0, pair [] [] 0] := by decide +kernel
    have hk := (List.isChain_pair.mp <| h _ hp) _ (List.mem_cons_self ..) _ (List.mem_cons_self ..)
      rfl rfl rfl rfl 1 entry ⟨rfl, by decide⟩ (by decide) trivial
    obtain ⟨e, he, _⟩ := hk
    exact absurd he.entry (by simp [replica, RaftNode.restore, RaftLog.restore,
      RaftLog.entryAt, RaftLog.firstIndex, RaftLog.entries])

-- The leader appends an entry on top of one that both nodes have applied.
theorem logs_safe_iff_pair :
    let old : LogEntry := { index := 1, term := 1, command := [5] }
    let new : LogEntry := { index := 2, term := 2, command := [] }
    LogsSafe [pair [old] [old] 1, pair [old, new] [old] 1] ↔
      UncheckedSafe [pair [old] [old] 1, pair [old, new] [old] 1] :=
  logs_safe_iff _ (by decide +kernel)

end SafetyInvariants
end RaftRupee
