import Mathlib.Data.Finmap
import Mathlib.Data.Finset.Sort
import RaftRupee.Sim.Network
import RaftRupee.Sim.Storage

namespace RaftRupee

-- The order in which a standard `HashMap` yields its keys.
structure KeyOrder where
  keys       : Finset NodeId → List NodeId
  nodup_keys : ∀ ids, (keys ids).Nodup
  mem_keys   : ∀ ids id, id ∈ keys ids ↔ id ∈ ids

-- The keys `ids` come in this order.
def KeyOrder.like (ids : List NodeId) (h : ids.Nodup) : KeyOrder where
  keys s       := if s = ids.toFinset then ids else s.sort (· ≤ ·)
  nodup_keys s := by
    split
    case isTrue  => exact h
    case isFalse => exact s.sort_nodup _
  mem_keys s id := by
    split
    case isTrue hs => simp [hs]
    case isFalse   => exact s.mem_sort _

-- The simulator but for its checker, which only reads the nodes.
@[ext]
structure Simulator (H : BinaryHeap) where
  rng         : SmallRng
  nodes       : Finmap fun _ : NodeId => RaftNode
  disks       : Finmap fun _ : NodeId => StableDisk
  network     : SimNetwork H
  tickCount   : ℕ
  nodeConfigs : List Config

namespace Simulator

variable {H : BinaryHeap}

def spawnNode (sim : Simulator H) (id : NodeId) : Option (Simulator H) := do
  let config ← sim.nodeConfigs.find? (·.id = id)
  let disk ← sim.disks.lookup id
  let node ← disk.spawnNode config
  some { sim with nodes := sim.nodes.insert id node }

def crashNode (sim : Simulator H) (id : NodeId) : Simulator H :=
  { sim with nodes := sim.nodes.erase id }

-- `disks.get_mut(&id).unwrap()`, and then what is done to the disk.
def withDisk (id : NodeId) (write : StableDisk → Option StableDisk) (sim : Simulator H) :
    Option (Simulator H) := do
  let disk ← sim.disks.lookup id
  let disk ← write disk
  some { sim with disks := sim.disks.insert id disk }

def send (sim : Simulator H) (msg : Message) : Simulator H :=
  { sim with
    network := (sim.network.send msg sim.tickCount sim.rng).1
    rng     := (sim.network.send msg sim.tickCount sim.rng).2 }

-- One round of `process_actions`.
def processAction (id : NodeId) (sim : Simulator H) : Action → Option (Simulator H)
  | .send msg => some (sim.send msg)
  | .appendEntries es => sim.withDisk id (·.appendEntries es)
  | .truncateAndAppend i es => sim.withDisk id (·.truncateAndAppend i es)
  | .persistHardState term votedFor => sim.withDisk id (some <| ·.writeHardState term votedFor)
  | .apply _ => some sim
  | .persistSnapshot i t data =>
    sim.withDisk id (·.writeSnapshot { lastIncludedIndex := i, lastIncludedTerm := t } data)

def processActions (id : NodeId) (sim : Simulator H) (actions : List Action) :
    Option (Simulator H) :=
  actions.foldlM (processAction id) sim

-- The node at `id` has made a call, and its actions are processed.
def react (id : NodeId) (outcome : Outcome) (sim : Simulator H) : Option (Simulator H) :=
  processActions id { sim with nodes := sim.nodes.insert id outcome.1 } outcome.2

-- What each of the three loops of `step` does to a node that is alive.
def visit (call : RaftNode → Option Outcome) (sim : Simulator H) (id : NodeId) :
    Option (Simulator H) :=
  match (sim.nodes.lookup id).bind call with
  | none         => some sim
  | some outcome => sim.react id outcome

def tickCall (node : RaftNode) : Option Outcome :=
  some node.tick

def compactionData : Command :=
  "snapshot-data-compaction".toList.map (.ofNat ·.toNat)

def compactCall (node : RaftNode) : Option Outcome :=
  if node.log.len > 15 then
    some <| node.compactLogs node.commitIndex ((node.log.termAt node.commitIndex).getD 0)
      compactionData
  else
    none

-- `RaftNode::step` can panic, unlike the calls of the other two loops.
def deliver (sim : Simulator H) (msg : Message) : Option (Simulator H) :=
  match sim.nodes.lookup msg.receiver with
  | none      => some sim
  | some node => do
    let outcome ← node.step msg
    sim.react msg.receiver outcome

def deliverDue (sim : Simulator H) : Option (Simulator H) :=
  let sim := { sim with tickCount := sim.tickCount + 1 }
  let (due, network) := sim.network.drainDue sim.tickCount
  due.foldlM deliver { sim with network }

-- A loop over `nodes.keys()`.
def visitAll (order : KeyOrder) (call : RaftNode → Option Outcome) (sim : Simulator H) :
    Option (Simulator H) :=
  (order.keys sim.nodes.keys).foldlM (visit call) sim

-- The loops that tick and compact take the keys in orders of their own.
def step (sim : Simulator H) (ticks compactions : KeyOrder) : Option (Simulator H) := do
  let sim ← sim.deliverDue
  let sim ← sim.visitAll ticks tickCall
  sim.visitAll compactions compactCall

def isLeader (sim : Simulator H) (id : NodeId) : Bool :=
  (sim.nodes.lookup id).any (·.role = .leader)

-- The first leader that the iterator yields gets the command.
def proposeCommand (sim : Simulator H) (order : KeyOrder) (command : Command) :
    Option (Simulator H × Bool) :=
  match (order.keys sim.nodes.keys).find? sim.isLeader with
  | none    => some (sim, false)
  | some id => (sim.visit (some <| ·.propose command) id).map (·, true)

/-! ### The harness -/

section New

-- The stream that a seed stands for.
variable (seedFromU64 : ℕ → SmallRng)

-- One round of the loop of `Simulator::new`, which draws the seed of a node.
def newConfig (ids : List NodeId) (configs : List Config × SmallRng) (id : NodeId) :
    List Config × SmallRng :=
  let draw := configs.2.next
  (configs.1 ++ [.simulated id (ids.filter (· ≠ id)) (seedFromU64 draw.1)], draw.2)

def new (H : BinaryHeap) (seed numNodes : ℕ) : Option (Simulator H) :=
  let ids := List.range' 1 numNodes
  let (nodeConfigs, rng) := ids.foldl (newConfig seedFromU64 ids) ([], seedFromU64 seed)
  let sim : Simulator H := {
    rng         := rng
    nodes       := ∅
    disks       := ids.foldl (fun disks id => disks.insert id (.new id)) ∅
    network     := .new
    tickCount   := 0
    nodeConfigs := nodeConfigs }
  ids.foldlM spawnNode sim

end New

inductive Call
  | setDropRate (rate : Rate)
  | setDuplicateRate (rate : Rate)
  | setMaxDelayTicks (ticks : ℕ)
  | partition (sender receiver : NodeId)
  | healAll
  | crashNode (id : NodeId)
  | spawnNode (id : NodeId)
  | proposeCommand (command : Command)
  | step
  deriving DecidableEq, Repr

-- The orders in which the iterators of one call yield the keys.
structure Orders where
  ticks       : KeyOrder
  compactions : KeyOrder
  leaders     : KeyOrder

def exec (orders : Orders) (sim : Simulator H) : Call → Option (Simulator H)
  | .setDropRate rate       => some { sim with network := { sim.network with dropRate := rate } }
  | .setDuplicateRate rate  => some { sim with network := { sim.network with duplicateRate := rate } }
  | .setMaxDelayTicks ticks => some { sim with network := { sim.network with maxDelayTicks := ticks } }
  | .partition sender receiver =>
    some { sim with network := sim.network.partition sender receiver }
  | .healAll                => some { sim with network := sim.network.healAll }
  | .crashNode id           => some (sim.crashNode id)
  | .spawnNode id           => sim.spawnNode id
  | .proposeCommand command => (sim.proposeCommand orders.leaders command).map (·.1)
  | .step                   => sim.step orders.ticks orders.compactions

-- The calls that follow the first `k` ones.
def execAll (orders : ℕ → Orders) : ℕ → Simulator H → List Call → Option (Simulator H)
  | _, sim, []            => some sim
  | k, sim, call :: calls => (sim.exec (orders k) call).bind (execAll orders (k + 1) · calls)

-- A run of the harness. `none` is a panic.
def run (H : BinaryHeap) (seedFromU64 : ℕ → SmallRng) (orders : ℕ → Orders) (seed numNodes : ℕ)
    (calls : List Call) : Option (Simulator H) :=
  (new seedFromU64 H seed numNodes).bind (execAll orders 0 · calls)

end Simulator
end RaftRupee
