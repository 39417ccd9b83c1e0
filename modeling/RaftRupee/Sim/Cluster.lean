import RaftRupee.Lib.Transition
import RaftRupee.Sim.Storage

namespace RaftRupee

-- A fixed membership whose nodes are configured with the other members as peers.
structure Cluster where
  members      : Finset NodeId
  nonempty     : members.Nonempty
  config       : NodeId → Config
  config_id    : ∀ id, (config id).id = id
  peers_nodup  : ∀ id, (config id).peers.Nodup
  mem_peers    : ∀ {id}, id ∈ members → ∀ peer, peer ∈ (config id).peers ↔ peer ∈ members ∧ peer ≠ id

namespace Cluster

-- A message that was sent. `answers` is a history variable: the message that its sender was handling.
structure Packet where
  msg     : Message
  answers : Option Message
  deriving DecidableEq, Repr

-- History variables as well: the entries handed to the state machines, with the term of the node that
-- applied them, and the nodes that became leader, with their log at that moment.
structure Applied where
  node  : NodeId
  term  : ℕ
  entry : LogEntry
  deriving DecidableEq, Repr

structure Election where
  node : NodeId
  term : ℕ
  log  : RaftLog
  deriving DecidableEq, Repr

-- A leader has moved its commit index up to `index`.
structure Commit where
  node  : NodeId
  term  : ℕ
  index : ℕ
  deriving DecidableEq, Repr

-- What a crash leaves alone. Messages stay in `network` forever, so that they can be delivered late,
-- twice or never.
structure World where
  disks     : NodeId → StableDisk
  network   : List Packet
  applied   : List Applied
  elections : List Election
  commits   : List Commit

structure State extends World where
  nodes : NodeId → RaftNode

inductive Input
  | tick
  | propose (command : Command)
  | compactLogs (index : ℕ) (term : ℕ) (data : Command)
  | request (client : NodeId) (term : ℕ) (command : Command)
  | deliver (packet : ℕ)
  deriving DecidableEq, Repr

-- With `cut = some k` the node crashes after it has executed the first `k` actions of the call, and
-- is started again from its disk. A `restart` is a crash between two calls.
inductive Event
  | call (id : NodeId) (input : Input) (cut : Option ℕ)
  | restart (id : NodeId)
  deriving DecidableEq, Repr

def Event.tick (id : NodeId) : Event :=
  .call id .tick none

def Event.propose (id : NodeId) (command : Command) : Event :=
  .call id (.propose command) none

def Event.compact (id : NodeId) (index term : ℕ) : Event :=
  .call id (.compactLogs index term []) none

def Event.deliver (id : NodeId) (packet : ℕ) : Event :=
  .call id (.deliver packet) none

namespace World

variable (w : World)

def setDisk (id : NodeId) (disk : StableDisk) : World :=
  { w with disks := Function.update w.disks id disk }

-- One round of `Simulator::process_actions`, for a node in term `T`.
def processAction (id : NodeId) (T : ℕ) (answers : Option Message) (w : World) :
    Action → Option World
  | .send msg => some { w with network := w.network ++ [{ msg, answers }] }
  | .appendEntries es => ((w.disks id).appendEntries es).map (w.setDisk id)
  | .truncateAndAppend i es => ((w.disks id).truncateAndAppend i es).map (w.setDisk id)
  | .persistHardState term votedFor =>
    some <| w.setDisk id <| (w.disks id).writeHardState term votedFor
  | .apply es =>
    some { w with applied := w.applied ++ es.map fun entry => { node := id, term := T, entry } }
  | .persistSnapshot i t data =>
    ((w.disks id).writeSnapshot { lastIncludedIndex := i, lastIncludedTerm := t } data).map
      (w.setDisk id)

def processActions (id : NodeId) (T : ℕ) (answers : Option Message) (actions : List Action) :
    Option World :=
  actions.foldlM (processAction id T answers) w

-- What the history learns from a call that turns `node` into `node'`.
def record (id : NodeId) (node node' : RaftNode) : World :=
  { w with
    elections :=
      if node.role ≠ .leader ∧ node'.role = .leader then
        w.elections ++ [{ node := id, term := node'.currentTerm, log := node'.log }]
      else
        w.elections
    commits :=
      if node'.role = .leader ∧ node.commitIndex < node'.commitIndex then
        w.commits ++ [{ node := id, term := node'.currentTerm, index := node'.commitIndex }]
      else
        w.commits }

end World

namespace State

variable (s : State)

def handled : Input → Option Message
  | .deliver k => s.network[k]?.map (·.msg)
  | _          => none

def call (id : NodeId) : Input → Option Outcome
  | .tick                 => some (s.nodes id).tick
  | .propose command      => some <| (s.nodes id).propose command
  | .compactLogs i t data => some <| (s.nodes id).compactLogs i t data
  | .request client term command =>
    (s.nodes id).step { sender := client, receiver := id, term, kind := .clientRequest command }
  | .deliver k => do
    let packet ← s.network[k]?
    if packet.msg.receiver = id then (s.nodes id).step packet.msg else none

end State

variable (C : Cluster)

def restart (s : State) (id : NodeId) : Option State := do
  let node ← (s.disks id).spawnNode (C.config id)
  some { s with nodes := Function.update s.nodes id node }

def step (s : State) : Event → Option State
  | .call id input cut =>
    if id ∈ C.members then do
      let (node, actions) ← s.call id input
      let world := s.record id (s.nodes id) node
      match cut with
      | none =>
        let world ← world.processActions id node.currentTerm (s.handled input) actions
        some { world with nodes := Function.update s.nodes id node }
      | some k =>
        let world ← world.processActions id node.currentTerm (s.handled input) (actions.take k)
        C.restart { world with nodes := s.nodes } id
    else
      none
  | .restart id => if id ∈ C.members then C.restart s id else none

def init : State where
  nodes id  := .new (C.config id)
  disks     := .new
  network   := []
  applied   := []
  elections := []
  commits   := []

def system : TransitionSystem State Event where
  init := C.init
  step := C.step

-- What `Simulator::new` starts is what `spawn_node` makes of an empty disk.
theorem spawnNode_new (id : NodeId) (config : Config) :
    (StableDisk.new id).spawnNode config = some (.new config) :=
  rfl

-- The nodes `1, .., n`, with short timeouts and generators that draw zeros only.
def ofSize (n : ℕ) (h : 0 < n) : Cluster where
  members      := (List.range' 1 n).toFinset
  nonempty     := ⟨1, by simp; omega⟩
  config id    := {
    id                     := id
    peers                  := (List.range' 1 n).filter (· ≠ id)
    electionTimeoutTicks   := 2
    heartbeatIntervalTicks := 1
    rngSeed                := { draws := fun _ => 0 }
    heartbeat_lt           := by decide }
  config_id _    := rfl
  peers_nodup _  := (List.nodup_range').filter _
  mem_peers _ _  := by simp [and_comm]

end Cluster
end RaftRupee
