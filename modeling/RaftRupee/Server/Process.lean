import RaftRupee.Lib.Transition
import RaftRupee.Core.HardState
import RaftRupee.Server.Quorum
import RaftRupee.Server.Sector

namespace RaftRupee

/-! ### The directory of a server -/

structure DurableDisk where
  hsFile  : HardStateFile
  walFile : Wal

namespace DurableDisk

variable (disk : DurableDisk)

-- `open` creates the files that are missing.
def new : DurableDisk where
  hsFile  := []
  walFile := []

-- The term and the vote with which `main` starts.
def recoveredState (memory : Memory) : Except IoError HardState :=
  (disk.hsFile.readHardState memory).map (·.getD (0, none))

-- What an action of `process_actions` does to the directory, with whatever the memory of its buffers holds.
-- Snapshots are not persisted.
def perform (memory : Memory × Memory) : Action → DurableDisk
  | .appendEntries es               => { disk with walFile := .appendLogEntries disk.walFile es memory.1 }
  | .truncateAndAppend i es         =>
    { disk with walFile := .truncateAndAppend disk.walFile i es memory.1 memory.2 }
  | .persistHardState term votedFor =>
    { disk with hsFile := disk.hsFile.writeHardState memory.1 term votedFor }
  | .send _ | .apply _ | .persistSnapshot .. => disk

-- The process stops in the middle of an action: after `k` sectors of an append, or `k` steps of a
-- truncation.
def performCut (memory : Memory × Memory) (k : ℕ) : Action → DurableDisk
  | .appendEntries es       =>
    let walFile := Wal.appendLogEntries disk.walFile es memory.1
    { disk with walFile := walFile.take (disk.walFile.length + k * sectorSize) }
  | .truncateAndAppend i es =>
    { disk with walFile := .truncateCut disk.walFile i es memory.1 memory.2 k }
  | _ => disk

end DurableDisk

/-! ### Where messages go -/

inductive Route
  | client
  | peer
  | dropped
  deriving DecidableEq, Repr

-- The number that clients use for themselves.
def clientId : NodeId := 999

-- `client` says whether the messages answer one that was read from an accepted stream. A message for a peer
-- is handed to the stream that `main` keeps for the peer, and lost if there is none and none can be opened.
-- The server's own address is not among those of the peers.
def Server.route (server : Server) (client : Bool) (msg : Message) : Route :=
  if msg.receiver = clientId then
    if client then .client else .dropped
  else if msg.receiver ∈ server.members ∧ msg.receiver ≠ server.id then
    .peer
  else
    .dropped

/-! ### Servers that run -/

-- The addresses that all servers are started with, in any order.
structure Deployment where
  addresses : List (NodeId × String)
  nodup     : (addresses.map (·.1)).Nodup
  fits      : ∀ id ∈ addresses.map (·.1), id < 256 ^ 8

namespace Deployment

def members (D : Deployment) : Finset NodeId :=
  (D.addresses.map (·.1)).toFinset

structure Process where
  server : Server
  node   : RaftNode

structure Posted where
  msg   : Message
  route : Route
  deriving DecidableEq, Repr

-- What stays when a process stops: the directories, the messages that were ever sent, and, as a history
-- variable, who has become leader in which term.
structure World where
  disks     : NodeId → DurableDisk
  posted    : List Posted
  elections : List (NodeId × ℕ)

structure State extends World where
  processes : NodeId → Option Process

-- What the rounds of the loop in `main` hand to the node. A message is read, once, more often or never,
-- from an accepted stream or from one that the server has opened itself, and what is read is what has been
-- sent.
inductive Input
  | tick
  | receive (posted : ℕ) (accepted : Bool)
  | request (command : Command)
  deriving DecidableEq, Repr

-- Each action of a call has buffers of its own. With `cut = some (n, k)` the process stops after the first
-- `n` actions, in the middle of the next one.
inductive Event
  | start (server : Server) (rngSeed : SmallRng) (memory : Memory)
  | stop (id : NodeId)
  | call (id : NodeId) (input : Input) (memory : ℕ → Memory × Memory) (cut : Option (ℕ × ℕ))

namespace World

variable (w : World)

def setDisk (id : NodeId) (disk : DurableDisk) : World :=
  { w with disks := Function.update w.disks id disk }

-- One round of `process_actions`. Entries that are applied are only printed.
def processAction (server : Server) (client : Bool) (memory : Memory × Memory) (a : Action) : World :=
  let w := w.setDisk server.id ((w.disks server.id).perform memory a)
  match a with
  | .send msg => { w with posted := w.posted ++ [{ msg, route := server.route client msg }] }
  | _         => w

def processActions (server : Server) (client : Bool) (memory : ℕ → Memory × Memory) (w : World) :
    List Action → World
  | []      => w
  | a :: as => processActions server client memory (w.processAction server client (memory as.length) a) as

def stopWithin (server : Server) (memory : Memory × Memory) (k : ℕ) : Option Action → World
  | none   => w
  | some a => w.setDisk server.id ((w.disks server.id).performCut memory k a)

def record (id : NodeId) (node node' : RaftNode) : World :=
  { w with
    elections :=
      if node.role ≠ .leader ∧ node'.role = .leader then
        w.elections ++ [(id, node'.currentTerm)]
      else
        w.elections }

end World

namespace State

variable (s : State)

def setProcess (id : NodeId) (process : Option Process) : State :=
  { s with processes := Function.update s.processes id process }

-- The call of the node, and whether the answers go to the stream of a client.
def read (id : NodeId) : Input → Option (Invocation × Bool)
  | .tick               => some (.tick, false)
  | .request command    =>
    some (.step { sender := clientId, receiver := 0, term := 0, kind := .clientRequest command }, true)
  | .receive k accepted => do
    let posted ← s.posted[k]?
    if posted.route = .peer ∧ posted.msg.receiver = id then some (.step posted.msg, accepted) else none

-- A process that stops leaves only its directory behind.
def run (id : NodeId) (process : Process) (client : Bool) (memory : ℕ → Memory × Memory)
    (o : Outcome) : Option (ℕ × ℕ) → State
  | none        =>
    let world := (s.record id process.node o.1).processActions process.server client memory o.2
    { world with processes := Function.update s.processes id (some { process with node := o.1 }) }
  | some (n, k) =>
    let world := (s.record id process.node o.1).processActions process.server client memory (o.2.take n)
    { world.stopWithin process.server (memory n) k o.2[n]? with
      processes := Function.update s.processes id none }

end State

variable (D : Deployment)

-- A panic stops the process as well.
def step (s : State) : Event → Option State
  | .start server rngSeed memory =>
    if server.addresses.Perm D.addresses ∧ (s.processes server.id).isNone then do
      let disk := s.disks server.id
      let (term, votedFor) ← (disk.recoveredState memory).toOption
      let log := RaftLog.restore { lastIncludedIndex := 0, lastIncludedTerm := 0 }
        (Wal.replayWal disk.walFile)
      let node := RaftNode.restore (server.config rngSeed) term votedFor log 0 0
      some (s.setProcess server.id (some { server, node }))
    else
      none
  | .stop id => some (s.setProcess id none)
  | .call id input memory cut => do
    let process ← s.processes id
    let (invocation, client) ← s.read id input
    match process.node.invoke invocation with
    | none   => some (s.setProcess id none)
    | some o => some (s.run id process client memory o cut)

def init : State where
  disks _     := .new
  posted      := []
  elections   := []
  processes _ := none

def system : TransitionSystem State Event where
  init := init
  step := D.step

end Deployment
end RaftRupee
