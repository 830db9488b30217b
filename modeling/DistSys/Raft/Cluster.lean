import DistSys.Raft.Node
import DistSys.Core.Exec
import Mathlib.Data.List.FinRange

namespace DistSys.Raft

/-- Where the goroutine of an election that asks one peer stands: about to
read the log, inside the call, granted but not yet counted, counted, or
returned. -/
inductive VotePc
  | ready
  | waiting (call : Nat)
  | granted
  | counted
  | ended
deriving DecidableEq

/-- The variables that the goroutines of one `Election` call share, and where
each of them stands. -/
structure Ballot (n : Nat) where
  term : Int
  voteReceived : Nat
  finished : Bool
  peer : Fin n → VotePc

/-- Where a `replicateToPeer` goroutine stands. -/
inductive ReplicatePc
  | head
  | awaitInstall (call : Nat)
  | awaitAppend (call : Nat)
  | ended
deriving DecidableEq

structure Replicator (n : Nat) where
  server : Fin n
  term : Int
  pc : ReplicatePc

/-- Where an `InstallSnapshot` handler that decided to send stands. -/
inductive InstallPc
  | sending
  | sent
  | ended
deriving DecidableEq

structure Install (C : Type) where
  call : Nat
  args : InstallSnapshotArgs C
  reply : InstallSnapshotReply
  pc : InstallPc

/-- A call of `applyCommittedEntries` with the mutex released: what is still to be
sent, and the reply its caller returns afterwards if it is a handler. -/
structure Sending (C : Type) where
  msgs : List (ApplyMsg C)
  lastSent : Int
  answer : Option (Nat × AppendEntryReply)

/-- What one incarnation of the service has seen: a message on `applyCh`, or
the result of its `CondInstallSnapshot` call for a snapshot message. -/
inductive ServiceEvent (C : Type)
  | received (msg : ApplyMsg C)
  | condInstalled (index : Int) (accepted : Bool)
deriving DecidableEq

/-- One incarnation of a peer with its goroutines and its service. -/
structure Server (n : Nat) (C : Type) where
  rf : Raft n C
  bootIndex : Int
  elections : Nat
  broadcasts : Nat
  ballots : List (Ballot n)
  replicators : List (Replicator n)
  installs : List (Install C)
  batch : Option (Sending C)
  service : List (ServiceEvent C)

/-- An RPC request with its sender and receiver. -/
inductive Request (n : Nat) (C : Type)
  | vote (sender receiver : Fin n) (args : RequestVoteArgs)
  | append (sender receiver : Fin n) (args : AppendEntryArgs C)
  | install (sender receiver : Fin n) (args : InstallSnapshotArgs C)
deriving DecidableEq

inductive Reply
  | vote (reply : RequestVoteReply)
  | append (reply : AppendEntryReply)
  | install (reply : InstallSnapshotReply)

/-- The whole system. `requests` holds every request ever sent, its position
being the number of the call, and `replies` every reply with the call it
answers; the network may lose, delay, reorder and repeat any of them.
`delivered` is the history of all messages sent on any `applyCh`. -/
structure Cluster (n : Nat) (C : Type) where
  server : Fin n → Server n C
  requests : List (Request n C)
  replies : List (Nat × Reply)
  delivered : List (Fin n × ApplyMsg C)

/-- One critical section of one goroutine, one rendezvous on an `applyCh`, one
call that fails, or one crash. The numbers pick a goroutine, a call or a reply. -/
inductive Action (n : Nat) (C : Type)
  | electionTimeout (s : Fin n)
  | election (s : Fin n)
  | requestVote (s : Fin n) (ballot : Nat) (peer : Fin n)
  | requestVoteFailed (s : Fin n) (ballot : Nat) (peer : Fin n)
  | requestVoteReply (s : Fin n) (ballot : Nat) (peer : Fin n) (reply : Nat)
  | countVote (s : Fin n) (ballot : Nat) (peer : Fin n)
  | heartbeat (s : Fin n)
  | broadcast (s : Fin n)
  | replicate (s : Fin n) (replicator : Nat)
  | replicateFailed (s : Fin n) (replicator : Nat)
  | installReply (s : Fin n) (replicator reply : Nat)
  | appendReply (s : Fin n) (replicator reply : Nat)
  | handleVote (call : Nat)
  | handleAppend (call : Nat)
  | handleInstall (call : Nat)
  | sendSnapshot (s : Fin n) (install : Nat)
  | installDone (s : Fin n) (install : Nat)
  | applySend (s : Fin n)
  | applyResume (s : Fin n)
  | start (s : Fin n) (command : C)
  | snapshot (s : Fin n) (index : Int) (bytes : List UInt8)
  | condInstall (s : Fin n) (event : Nat)
  | kill (s : Fin n)
  | crash (s : Fin n)
  | crashInVote (call : Nat)
  | crashInAppend (call : Nat)

variable {n : Nat} {C : Type} [Inhabited C]

/-- A fresh incarnation over what the persister holds. -/
def boot (me : Fin n) (persister : Persister C) : Server n C where
  rf := make me persister
  bootIndex := (make me persister).lastIncludedIndex
  elections := 0
  broadcasts := 0
  ballots := []
  replicators := []
  installs := []
  batch := none
  service := []

def init (n : Nat) (C : Type) [Inhabited C] : Cluster n C where
  server s := boot s makePersister
  requests := []
  replies := []
  delivered := []

namespace Cluster

def setServer (c : Cluster n C) (s : Fin n) (server : Server n C) : Cluster n C :=
  { c with server := Function.update c.server s server }

def addRequest (c : Cluster n C) (request : Request n C) : Cluster n C :=
  { c with requests := c.requests ++ [request] }

def addReply (c : Cluster n C) (call : Nat) (reply : Reply) : Cluster n C :=
  { c with replies := c.replies ++ [(call, reply)] }

/-- Hand a message over on `applyCh`, where the sender is now `server`. -/
def deliver (c : Cluster n C) (s : Fin n) (server : Server n C) (msg : ApplyMsg C) : Cluster n C :=
  { c.setServer s { server with service := server.service ++ [.received msg] } with
    delivered := c.delivered ++ [(s, msg)] }

end Cluster

def setPeer (ballot : Ballot n) (peer : Fin n) (pc : VotePc) : Ballot n :=
  { ballot with peer := Function.update ballot.peer peer pc }

def Server.setBallot (server : Server n C) (b : Nat) (ballot : Ballot n) : Server n C :=
  { server with ballots := server.ballots.set b ballot }

def Server.setReplicator (server : Server n C) (i : Nat) (replicator : Replicator n) : Server n C :=
  { server with replicators := server.replicators.set i replicator }

def Server.setInstall (server : Server n C) (i : Nat) (install : Install C) : Server n C :=
  { server with installs := server.installs.set i install }

/-- The goroutines that `broadcastAppendEntries` starts. -/
def replicateAll (me : Fin n) (term : Int) : List (Replicator n) :=
  ((List.finRange n).filter fun server => server ≠ me).map fun server => ⟨server, term, .head⟩

/-- The service of this incarnation has received the command at `index`. -/
def hasReceived (service : List (ServiceEvent C)) (index : Int) : Bool :=
  service.any fun event =>
    match event with
    | .received (.command _ i _) => i == index
    | _ => false

end DistSys.Raft
