import DistSys.Raft.Step
import DistSys.Raft.FullLog
import DistSys.Core.ReplicaRun

namespace DistSys.Raft

open Replica (Grows Committed Moved)

/-- The abstract replicated log that a cluster implements. -/
abbrev World (n : Nat) (C : Type) := Replica.State (Fin n) Int (LogEntry C)

def Stat.role : Stat → Replica.Role
  | .leader => .leader
  | .follower => .follower
  | .candidate => .candidate

variable {n : Nat} {C : Type} [Inhabited C]

/-- The persister holds the persistent fields; nothing at all stands for
their initial values. -/
def Durable (rf : Raft n C) : Prop :=
  rf.persister.raftState = rf.encodeState ∨
    rf.persister.raftState = [] ∧ rf.currentTerm = 0 ∧ rf.votedFor = -1 ∧
      rf.lastIncludedIndex = 0 ∧ rf.lastIncludedTerm = 0 ∧ rf.logs = [⟨noneCommand, 0⟩]

/-- The integer `votedFor` stands for a vote. -/
def Voted (votedFor : Int) (vote : Option (Fin n)) : Prop :=
  votedFor = -1 ∧ vote = none ∨ ∃ s, votedFor = (s.val : Int) ∧ vote = some s

/-- Peer `s` of the world is what `rf` stores. -/
structure NodeRel (A : World n C) (s : Fin n) (rf : Raft n C) : Prop where
  me : rf.me = s
  origin : A.origin = 0
  shaped : Shaped rf
  durable : Durable rf
  term : (A.peer s).term = rf.currentTerm
  role : (A.peer s).role = rf.state.role
  log : (A.peer s).log = rf.fullLog
  vote : Voted rf.votedFor (A.vote s rf.currentTerm)
  committed : Committed LogEntry.term A rf.currentTerm (rf.fullLog.take rf.commitIndex.toNat)
  baseApplied : rf.lastIncludedIndex ≤ rf.lastApplied
  appliedCommit : rf.lastApplied ≤ rf.commitIndex
  commitLast : rf.commitIndex ≤ rf.lastIndex
  matched : rf.state = .leader → ∀ j, j ≠ s →
    rf.matchIndex j ≤ rf.commitIndex ∨ rf.matchIndex j ≤ A.ack j rf.currentTerm

/-- A snapshot stands for a committed prefix that ends at its index. -/
structure SnapshotRel (A : World n C) (term : Int) (data : Blob C) (snapshotTerm snapshotIndex : Int) :
    Prop where
  committed : Committed LogEntry.term A term data.covers
  index : (data.covers.length : Int) = snapshotIndex
  last : termOf data.covers snapshotIndex = snapshotTerm

/-- A command message carries an entry committed at its index. -/
def MessageRel (A : World n C) (term : Int) : ApplyMsg C → Prop
  | .command command commandIndex commandTerm =>
    ∃ P, Committed LogEntry.term A term P ∧ (P.length : Int) = commandIndex ∧
      P.getLast? = some ⟨command, commandTerm⟩
  | .snapshot data snapshotTerm snapshotIndex => SnapshotRel A term data snapshotTerm snapshotIndex

/-- What a request says about the world when it was sent, in terms that stay
true. -/
def RequestRel (A : World n C) : Request n C → Prop
  | .vote sender _ args =>
    args.candidateID = (sender.val : Int) ∧ ∃ L, A.asked sender args.term L ∧
      args.lastLogIndex = L.length ∧ args.lastLogTerm = termOf L L.length
  | .append _ _ args =>
    (args.prevLogTerm < 0 ∨ ∃ P, P ++ args.entries <+: A.book args.term ∧
      (P.length : Int) = args.prevLogIndex ∧ termOf P P.length = args.prevLogTerm) ∧
    ∃ K, K <+: A.book args.term ∧ (K.length : Int) = args.leaderCommitIndex ∧
      Committed LogEntry.term A args.term K
  | .install _ _ args =>
    SnapshotRel A args.term args.data args.lastIncludedTerm args.lastIncludedIndex

/-- A positive reply is backed by a vote or by stored entries. -/
def ReplyRel (A : World n C) (requests : List (Request n C)) (answer : Nat × Reply) : Prop :=
  answer.1 < requests.length ∧
    match answer.2 with
    | .vote reply => reply.voteGranted → ∀ s j args, requests[answer.1]? = some (.vote s j args) →
        A.vote j args.term = some s
    | .append reply => reply.success → ∀ s j args, requests[answer.1]? = some (.append s j args) →
        args.prevLogIndex + args.entries.length ≤ (A.ack j args.term : Int)
    | .install _ => True

/-- The votes a ballot has counted were cast for its owner in its term. -/
structure BallotRel (A : World n C) (requests : List (Request n C)) (s : Fin n) (currentTerm : Int)
    (ballot : Ballot n) : Prop where
  past : ballot.term ≤ currentTerm
  self : A.vote s ballot.term = some s
  away : ballot.peer s = .ended
  count : ballot.voteReceived = 1 + (Finset.univ.filter fun j => ballot.peer j = .counted).card
  granted : ∀ j, ballot.peer j = .granted ∨ ballot.peer j = .counted → A.vote j ballot.term = some s
  waiting : ∀ j call, ballot.peer j = .waiting call →
    ∃ args, requests[call]? = some (.vote s j args) ∧ args.term = ballot.term

/-- A replicator waits for the answer to a request of its own term. -/
structure ReplicatorRel (requests : List (Request n C)) (s : Fin n) (r : Replicator n) : Prop where
  away : r.server ≠ s
  waiting : ∀ call, r.pc = .awaitAppend call →
    ∃ args, requests[call]? = some (.append s r.server args) ∧ args.term = r.term

structure SendingRel (A : World n C) (requests : List (Request n C)) (rf : Raft n C)
    (batch : Sending C) : Prop where
  msgs : ∀ msg ∈ batch.msgs, MessageRel A rf.currentTerm msg
  lastSent : batch.lastSent ≤ rf.commitIndex
  answer : ∀ call reply, batch.answer = some (call, reply) → ReplyRel A requests (call, .append reply)

structure ServerRel (A : World n C) (requests : List (Request n C)) (s : Fin n)
    (server : Server n C) : Prop where
  node : NodeRel A s server.rf
  ballots : ∀ ballot ∈ server.ballots, BallotRel A requests s server.rf.currentTerm ballot
  replicators : ∀ r ∈ server.replicators, ReplicatorRel requests s r
  installs : ∀ install ∈ server.installs, install.call < requests.length ∧
    SnapshotRel A server.rf.currentTerm install.args.data install.args.lastIncludedTerm
      install.args.lastIncludedIndex
  batch : ∀ batch, server.batch = some batch → SendingRel A requests server.rf batch
  service : ∀ data term index, .received (.snapshot data term index) ∈ server.service →
    SnapshotRel A server.rf.currentTerm data term index

/-- A cluster implements a world: every peer, every request, every reply and
every message ever handed to a service is accounted for there. -/
structure ClusterRel (c : Cluster n C) (A : World n C) : Prop where
  inv : Replica.Inv LogEntry.term A
  server : ∀ s, ServerRel A c.requests s (c.server s)
  requests : ∀ request ∈ c.requests, RequestRel A request
  replies : ∀ answer ∈ c.replies, ReplyRel A c.requests answer
  delivered : ∀ delivery ∈ c.delivered, ∃ term, MessageRel A term delivery.2

end DistSys.Raft
