import DistSys.Raft.Effect
import DistSys.Raft.Outcome

namespace DistSys.Raft

variable {n : Nat} {C : Type} [Inhabited C] {c c' : Cluster n C} {s : Fin n} {a : Action n C}

/-- The operation that an action performs on the fields of server `s`: one critical
section of the source, none at all, or a restart. -/
inductive NodeStep (c : Cluster n C) (s : Fin n) : Action n C → Raft n C → Prop
  | none {a : Action n C} : NodeStep c s a (c.server s).rf
  | election : NodeStep c s (.election s) (c.server s).rf.election
  | requestVoteReply {b k : Nat} {peer : Fin n} {reply : RequestVoteReply} :
      NodeStep c s (.requestVoteReply s b peer k) ((c.server s).rf.requestVoteReply reply).1
  | countVote {b : Nat} {peer : Fin n} : (c.server s).rf.state = .candidate →
      NodeStep c s (.countVote s b peer) (c.server s).rf.becomeLeader
  | installReply {i k call : Nat} {r : Replicator n} {reply : InstallSnapshotReply} :
      (c.server s).replicators[i]? = some r → c.replies[k]? = some (call, .install reply) →
      NodeStep c s (.installReply s i k) ((c.server s).rf.installSnapshotReply r.server reply).1
  | appendReply {i k call : Nat} {r : Replicator n} {reply : AppendEntryReply} {args : AppendEntryArgs C} :
      (c.server s).replicators[i]? = some r → c.replies[k]? = some (call, .append reply) →
      NodeStep c s (.appendReply s i k) ((c.server s).rf.appendEntriesReply r.server r.term args reply).1
  | handleVote {call : Nat} {args : RequestVoteArgs} :
      NodeStep c s (.handleVote call) ((c.server s).rf.requestVoteHandle args).1
  | handleAppend {call : Nat} {args : AppendEntryArgs C} :
      NodeStep c s (.handleAppend call) ((c.server s).rf.appendEntriesHandler args).1
  | handleInstall {call : Nat} {args : InstallSnapshotArgs C} :
      NodeStep c s (.handleInstall call) ((c.server s).rf.installSnapshot args).1
  | installDone {i : Nat} :
      NodeStep c s (.installDone s i) { (c.server s).rf with snapshotInFlight := false }
  | applyResume {lastSent : Int} :
      NodeStep c s (.applyResume s) ((c.server s).rf.applyResume lastSent).1
  | start {command : C} : NodeStep c s (.start s command) ((c.server s).rf.start command).1
  | snapshot {index : Int} {bytes : List UInt8} :
      NodeStep c s (.snapshot s index bytes) ((c.server s).rf.snapshot index bytes)
  | condInstall {event : Nat} {data : Blob C} {term index : Int} :
      NodeStep c s (.condInstall s event) ((c.server s).rf.condInstallSnapshot term index data).1
  | kill : NodeStep c s (.kill s) { (c.server s).rf with dead := true }
  | boot {a : Action n C} {rf : Raft n C} : a.crashes = true → NodeStep c s a (boot s rf.persister).rf

/-- One server performs the operation of an action, and no other server changes. -/
def Performs (c : Cluster n C) (a : Action n C) (c' : Cluster n C) : Prop :=
  ∃ s, (∀ t, t ≠ s → c'.server t = c.server t) ∧ NodeStep c s a (c'.server s).rf

theorem performs_setServer {server : Server n C} (same : c'.server = (c.setServer s server).server)
    (step : NodeStep c s a server.rf) : Performs c a c' := by
  refine ⟨s, fun t away => ?_, ?_⟩
  · rw [same, setServer_others c s server t away]
  · rw [same, setServer_self]
    exact step

theorem performs_of_step (next : c.step a = some c') : Performs c a c' := by
  cases outcome_of_step next with
  | electionTimeout | requestVote | requestVoteFailed | counted | heartbeat | broadcast | stopped
  | sentInstall | sentAppend | replicateFailed | sendSnapshot | applySend =>
    exact performs_setServer rfl .none
  | election => exact performs_setServer rfl .election
  | requestVoteReply => exact performs_setServer rfl .requestVoteReply
  | elected _ _ _ runs _ => exact performs_setServer rfl (.countVote runs)
  | installReply found answered _ => exact performs_setServer rfl (.installReply found answered)
  | appendReply found answered _ _ => exact performs_setServer rfl (.appendReply found answered)
  | handleVote => exact performs_setServer rfl .handleVote
  | answeredAppend | appliedAppend => exact performs_setServer rfl .handleAppend
  | offeredInstall | answeredInstall => exact performs_setServer rfl .handleInstall
  | installDone => exact performs_setServer rfl .installDone
  | applyAgain => exact performs_setServer rfl .applyResume
  | @applyDone _ _ answer => cases answer <;> exact performs_setServer rfl .applyResume
  | start => exact performs_setServer rfl .start
  | snapshot => exact performs_setServer rfl .snapshot
  | condInstall => exact performs_setServer rfl .condInstall
  | kill => exact performs_setServer rfl .kill
  | crash | crashInVote | crashInAppend => exact performs_setServer rfl (.boot rfl)

end DistSys.Raft
