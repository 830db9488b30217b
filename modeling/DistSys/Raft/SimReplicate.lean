import DistSys.Raft.SimElection

namespace DistSys.Raft

open Replica (Grows Committed Moved)

variable {n : Nat} {C : Type} [Inhabited C] {A B : World n C} {c c' : Cluster n C}
variable {requests : List (Request n C)} {s : Fin n} {server : Server n C} {i k call : Nat}

theorem ServerRel.setReplicator {r : Replicator n} (rel : ServerRel A requests s server)
    (new : ReplicatorRel requests s r) : ServerRel A requests s (server.setReplicator i r) := by
  refine ⟨rel.node, rel.ballots, fun other member => ?_, rel.installs, rel.batch, rel.service⟩
  rcases List.mem_or_eq_of_mem_set member with old | rfl
  · exact rel.replicators other old
  · exact new

omit [Inhabited C] in
/-- A replicator that waits for no `AppendEntries` reply. -/
theorem ReplicatorRel.setPc {r : Replicator n} (rel : ReplicatorRel requests s r) (pc : ReplicatePc)
    (idle : ∀ call, pc ≠ .awaitAppend call) : ReplicatorRel requests s { r with pc := pc } :=
  ⟨rel.away, fun call waits => absurd waits (idle call)⟩

theorem ServerRel.setBatch {batch : Option (Sending C)} (rel : ServerRel A requests s server)
    (new : ∀ sending, batch = some sending → SendingRel A requests server.rf sending) :
    ServerRel A requests s { server with batch := batch } :=
  ⟨rel.node, rel.ballots, rel.replicators, rel.installs, new, rel.service⟩

omit [Inhabited C] in
/-- A batch that a critical section started, with the answer its caller owes. -/
theorem BatchRel.sending {rf : Raft n C} {batch : Batch C} (rel : BatchRel A rf batch)
    {answer : Option (Nat × AppendEntryReply)}
    (owed : ∀ call reply, answer = some (call, reply) → ReplyRel A requests (call, .append reply)) :
    SendingRel A requests rf ⟨batch.msgs, batch.lastSent, answer⟩ :=
  ⟨rel.msgs, rel.lastSent, owed⟩

theorem ClusterRel.heartbeat (rel : ClusterRel c A) (next : c.heartbeat s = some c') :
    Simulated A c' := by
  cases outcome_of_step (a := .heartbeat s) next
  exact ⟨s, A, Moved.refl s A, rel.setServer (Moved.refl s A)
    ((rel.server s).counters (c.server s).elections _)⟩

omit [Inhabited C] in
theorem replicateAll_rel {r : Replicator n} {term : Int} (member : r ∈ replicateAll s term) :
    ReplicatorRel requests s r := by
  obtain ⟨server, kept, rfl⟩ := List.mem_map.mp member
  refine ⟨?_, fun call waits => by cases waits⟩
  simpa using (List.mem_filter.mp kept).2

theorem ClusterRel.broadcast (rel : ClusterRel c A) (next : c.broadcast s = some c') :
    Simulated A c' := by
  cases outcome_of_step (a := .broadcast s) next
  have old := (rel.server s).counters (c.server s).elections ((c.server s).broadcasts - 1)
  refine ⟨s, A, Moved.refl s A, rel.setServer (Moved.refl s A)
    ⟨old.node, old.ballots, fun r member => ?_, old.installs, old.batch, old.service⟩⟩
  rcases List.mem_append.mp member with running | started
  · exact old.replicators r running
  · split at started
    next => exact replicateAll_rel started
    next => cases started

theorem ClusterRel.replicate (rel : ClusterRel c A) (next : c.replicate s i = some c') :
    Simulated A c' := by
  have node := (rel.server s).node
  have grown := fun request => (rel.server s).setRaft (Grows.refl A) node le_rfl [request]
  have old := fun {r} (found : (c.server s).replicators[i]? = some r) =>
    (rel.server s).replicators r (List.mem_of_getElem? found)
  cases outcome_of_step (a := .replicate s i) next with
  | stopped found =>
    exact ⟨s, A, Moved.refl s A, rel.setServer (Moved.refl s A)
      ((rel.server s).setReplicator ((old found).setPc _ fun _ => ReplicatePc.noConfusion))⟩
  | sentInstall found sends =>
    refine ⟨s, A, Moved.refl s A, rel.addRequest (Moved.refl s A) ?_ (node.replicate_install sends)⟩
    exact (grown _).setReplicator ((old found).grows.setPc _ fun _ => ReplicatePc.noConfusion)
  | @sentAppend _ _ _ args found sends =>
    obtain ⟨request, same⟩ := node.replicate_append rel.inv sends
    refine ⟨s, A, Moved.refl s A, rel.addRequest (Moved.refl s A) ?_ request⟩
    refine (grown _).setReplicator ⟨(old found).away, ?_⟩
    rintro call ⟨⟩
    exact ⟨args, List.getElem?_concat_length, same⟩

theorem ClusterRel.replicateFailed (rel : ClusterRel c A) (next : c.replicateFailed s i = some c') :
    Simulated A c' := by
  cases outcome_of_step (a := .replicateFailed s i) next with
  | @replicateFailed _ _ r found =>
    have old := (rel.server s).replicators r (List.mem_of_getElem? found)
    exact ⟨s, A, Moved.refl s A, rel.setServer (Moved.refl s A)
      ((rel.server s).setReplicator (old.setPc .head fun _ => ReplicatePc.noConfusion))⟩

theorem ClusterRel.installReply (rel : ClusterRel c A) (next : c.installReply s i k = some c') :
    Simulated A c' := by
  cases outcome_of_step (a := .installReply s i k) next with
  | @installReply _ _ _ _ r reply found =>
    have old := (rel.server s).replicators r (List.mem_of_getElem? found)
    obtain ⟨B, moved, node, commit⟩ :=
      (rel.server s).node.installSnapshotReply rel.inv r.server reply
    refine ⟨s, B, moved, rel.setServer moved ((rel.act moved node commit.ge).setReplicator ?_)⟩
    exact old.setPc _ fun _ => by split <;> exact ReplicatePc.noConfusion

theorem ClusterRel.appendReply (rel : ClusterRel c A) (next : c.appendReply s i k = some c') :
    Simulated A c' := by
  cases outcome_of_step (a := .appendReply s i k) next with
  | @appendReply _ _ _ _ _ call r args reply found answered sent waits =>
    have old := (rel.server s).replicators r (List.mem_of_getElem? found)
    obtain ⟨args', sent', same⟩ := old.waiting call waits
    rw [sent] at sent'
    cases sent'
    have backed := (rel.replies _ (List.mem_of_getElem? answered)).2
    obtain ⟨B, moved, applies⟩ := (rel.server s).node.appendEntriesReply rel.inv
      fun success => same ▸ backed success s r.server args sent
    have acted := rel.act moved applies.node applies.commit
    refine ⟨s, B, moved, rel.setServer moved ?_⟩
    refine (acted.setBatch fun sending here => ?_).setReplicator
      (old.setPc _ fun _ => by split <;> exact ReplicatePc.noConfusion)
    unfold Cluster.nextBatch at here
    split at here
    next => exact acted.batch sending here
    next batch started =>
      cases here
      exact (applies.batch batch started).sending fun _ _ absent => by cases absent

/-- What the handler of `AppendEntries` answers holds of the world its turn leads to. -/
theorem ClusterRel.appendEntriesHandler {sender : Fin n} {args : AppendEntryArgs C} (rel : ClusterRel c A)
    (found : c.requests[call]? = some (.append sender s args)) :
    ∃ B, Moved LogEntry.term s A B ∧
      Applies B s (c.server s).rf.commitIndex
        (((c.server s).rf.appendEntriesHandler args).1, ((c.server s).rf.appendEntriesHandler args).2.2) ∧
      ReplyRel B c.requests (call, .append ((c.server s).rf.appendEntriesHandler args).2.1) := by
  have request := rel.requests _ (List.mem_of_getElem? found)
  obtain ⟨B, moved, applies, stored⟩ := (rel.server s).node.appendEntriesHandler rel.inv request
  refine ⟨B, moved, applies, (List.getElem?_eq_some_iff.mp found).1, fun success u j args' found' => ?_⟩
  rw [found] at found'
  cases found'
  exact stored success

theorem ClusterRel.handleAppend (rel : ClusterRel c A) (next : c.handleAppend call = some c') :
    Simulated A c' := by
  cases outcome_of_step (a := .handleAppend call) next with
  | @answeredAppend s _ _ _ found =>
    obtain ⟨B, moved, applies, owed⟩ := rel.appendEntriesHandler found
    exact ⟨s, B, moved, rel.addReply moved (rel.act moved applies.node applies.commit) owed⟩
  | @appliedAppend s _ _ _ batch found started =>
    obtain ⟨B, moved, applies, owed⟩ := rel.appendEntriesHandler found
    refine ⟨s, B, moved, rel.setServer moved
      ((rel.act moved applies.node applies.commit).setBatch ?_)⟩
    rintro sending ⟨⟩
    refine (applies.batch batch started).sending ?_
    rintro _ _ ⟨⟩
    exact owed

end DistSys.Raft
