import DistSys.Raft.SimService

namespace DistSys.Raft

open Replica (Grows Committed Moved)

variable {n : Nat} {C : Type} [Inhabited C] {A : World n C} {c c' : Cluster n C}
variable {as : List (Action n C)}

/-- The forward simulation: every action of the cluster is a move of one member
of the abstract replicated log. -/
theorem ClusterRel.step {a : Action n C} (rel : ClusterRel c A) (next : c.step a = some c') :
    Simulated A c' := by
  cases a with
  | electionTimeout => exact rel.electionTimeout next
  | election => exact rel.election next
  | requestVote => exact rel.requestVote next
  | requestVoteFailed => exact rel.requestVoteFailed next
  | requestVoteReply => exact rel.requestVoteReply next
  | countVote => exact rel.countVote next
  | heartbeat => exact rel.heartbeat next
  | broadcast => exact rel.broadcast next
  | replicate => exact rel.replicate next
  | replicateFailed => exact rel.replicateFailed next
  | installReply => exact rel.installReply next
  | appendReply => exact rel.appendReply next
  | handleVote => exact rel.handleVote next
  | handleAppend => exact rel.handleAppend next
  | handleInstall => exact rel.handleInstall next
  | sendSnapshot => exact rel.sendSnapshot next
  | installDone => exact rel.installDone next
  | applySend => exact rel.applySend next
  | applyResume => exact rel.applyResume next
  | start => exact rel.start next
  | snapshot => exact rel.snapshot next
  | condInstall => exact rel.condInstall next
  | kill => exact rel.kill next
  | crash => exact rel.crash next
  | crashInVote => exact rel.crashInVote next
  | crashInAppend => exact rel.crashInAppend next

theorem NodeRel.initial (s : Fin n) :
    NodeRel (Replica.State.initial (Fin n) (LogEntry C) (0 : Int)) s (make s makePersister) where
  me := rfl
  origin := rfl
  shaped := ⟨List.cons_ne_nil _ _, by rintro e ⟨⟩; rfl, rfl, rfl⟩
  durable := Or.inr ⟨rfl, rfl, rfl, rfl, rfl, rfl⟩
  term := rfl
  role := rfl
  log := rfl
  vote := Or.inl ⟨rfl, rfl⟩
  committed := Or.inl rfl
  baseApplied := le_rfl
  appliedCommit := le_rfl
  commitLast := le_rfl
  matched leads := by cases leads

theorem ClusterRel.initial :
    ClusterRel (init n C) (Replica.State.initial (Fin n) (LogEntry C) (0 : Int)) where
  inv := Replica.Inv.initial 0
  server s := (NodeRel.initial s).boot
  requests request member := by cases member
  replies answer member := by cases member
  delivered delivery member := by cases member

/-- A run of the cluster extends the history of the world. -/
theorem ClusterRel.exec (rel : ClusterRel c A) (run : exec Cluster.step c as = some c') :
    ∃ B, Grows A B ∧ ClusterRel c' B := by
  refine exec_invariant (P := fun u => ∃ B, Grows A B ∧ ClusterRel u B) ⟨A, Grows.refl A, rel⟩ ?_ run
  rintro u a v ⟨B, grows, related⟩ next
  obtain ⟨s, D, moved, rel'⟩ := related.step next
  exact ⟨D, grows.trans (moved.inv_grows related.inv).2, rel'⟩

theorem Cluster.reached (run : Cluster.after n C as = some c) : ∃ A, ClusterRel c A := by
  obtain ⟨A, _, rel⟩ := ClusterRel.initial.exec run
  exact ⟨A, rel⟩

end DistSys.Raft
