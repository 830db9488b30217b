import DistSys.Raft.SimReplicate

namespace DistSys.Raft

open Replica (Grows Committed Moved)

variable {n : Nat} {C : Type} [Inhabited C] {A B : World n C} {c c' : Cluster n C}
variable {requests : List (Request n C)} {s : Fin n} {server : Server n C} {i call : Nat}

theorem ServerRel.setInstall {install : Install C} {pc : InstallPc}
    (rel : ServerRel A requests s server) (found : server.installs[i]? = some install) :
    ServerRel A requests s (server.setInstall i { install with pc := pc }) := by
  refine ⟨rel.node, rel.ballots, rel.replicators, fun other member => ?_, rel.batch, rel.service⟩
  rcases List.mem_or_eq_of_mem_set member with old | rfl
  · exact rel.installs other old
  · exact rel.installs install (List.mem_of_getElem? found)

/-- The service sees one more event; a snapshot it receives is accounted for. -/
theorem ServerRel.observe (rel : ServerRel A requests s server) {event : ServiceEvent C}
    (known : ∀ data term index, event = .received (.snapshot data term index) →
      SnapshotRel A server.rf.currentTerm data term index) :
    ServerRel A requests s { server with service := server.service ++ [event] } := by
  refine ⟨rel.node, rel.ballots, rel.replicators, rel.installs, rel.batch, fun data term index member => ?_⟩
  rcases List.mem_append.mp member with old | new
  · exact rel.service data term index old
  · exact known data term index (List.mem_singleton.mp new).symm

theorem ClusterRel.handleInstall (rel : ClusterRel c A) (next : c.handleInstall call = some c') :
    Simulated A c' := by
  cases outcome_of_step (a := .handleInstall call) next with
  | @offeredInstall s _ _ args found sends =>
    have request := rel.requests _ (List.mem_of_getElem? found)
    obtain ⟨B, moved, node, commit, reached⟩ := (rel.server s).node.installSnapshot rel.inv args
    have acted := rel.act moved node commit.ge
    refine ⟨s, B, moved, rel.setServer moved ⟨acted.node, acted.ballots, acted.replicators,
      fun install member => ?_, acted.batch, acted.service⟩⟩
    rcases List.mem_append.mp member with old | new
    · exact acted.installs install old
    · rw [List.mem_singleton.mp new]
      exact ⟨(List.getElem?_eq_some_iff.mp found).1,
        SnapshotRel.grows request (moved.inv_grows rel.inv).2 (reached sends)⟩
  | @answeredInstall s _ _ args found =>
    obtain ⟨B, moved, node, commit, _⟩ := (rel.server s).node.installSnapshot rel.inv args
    exact ⟨s, B, moved, rel.addReply moved (rel.act moved node commit.ge)
      ⟨(List.getElem?_eq_some_iff.mp found).1, trivial⟩⟩

theorem ClusterRel.sendSnapshot (rel : ClusterRel c A) (next : c.sendSnapshot s i = some c') :
    Simulated A c' := by
  cases outcome_of_step (a := .sendSnapshot s i) next with
  | @sendSnapshot _ _ install found =>
    have snap := ((rel.server s).installs install (List.mem_of_getElem? found)).2
    refine ⟨s, A, Moved.refl s A, rel.deliver (Moved.refl s A) ?_ snap⟩
    refine ((rel.server s).setInstall found).observe ?_
    rintro data term index ⟨⟩
    exact snap

theorem ClusterRel.installDone (rel : ClusterRel c A) (next : c.installDone s i = some c') :
    Simulated A c' := by
  cases outcome_of_step (a := .installDone s i) next with
  | @installDone _ _ install found =>
    have known := ((rel.server s).installs install (List.mem_of_getElem? found)).1
    have acted := rel.act (Moved.refl s A) ((rel.server s).node.setInFlight false) le_rfl
    exact ⟨s, A, Moved.refl s A, rel.addReply (Moved.refl s A) (acted.setInstall found)
      ⟨known, trivial⟩⟩

theorem ClusterRel.applySend (rel : ClusterRel c A) (next : c.applySend s = some c') :
    Simulated A c' := by
  cases outcome_of_step (a := .applySend s) next with
  | @applySend _ msg _ _ _ under =>
    have old := (rel.server s).batch _ under
    have sent := old.msgs msg (List.mem_cons_self ..)
    refine ⟨s, A, Moved.refl s A, rel.deliver (Moved.refl s A) ?_ sent⟩
    refine ((rel.server s).setBatch ?_).observe ?_
    · rintro sending ⟨⟩
      exact ⟨fun other member => old.msgs other (List.mem_cons_of_mem _ member), old.lastSent, old.answer⟩
    · rintro data term index ⟨⟩
      exact sent

theorem ClusterRel.applyResume (rel : ClusterRel c A) (next : c.applyResume s = some c') :
    Simulated A c' := by
  cases outcome_of_step (a := .applyResume s) next with
  | @applyAgain _ _ _ batch under started =>
    have old := (rel.server s).batch _ under
    have applies := (rel.server s).node.applyResume old.lastSent
    have acted := rel.act (Moved.refl s A) applies.node applies.commit
    refine ⟨s, A, Moved.refl s A, rel.setServer (Moved.refl s A) (acted.setBatch ?_)⟩
    rintro sending ⟨⟩
    exact (applies.batch batch started).sending old.answer
  | @applyDone _ _ answer under =>
    have old := (rel.server s).batch _ under
    have applies := (rel.server s).node.applyResume old.lastSent
    have acted := rel.act (Moved.refl s A) applies.node applies.commit
    have ended := acted.setBatch
      (show ∀ sending, none = some sending → SendingRel A c.requests _ sending from
        fun _ absent => by cases absent)
    cases answer with
    | none => exact ⟨s, A, Moved.refl s A, rel.setServer (Moved.refl s A) ended⟩
    | some owed =>
      obtain ⟨call, reply⟩ := owed
      exact ⟨s, A, Moved.refl s A, rel.addReply (Moved.refl s A) ended (old.answer call reply rfl)⟩

theorem ClusterRel.start {command : C} (rel : ClusterRel c A) (next : c.start s command = some c') :
    Simulated A c' := by
  cases next
  obtain ⟨B, moved, node, commit⟩ := (rel.server s).node.start rel.inv command
  exact ⟨s, B, moved, rel.setServer moved
    ((rel.act moved node commit.ge).counters (c.server s).elections _)⟩

theorem ClusterRel.snapshot {index : Int} {bytes : List UInt8} (rel : ClusterRel c A)
    (next : c.snapshot s index bytes = some c') : Simulated A c' := by
  cases outcome_of_step (a := .snapshot s index bytes) next
  have node := (rel.server s).node.snapshot index bytes
  have commit := commitIndex_le_snapshot (c.server s).rf index bytes
  exact ⟨s, A, Moved.refl s A, rel.setServer (Moved.refl s A) (rel.act (Moved.refl s A) node commit)⟩

theorem ClusterRel.condInstall {event : Nat} (rel : ClusterRel c A)
    (next : c.condInstall s event = some c') : Simulated A c' := by
  cases outcome_of_step (a := .condInstall s event) next with
  | @condInstall _ _ data term index found =>
    have snap := (rel.server s).service data term index (List.mem_of_getElem? found)
    obtain ⟨B, moved, node, commit⟩ := (rel.server s).node.condInstallSnapshot rel.inv snap
    refine ⟨s, B, moved, rel.setServer moved ((rel.act moved node commit).observe ?_)⟩
    rintro data' term' index' ⟨⟩

theorem ClusterRel.kill (rel : ClusterRel c A) (next : c.kill s = some c') : Simulated A c' := by
  cases next
  have node := (rel.server s).node
  have marked := node.volatile true (c.server s).rf.nextIndex (c.server s).rf.applying
    (c.server s).rf.snapshotInFlight node.baseApplied node.appliedCommit
  exact ⟨s, A, Moved.refl s A, rel.setServer (Moved.refl s A) (rel.act (Moved.refl s A) marked le_rfl)⟩

/-- A fresh incarnation has no goroutines and its service has seen nothing. -/
theorem NodeRel.boot {persister : Persister C} (node : NodeRel A s (make s persister)) :
    ServerRel A requests s (boot s persister) := by
  refine ⟨node, ?_, ?_, ?_, ?_, ?_⟩
  · rintro ballot ⟨⟩
  · rintro r ⟨⟩
  · rintro install ⟨⟩
  · rintro batch ⟨⟩
  · rintro data term index ⟨⟩

theorem ClusterRel.crash (rel : ClusterRel c A) (next : c.crash s = some c') : Simulated A c' := by
  cases next
  obtain ⟨B, moved, _, node⟩ := (rel.server s).node.crash rel.inv
  exact ⟨s, B, moved, rel.setServer moved node.boot⟩

/-- A crash right after a new term was persisted. -/
theorem ClusterRel.crashAhead {term : Int} (rel : ClusterRel c A)
    (ahead : term > (c.server s).rf.currentTerm) :
    Simulated A (c.setServer s (boot s ((c.server s).rf.stepBack term).persister)) := by
  obtain ⟨A', first, quiet, stepped⟩ := (rel.server s).node.stepBack rel.inv ahead
  obtain ⟨B, moved, _, node⟩ := stepped.crash (first.inv_grows rel.inv).1
  exact ⟨s, B, moved.after first quiet, rel.setServer (moved.after first quiet) node.boot⟩

theorem ClusterRel.crashInVote (rel : ClusterRel c A) (next : c.crashInVote call = some c') :
    Simulated A c' := by
  cases outcome_of_step (a := .crashInVote call) next with
  | crashInVote _ ahead => exact rel.crashAhead ahead

theorem ClusterRel.crashInAppend (rel : ClusterRel c A) (next : c.crashInAppend call = some c') :
    Simulated A c' := by
  cases outcome_of_step (a := .crashInAppend call) next with
  | crashInAppend _ ahead => exact rel.crashAhead ahead

end DistSys.Raft
