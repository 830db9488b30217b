import DistSys.Raft.Effect
import DistSys.Raft.Outcome

namespace DistSys.Raft

variable {n : Nat} {C : Type} [Inhabited C] {A : World n C} {c c' : Cluster n C} {s peer : Fin n}
variable {b i k call : Nat}

section
variable {a : Action n C} {server : Server n C} (boot : server.bootIndex = (c.server s).bootIndex)
  (service : server.service = (c.server s).service)
include boot service

theorem affects_advance {result : Raft n C × Option (Batch C)} (advances : Advances (c.server s).rf result)
    (answer : Option (Nat × AppendEntryReply)) (rf : server.rf = result.1)
    (batch : server.batch = Cluster.nextBatch (c.server s).batch result.2 answer) :
    Affects c a (c.setServer s server) := by
  refine affects_setServer ?_
  have same : server.delivery = { (c.server s).delivery with
      rf := result.1, batch := Cluster.nextBatch (c.server s).batch result.2 answer } := by
    rw [Server.delivery, boot, service, rf, batch]
    rfl
  rw [same]
  exact .advance answer advances

theorem affects_resume {lastSent : Int} {answer : Option (Nat × AppendEntryReply)}
    (under : (c.server s).batch = some ⟨[], lastSent, answer⟩)
    (rf : server.rf = ((c.server s).rf.applyResume lastSent).1)
    (batch : server.batch = Cluster.nextBatch none ((c.server s).rf.applyResume lastSent).2 answer) :
    Affects c (.applyResume s) (c.setServer s server) := by
  refine affects_setServer ?_
  have same : server.delivery = { (c.server s).delivery with
      rf := ((c.server s).rf.applyResume lastSent).1
      batch := Cluster.nextBatch none ((c.server s).rf.applyResume lastSent).2 answer } := by
    rw [Server.delivery, boot, service, rf, batch]
    rfl
  rw [same]
  exact .resume rfl under

end

/-- Every action affects the delivery of one server, in one of eight ways. -/
theorem ClusterRel.affects {a : Action n C} (rel : ClusterRel c A) (next : c.step a = some c') :
    Affects c a c' := by
  cases outcome_of_step next with
  | electionTimeout | requestVoteFailed | counted | heartbeat | broadcast | stopped | replicateFailed =>
    exact affects_quiet (Steady.refl _) rfl rfl rfl
  | @requestVote s | @sentInstall s | @sentAppend s =>
    exact affects_quiet (c := c) (s := s) (Steady.refl _) rfl rfl rfl
  | election | elected | kill => exact affects_quiet ⟨rfl, rfl, rfl, rfl, le_rfl⟩ rfl rfl rfl
  | requestVoteReply => exact affects_quiet (steady_requestVoteReply _ _) rfl rfl rfl
  | installReply => exact affects_quiet (steady_installSnapshotReply _ _ _) rfl rfl rfl
  | @handleVote s => exact affects_quiet (c := c) (s := s) (steady_requestVoteHandle _ _) rfl rfl rfl
  | offeredInstall => exact affects_quiet (steady_installSnapshot _ _) rfl rfl rfl
  | @answeredInstall s => exact affects_quiet (c := c) (s := s) (steady_installSnapshot _ _) rfl rfl rfl
  | @installDone s => exact affects_quiet (c := c) (s := s) ⟨rfl, rfl, rfl, rfl, le_rfl⟩ rfl rfl rfl
  | start => exact affects_quiet (steady_start _ _) rfl rfl rfl
  | @appendReply s _ _ _ _ _ r args reply =>
    have inside := (rel.server s).node.commitLast
    have advances := advances_appendEntriesReply (c.server s).rf r.server r.term args reply inside
    exact affects_advance rfl rfl advances none rfl rfl
  | @answeredAppend s _ _ args _ quiet =>
    have advances := advances_appendEntriesHandler (c.server s).rf args
    exact affects_advance (c := c) (s := s) rfl rfl advances none rfl (by rw [quiet]; rfl)
  | @appliedAppend s _ call args batch _ applies =>
    have advances := advances_appendEntriesHandler (c.server s).rf args
    exact affects_advance rfl rfl advances (some (call, _)) rfl (by rw [applies]; rfl)
  | @sendSnapshot s => exact affects_setServer (c := c) (s := s) .offer
  | @applySend s _ _ _ _ under => exact affects_setServer (c := c) (s := s) (.apply under)
  | applyAgain under again => exact affects_resume rfl rfl under rfl (by rw [again]; rfl)
  | @applyDone s _ answer under done =>
    cases answer with
    | none => exact affects_resume rfl rfl under rfl (by rw [done]; rfl)
    | some owed => exact affects_resume (c := c) (s := s) rfl rfl under rfl (by rw [done]; rfl)
  | snapshot received => exact affects_setServer (.compact rfl received)
  | condInstall found => exact affects_setServer (.install rfl found)
  | crash => exact affects_setServer (.reboot rfl (Or.inl rfl))
  | crashInVote => exact affects_setServer (.reboot rfl (Or.inr ⟨_, rfl⟩))
  | crashInAppend => exact affects_setServer (.reboot rfl (Or.inr ⟨_, rfl⟩))

end DistSys.Raft
