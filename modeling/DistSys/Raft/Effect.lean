import DistSys.Raft.CommitRule

namespace DistSys.Raft

variable {n : Nat} {C : Type} {c c' : Cluster n C} {rf rf' rf₁ : Raft n C}
variable {s t : Fin n} {term : Int}

/-- A critical section that installs no snapshot and applies nothing. -/
structure Steady (rf rf' : Raft n C) : Prop where
  base : rf'.lastIncludedIndex = rf.lastIncludedIndex
  snapshot : rf'.persister.snapshot = rf.persister.snapshot
  applied : rf'.lastApplied = rf.lastApplied
  applying : rf'.applying = rf.applying
  commit : rf.commitIndex ≤ rf'.commitIndex

theorem Steady.refl (rf : Raft n C) : Steady rf rf := ⟨rfl, rfl, rfl, rfl, le_rfl⟩

theorem Steady.trans (first : Steady rf rf₁) (rest : Steady rf₁ rf') : Steady rf rf' :=
  ⟨rest.base.trans first.base, rest.snapshot.trans first.snapshot, rest.applied.trans first.applied,
    rest.applying.trans first.applying, first.commit.trans rest.commit⟩

theorem steady_stepBack (rf : Raft n C) (term : Int) : Steady rf (rf.stepBack term) :=
  ⟨rfl, rfl, rfl, rfl, le_rfl⟩

theorem steady_requestVoteReply (rf : Raft n C) (reply : RequestVoteReply) :
    Steady rf (rf.requestVoteReply reply).1 := by
  unfold requestVoteReply
  split
  next => exact steady_stepBack rf reply.term
  next => exact Steady.refl rf

theorem steady_castVote (rf : Raft n C) (args : RequestVoteArgs) (replyTerm : Int) :
    Steady rf (rf.castVote args replyTerm).1 := by
  unfold castVote
  simp only
  split <;> exact ⟨rfl, rfl, rfl, rfl, le_rfl⟩

theorem steady_requestVoteHandle (rf : Raft n C) (args : RequestVoteArgs) :
    Steady rf (rf.requestVoteHandle args).1 := by
  unfold requestVoteHandle
  split
  next => exact Steady.refl rf
  next =>
    split
    next => exact (steady_stepBack rf args.term).trans (steady_castVote _ args rf.currentTerm)
    next => exact steady_castVote rf args rf.currentTerm

theorem steady_installSnapshotReply (rf : Raft n C) (server : Fin n) (reply : InstallSnapshotReply) :
    Steady rf (rf.installSnapshotReply server reply).1 := by
  unfold installSnapshotReply
  split
  next => exact steady_stepBack rf reply.term
  next => exact ⟨rfl, rfl, rfl, rfl, le_rfl⟩

theorem steady_installSnapshot (rf : Raft n C) (args : InstallSnapshotArgs C) :
    Steady rf (rf.installSnapshot args).1 := by
  unfold installSnapshot
  simp only
  split
  next => exact Steady.refl rf
  next =>
    by_cases ahead : args.term > rf.currentTerm
    · simp only [ahead, if_true]
      split <;> exact ⟨rfl, rfl, rfl, rfl, le_rfl⟩
    · simp only [ahead, if_false]
      split <;> exact ⟨rfl, rfl, rfl, rfl, le_rfl⟩

theorem steady_start (rf : Raft n C) (command : C) : Steady rf (rf.start command).1 := by
  unfold start
  split
  next => exact Steady.refl rf
  next => exact ⟨rfl, rfl, rfl, rfl, le_rfl⟩

theorem steady_followTerm (rf : Raft n C) (term : Int) : Steady rf (rf.followTerm term) := by
  unfold followTerm
  split
  next => exact steady_stepBack rf term
  next => split <;> exact ⟨rfl, rfl, rfl, rfl, le_rfl⟩

theorem steady_merge (rf : Raft n C) (args : AppendEntryArgs C) : Steady rf (rf.merge args) := by
  unfold merge
  cases rf.scan (args.prevLogIndex + 1) args.entries <;> exact ⟨rfl, rfl, rfl, rfl, le_rfl⟩

/-- A critical section that may end in `applyCommittedEntries`. -/
def Advances (rf : Raft n C) (result : Raft n C × Option (Batch C)) : Prop :=
  ∃ rf₁, Steady rf rf₁ ∧ (result = (rf₁, none) ∨ result = rf₁.applyCommittedEntries)

theorem Steady.advances (steady : Steady rf rf') : Advances rf (rf', none) :=
  ⟨rf', steady, Or.inl rfl⟩

theorem Advances.after {result : Raft n C × Option (Batch C)} (rest : Advances rf₁ result)
    (first : Steady rf rf₁) : Advances rf result := by
  obtain ⟨rf₂, steady, ends⟩ := rest
  exact ⟨rf₂, first.trans steady, ends⟩

theorem advances_commit {N : Int} (further : rf.commitIndex < N) :
    Advances rf (applyCommittedEntries { rf with commitIndex := N }) :=
  ⟨{ rf with commitIndex := N }, ⟨rfl, rfl, rfl, rfl, further.le⟩, Or.inr rfl⟩

theorem advances_commitHeartbeat (rf : Raft n C) (args : AppendEntryArgs C) :
    Advances rf (rf.commitHeartbeat args) := by
  unfold commitHeartbeat
  split
  next =>
    simp only
    split
    next further => exact advances_commit further.1
    next => exact (Steady.refl rf).advances
  next => exact (Steady.refl rf).advances

theorem advances_commitEntries (rf : Raft n C) (args : AppendEntryArgs C) :
    Advances rf (rf.commitEntries args) := by
  unfold commitEntries
  split
  next =>
    simp only
    split
    next further => exact advances_commit further
    next => exact (Steady.refl rf).advances
  next => exact (Steady.refl rf).advances

theorem advances_appendEntriesHandler (rf : Raft n C) (args : AppendEntryArgs C) :
    Advances rf ((rf.appendEntriesHandler args).1, (rf.appendEntriesHandler args).2.2) := by
  have first := steady_followTerm rf args.term
  unfold appendEntriesHandler
  simp only
  split
  next => exact first.advances
  next =>
    split
    next =>
      split
      next => exact (advances_commitHeartbeat _ args).after first
      next => exact first.advances
    next =>
      split
      next => exact (advances_commitEntries _ args).after (first.trans (steady_merge _ args))
      next => exact first.advances

theorem advances_advanceCommitIndexLocked (rf : Raft n C) (inside : rf.commitIndex ≤ rf.lastIndex) :
    Advances rf rf.advanceCommitIndexLocked := by
  unfold advanceCommitIndexLocked
  split
  next => exact (Steady.refl rf).advances
  next =>
    split
    next => exact (Steady.refl rf).advances
    next M found =>
      obtain ⟨lower, _⟩ := commitCandidate_some found
      exact advances_commit (by omega)

theorem advances_appendEntriesReply (rf : Raft n C) (server : Fin n) (term : Int)
    (args : AppendEntryArgs C) (reply : AppendEntryReply) (inside : rf.commitIndex ≤ rf.lastIndex) :
    Advances rf ((rf.appendEntriesReply server term args reply).1,
      (rf.appendEntriesReply server term args reply).2.1) := by
  unfold appendEntriesReply
  split
  next => exact (steady_stepBack rf reply.term).advances
  next =>
    split
    next => exact (Steady.refl rf).advances
    next =>
      split
      next =>
        have acknowledged : Steady rf (rf.acknowledge server (args.prevLogIndex + args.entries.length)) :=
          ⟨rfl, rfl, rfl, rfl, le_rfl⟩
        exact (advances_advanceCommitIndexLocked (rf.acknowledge server _) inside).after acknowledged
      next =>
        have retried : Steady rf { rf with
            nextIndex := Function.update rf.nextIndex server
              (if rf.nextIndex server > rf.lastIncludedIndex then rf.nextIndex server - 1
                else rf.nextIndex server) } := ⟨rfl, rfl, rfl, rfl, le_rfl⟩
        exact retried.advances

/-- The part of a server that decides what its service sees. -/
structure Delivery (n : Nat) (C : Type) where
  rf : Raft n C
  bootIndex : Int
  batch : Option (Sending C)
  service : List (ServiceEvent C)

def Server.delivery (server : Server n C) : Delivery n C :=
  ⟨server.rf, server.bootIndex, server.batch, server.service⟩

/-- The actions that end an incarnation. -/
def Action.crashes : Action n C → Bool
  | .crash _ | .crashInVote _ | .crashInAppend _ => true
  | _ => false

variable [Inhabited C]

/-- What an action of server `s` does to its delivery. -/
inductive Effect (a : Action n C) (s : Fin n) (d : Delivery n C) : Delivery n C → Prop
  | quiet {rf' : Raft n C} : Steady d.rf rf' → Effect a s d { d with rf := rf' }
  | advance {result : Raft n C × Option (Batch C)} (answer : Option (Nat × AppendEntryReply)) :
      Advances d.rf result →
      Effect a s d { d with rf := result.1, batch := Cluster.nextBatch d.batch result.2 answer }
  | offer {data : Blob C} {term index : Int} :
      Effect a s d { d with service := d.service ++ [.received (.snapshot data term index)] }
  | apply {msg : ApplyMsg C} {msgs : List (ApplyMsg C)} {lastSent : Int}
      {answer : Option (Nat × AppendEntryReply)} : d.batch = some ⟨msg :: msgs, lastSent, answer⟩ →
      Effect a s d { d with
        batch := some ⟨msgs, lastSent, answer⟩, service := d.service ++ [.received msg] }
  | resume {lastSent : Int} {answer : Option (Nat × AppendEntryReply)} : a = .applyResume s →
      d.batch = some ⟨[], lastSent, answer⟩ →
      Effect a s d { d with
        rf := (d.rf.applyResume lastSent).1
        batch := Cluster.nextBatch none (d.rf.applyResume lastSent).2 answer }
  | compact {index : Int} {bytes : List UInt8} : a = .snapshot s index bytes →
      hasReceived d.service index = true →
      Effect a s d { d with rf := d.rf.snapshot index bytes }
  | install {event : Nat} {data : Blob C} {term index : Int} : a = .condInstall s event →
      d.service[event]? = some (.received (.snapshot data term index)) →
      Effect a s d { d with
        rf := (d.rf.condInstallSnapshot term index data).1
        service := d.service ++
          [.condInstalled index (d.rf.condInstallSnapshot term index data).2] }
  | reboot {rf' : Raft n C} : a.crashes = true → (rf' = d.rf ∨ ∃ term, rf' = d.rf.stepBack term) →
      Effect a s d (boot s rf'.persister).delivery

/-- One server has acted, and the action had an effect on it. -/
def Affects (c : Cluster n C) (a : Action n C) (c' : Cluster n C) : Prop :=
  ∃ s, (∀ t, t ≠ s → c'.server t = c.server t) ∧
    Effect a s (c.server s).delivery (c'.server s).delivery

theorem affects_setServer {a : Action n C} {server : Server n C}
    (effect : Effect a s (c.server s).delivery server.delivery) : Affects c a (c.setServer s server) := by
  refine ⟨s, setServer_others c s server, ?_⟩
  rw [setServer_self]
  exact effect

theorem affects_quiet {a : Action n C} {server : Server n C} (steady : Steady (c.server s).rf server.rf)
    (boot : server.bootIndex = (c.server s).bootIndex) (batch : server.batch = (c.server s).batch)
    (service : server.service = (c.server s).service) : Affects c a (c.setServer s server) := by
  refine affects_setServer ?_
  have same : server.delivery = { (c.server s).delivery with rf := server.rf } := by
    rw [Server.delivery, boot, batch, service]
    rfl
  rw [same]
  exact .quiet steady

end DistSys.Raft
