import DistSys.Raft.NodeStep
import DistSys.Raft.LogInvariant

namespace DistSys.Raft

variable {n : Nat} {C : Type} {c c' : Cluster n C} {rf rf' : Raft n C}
variable {as : List (Action n C)} {a : Action n C} {s i : Fin n}

/-- The role and the term stay, and while it leads no peer falls back and none is
moved below what it has acknowledged. -/
structure Advance (rf rf' : Raft n C) : Prop where
  state : rf'.state = rf.state
  term : rf'.currentTerm = rf.currentTerm
  grows : rf.state = .leader → ∀ i, rf.matchIndex i ≤ rf'.matchIndex i
  below : rf.state = .leader → ∀ i, rf.matchIndex i < rf.nextIndex i → rf'.matchIndex i < rf'.nextIndex i

theorem Advance.of_eq (state : rf'.state = rf.state) (term : rf'.currentTerm = rf.currentTerm)
    (next : rf'.nextIndex = rf.nextIndex) (matched : rf'.matchIndex = rf.matchIndex) : Advance rf rf' where
  state := state
  term := term
  grows _ i := by rw [matched]
  below _ i less := by rwa [matched, next]

/-- What an operation can do to a server as far as its progress indices go. -/
inductive Tends (rf : Raft n C) : Raft n C → Prop
  | follows {rf' : Raft n C} : rf'.state = .follower → Tends rf rf'
  | campaigns {rf' : Raft n C} : rf'.state = .candidate → rf.currentTerm < rf'.currentTerm → Tends rf rf'
  | elected : rf.state = .candidate → Tends rf rf.becomeLeader
  | advances {rf' : Raft n C} : Advance rf rf' → Tends rf rf'

theorem Tends.refl (rf : Raft n C) : Tends rf rf :=
  .advances (.of_eq rfl rfl rfl rfl)

theorem tends_requestVoteReply (rf : Raft n C) (reply : RequestVoteReply) :
    Tends rf (rf.requestVoteReply reply).1 := by
  unfold requestVoteReply
  split
  next => exact .follows rfl
  next => exact Tends.refl rf

theorem castVote_state (rf : Raft n C) (args : RequestVoteArgs) (replyTerm : Int) :
    (rf.castVote args replyTerm).1.state = rf.state := by
  unfold castVote
  simp only
  split <;> rfl

theorem tends_requestVoteHandle (rf : Raft n C) (args : RequestVoteArgs) :
    Tends rf (rf.requestVoteHandle args).1 := by
  unfold requestVoteHandle
  split
  next => exact Tends.refl rf
  next =>
    split
    next => exact .follows (castVote_state (rf.stepBack args.term) args rf.currentTerm)
    next =>
      unfold castVote
      simp only
      split
      next => exact .advances (.of_eq rfl rfl rfl rfl)
      next => exact Tends.refl rf

/-- A request that is not behind makes a follower of its receiver. -/
theorem tends_appendEntriesHandler [Inhabited C] (rf : Raft n C) (args : AppendEntryArgs C) :
    Tends rf (rf.appendEntriesHandler args).1 := by
  rcases appendEntriesHandler_cases rf args with ⟨_, handled⟩ | ⟨reached, _, _, commitIndex, applying, handled⟩
  · rw [handled]
    rcases lt_or_ge args.term rf.currentTerm with behind | reached
    · rw [followTerm_behind behind]
      exact Tends.refl rf
    · exact .follows (followTerm_reached reached).2
  · obtain ⟨logs, persister, merged, _⟩ := merge_eq (rf.followTerm args.term) args
    rw [handled, merged]
    exact .follows (followTerm_reached reached).2

theorem tends_installSnapshot (rf : Raft n C) (args : InstallSnapshotArgs C) :
    Tends rf (rf.installSnapshot args).1 := by
  unfold installSnapshot
  simp only
  split
  next => exact Tends.refl rf
  next =>
    by_cases ahead : args.term > rf.currentTerm
    · simp only [ahead, if_true]
      split <;> exact .follows rfl
    · simp only [ahead, if_false]
      split
      next => exact Tends.refl rf
      next => exact .advances (.of_eq rfl rfl rfl rfl)

theorem tends_applyResume (rf : Raft n C) (lastSent : Int) : Tends rf (rf.applyResume lastSent).1 := by
  unfold applyResume
  split
  next => exact .advances (.of_eq rfl rfl rfl rfl)
  next =>
    obtain ⟨applying, node⟩ := applyLoop_node { rf with
      lastApplied := if rf.lastApplied < lastSent then lastSent else rf.lastApplied }
    rw [node]
    exact .advances (.of_eq rfl rfl rfl rfl)

theorem tends_start (rf : Raft n C) (command : C) : Tends rf (rf.start command).1 := by
  unfold start
  split
  next => exact Tends.refl rf
  next => exact .advances (.of_eq rfl rfl rfl rfl)

theorem tends_snapshot [Inhabited C] (rf : Raft n C) (index : Int) (bytes : List UInt8) :
    Tends rf (rf.snapshot index bytes) := by
  rcases snapshot_cases rf index bytes with same | ⟨_, suffix, covers, _, _, new⟩
  · rw [same]
    exact Tends.refl rf
  · rw [new]
    exact .advances (.of_eq rfl rfl rfl rfl)

theorem tends_condInstallSnapshot [Inhabited C] (rf : Raft n C) (term index : Int) (data : Blob C) :
    Tends rf (rf.condInstallSnapshot term index data).1 := by
  rcases condInstallSnapshot_cases rf term index data with ⟨_, same⟩ | ⟨_, new⟩
  · rw [same]
    exact Tends.refl rf
  · rw [new]
    exact .advances (.of_eq rfl rfl rfl rfl)

theorem boot_state [Inhabited C] (me : Fin n) (persister : Persister C) :
    (boot me persister).rf.state = .follower := by
  simp only [boot, make, readPersist]
  split
  next => rfl
  next =>
    split
    next => rfl
    next =>
      split
      next => rfl
      next => split <;> rfl

theorem advance_advanceCommitIndexLocked (rf : Raft n C) : Advance rf rf.advanceCommitIndexLocked.1 := by
  unfold advanceCommitIndexLocked
  split
  next => exact .of_eq rfl rfl rfl rfl
  next =>
    split
    next => exact .of_eq rfl rfl rfl rfl
    next N _ =>
      obtain ⟨applying, node⟩ := applyCommittedEntries_node { rf with commitIndex := N }
      rw [node]
      exact .of_eq rfl rfl rfl rfl

theorem Advance.trans {rf₁ : Raft n C} (first : Advance rf rf₁) (rest : Advance rf₁ rf') : Advance rf rf' where
  state := rest.state.trans first.state
  term := rest.term.trans first.term
  grows leads i := (first.grows leads i).trans (rest.grows (first.state.trans leads) i)
  below leads i less := rest.below (first.state.trans leads) i (first.below leads i less)

/-- A success never takes anything back, however late it comes. -/
theorem advance_acknowledge (rf : Raft n C) (server : Fin n) (matched : Int) :
    Advance rf (rf.acknowledge server matched) where
  state := rfl
  term := rfl
  grows _ i := by
    simp only [acknowledge, Function.update_apply]
    split
    next here => subst here; split <;> omega
    next => exact le_rfl
  below _ i less := by
    simp only [acknowledge, Function.update_apply]
    split
    next here => subst here; split <;> split <;> omega
    next => exact less

/-- A leader may take a refusal from a peer only while `nextIndex` is not next to what
the peer has acknowledged, or is at the snapshot and will not move. -/
def MayBackOff (rf : Raft n C) (server : Fin n) : Prop :=
  rf.state = .leader →
    rf.matchIndex server + 1 < rf.nextIndex server ∨ rf.nextIndex server ≤ rf.lastIncludedIndex

/-- A leader may take the answer to a snapshot only while the peer has acknowledged
nothing beyond the leader's present base. -/
def MayReset (rf : Raft n C) (server : Fin n) : Prop :=
  rf.state = .leader → rf.matchIndex server ≤ rf.lastIncludedIndex

instance decidableMayBackOff (rf : Raft n C) (server : Fin n) : Decidable (MayBackOff rf server) :=
  inferInstanceAs (Decidable (_ → _))

instance decidableMayReset (rf : Raft n C) (server : Fin n) : Decidable (MayReset rf server) :=
  inferInstanceAs (Decidable (_ → _))

theorem tends_appendEntriesReply {server : Fin n} (term : Int) (args : AppendEntryArgs C)
    {reply : AppendEntryReply}
    (fresh : reply.success = false → reply.term ≤ rf.currentTerm → term = rf.currentTerm → MayBackOff rf server) :
    Tends rf (rf.appendEntriesReply server term args reply).1 := by
  unfold appendEntriesReply
  split
  next => exact .follows rfl
  next within =>
    split
    next => exact Tends.refl rf
    next current =>
      rw [not_or, not_not, not_not] at current
      split
      next => exact .advances ((advance_acknowledge rf server _).trans (advance_advanceCommitIndexLocked _))
      next refused =>
        refine .advances ⟨rfl, rfl, fun _ _ => le_rfl, fun leads i less => ?_⟩
        have room := fresh (Bool.not_eq_true _ ▸ refused) (not_lt.mp within) current.2 leads
        simp only [Function.update_apply]
        split
        next here => subst here; split <;> omega
        next => exact less

theorem tends_installSnapshotReply {server : Fin n} (reply : InstallSnapshotReply)
    (fresh : reply.term ≤ rf.currentTerm → MayReset rf server) :
    Tends rf (rf.installSnapshotReply server reply).1 := by
  unfold installSnapshotReply
  split
  next => exact .follows rfl
  next within =>
    refine .advances ⟨rfl, rfl, fun leads i => ?_, fun _ i less => ?_⟩
    · simp only [Function.update_apply]
      split
      next here => subst here; exact fresh (not_lt.mp within) leads
      next => exact le_rfl
    · simp only [Function.update_apply]
      split
      next => exact Int.lt_succ _
      next => exact less

/-- A refusal that lowers `nextIndex`: it does not depose the leader, and the goroutine of
`term` that gets it is not stale. -/
def Reply.backsOff (rf : Raft n C) (term : Int) : Reply → Bool
  | .append reply => !reply.success && decide (reply.term ≤ rf.currentTerm ∧ term = rf.currentTerm)
  | _ => false

/-- An answer to a snapshot that sets both indices: it does not depose the leader. -/
def Reply.resets (rf : Raft n C) : Reply → Bool
  | .install reply => decide (reply.term ≤ rf.currentTerm)
  | _ => false

/-- The action takes no answer that would undo progress. -/
def Fresh (c : Cluster n C) : Action n C → Prop
  | .installReply s i k => ∀ r ∈ (c.server s).replicators[i]?, ∀ answer ∈ c.replies[k]?,
      answer.2.resets (c.server s).rf = true → MayReset (c.server s).rf r.server
  | .appendReply s i k => ∀ r ∈ (c.server s).replicators[i]?, ∀ answer ∈ c.replies[k]?,
      answer.2.backsOff (c.server s).rf r.term = true → MayBackOff (c.server s).rf r.server
  | _ => True

instance decidableFresh (c : Cluster n C) (a : Action n C) : Decidable (Fresh c a) := by
  cases a <;> unfold Fresh <;> infer_instance

variable [Inhabited C]

theorem NodeStep.tends (step : NodeStep c s a rf) (fresh : Fresh c a) : Tends (c.server s).rf rf := by
  cases step with
  | none => exact Tends.refl _
  | election => exact .campaigns rfl (Int.lt_succ _)
  | requestVoteReply => exact tends_requestVoteReply _ _
  | countVote runs => exact .elected runs
  | installReply found answered =>
    refine tends_installSnapshotReply _ fun within => fresh _ found _ answered ?_
    exact decide_eq_true within
  | appendReply found answered =>
    refine tends_appendEntriesReply _ _ fun refused within current => fresh _ found _ answered ?_
    rw [Reply.backsOff, refused, Bool.not_false, Bool.true_and]
    exact decide_eq_true ⟨within, current⟩
  | handleVote => exact tends_requestVoteHandle _ _
  | handleAppend => exact tends_appendEntriesHandler _ _
  | handleInstall => exact tends_installSnapshot _ _
  | installDone => exact .advances (.of_eq rfl rfl rfl rfl)
  | applyResume => exact tends_applyResume _ _
  | start => exact tends_start _ _
  | snapshot => exact tends_snapshot _ _ _
  | condInstall => exact tends_condInstallSnapshot _ _ _ _
  | kill => exact .advances (.of_eq rfl rfl rfl rfl)
  | boot => exact .follows (boot_state _ _)

theorem tends_of_step (next : c.step a = some c') (fresh : Fresh c a) (s : Fin n) :
    Tends (c.server s).rf (c'.server s).rf := by
  obtain ⟨actor, others, performed⟩ := performs_of_step next
  by_cases acting : s = actor
  · subst acting
    exact performed.tends fresh
  · rw [others s acting]
    exact Tends.refl _

/-- No peer is asked for less than it has acknowledged. -/
def Ahead (rf : Raft n C) : Prop :=
  rf.state = .leader → ∀ i, rf.matchIndex i < rf.nextIndex i

omit [Inhabited C] in
theorem Tends.ahead (tends : Tends rf rf') (base : rf.lastIncludedIndex ≤ rf.lastIndex) (old : Ahead rf) :
    Ahead rf' := by
  intro leads i
  cases tends with
  | follows state => rw [state] at leads; cases leads
  | campaigns state => rw [state] at leads; cases leads
  | elected =>
    simp only [becomeLeader]
    split <;> omega
  | advances advance =>
    have led := advance.state.symm.trans leads
    exact advance.below led i (old led i)

/-- Since it led term `T` with `m` acknowledged by peer `i`, a server has left that
term, or it has not run in it again and has not lost the acknowledgement. -/
def Since (T : Int) (i : Fin n) (m : Int) (rf : Raft n C) : Prop :=
  T < rf.currentTerm ∨ rf.currentTerm = T ∧ rf.state ≠ .candidate ∧ (rf.state = .leader → m ≤ rf.matchIndex i)

omit [Inhabited C] in
theorem Tends.since {T m : Int} (tends : Tends rf rf') (later : rf.currentTerm ≤ rf'.currentTerm)
    (old : Since T i m rf) : Since T i m rf' := by
  rcases old with past | ⟨now, quiet, kept⟩
  · exact Or.inl (past.trans_le later)
  · rcases later.lt_or_eq with left | same
    · exact Or.inl (now ▸ left)
    · refine Or.inr ⟨same.symm.trans now, ?_⟩
      cases tends with
      | follows state => rw [state]; exact ⟨Stat.noConfusion, fun leads => by cases leads⟩
      | campaigns _ ahead => omega
      | elected runs => exact absurd runs quiet
      | advances advance =>
        rw [advance.state]
        exact ⟨quiet, fun leads => (kept leads).trans (advance.grows leads i)⟩

/-- If no leader takes an answer that undoes progress, then in every reachable state
every leader has `matchIndex` below `nextIndex` for every peer, and from any
moment at which a server leads a term to any later one at which it does, no
`matchIndex` has decreased. -/
theorem leader_progress (run : Cluster.after n C as = some c)
    (guarded : Along Cluster.step (init n C) as Fresh) :
    (∀ s, (c.server s).rf.state = .leader → ∀ i, i ≠ s →
      (c.server s).rf.matchIndex i < (c.server s).rf.nextIndex i) ∧
    ∀ bs u, bs <+: as → Cluster.after n C bs = some u → ∀ s, (u.server s).rf.state = .leader →
      (c.server s).rf.state = .leader → (c.server s).rf.currentTerm = (u.server s).rf.currentTerm →
      ∀ i, i ≠ s → (u.server s).rf.matchIndex i ≤ (c.server s).rf.matchIndex i := by
  constructor
  · have ahead : ∀ s, Ahead (c.server s).rf := by
      refine exec_along (P := fun _ u => ∀ s, Ahead (u.server s).rf) ?_ ?_ guarded run
      · intro s leads
        rw [init, boot_state] at leads
        cases leads
      · intro bs u a v before old fresh next s
        obtain ⟨A, rel⟩ := Cluster.reached before
        exact (tends_of_step next fresh s).ahead (rel.server s).node.shaped.base_le_lastIndex (old s)
    exact fun s leads i _ => ahead s leads i
  · intro bs u part before s led leads same i _
    have started : ∀ v, Cluster.after n C bs = some v →
        Since (u.server s).rf.currentTerm i ((u.server s).rf.matchIndex i) (v.server s).rf := by
      intro v again
      cases before.symm.trans again
      exact Or.inr ⟨rfl, by rw [led]; exact Stat.noConfusion, fun _ => le_rfl⟩
    have since : bs <+: as → Since (u.server s).rf.currentTerm i ((u.server s).rf.matchIndex i)
        (c.server s).rf := by
      refine exec_along (P := fun ds v => bs <+: ds → Since (u.server s).rf.currentTerm i
        ((u.server s).rf.matchIndex i) (v.server s).rf) ?_ ?_ guarded run
      · intro empty
        cases List.prefix_nil.mp empty
        exact started _ rfl
      · intro ds v a w earlier old fresh next ends
        rcases List.prefix_concat_iff.mp ends with rfl | inside
        · exact started w (exec_concat earlier next)
        · obtain ⟨A, rel⟩ := Cluster.reached earlier
          exact (tends_of_step next fresh s).since (rel.currentTerm_le next s) (old inside)
    rcases since part with past | ⟨_, _, kept⟩
    · omega
    · exact kept leads

/-- The answer of server 2 in `storeRun` reaches the leader. -/
def storedRun : List (Action 3 Nat) :=
  storeRun ++ [.appendReply 0 1 1]

theorem storedRun_runs : (Cluster.after 3 Nat storedRun).isSome = true := by decide

theorem leader_progress_stored :
    ∃ c, Cluster.after 3 Nat storedRun = some c ∧ (c.server 0).rf.matchIndex 2 = 2 ∧
      (c.server 0).rf.matchIndex 2 < (c.server 0).rf.nextIndex 2 := by
  have guarded : Along Cluster.step (init 3 Nat) storedRun Fresh := by decide
  exact ⟨_, Cluster.after_final _ storedRun_runs, by decide,
    (leader_progress (Cluster.after_final _ storedRun_runs) guarded).1 0 (by decide) 2 (by decide)⟩

/-- Server 0 leads term 2 with an entry that server 1 lacks. Two goroutines are refused;
the first backs off and succeeds, then the second takes its old refusal. -/
def staleRefusalRun : List (Action 3 Nat) :=
  electRun ++ [.start 0 7, .crash 0, .electionTimeout 0, .election 0, .requestVote 0 0 1, .handleVote 1,
    .requestVoteReply 0 0 1 1, .countVote 0 0 1, .heartbeat 0, .broadcast 0, .broadcast 0, .replicate 0 0,
    .replicate 0 2, .handleAppend 2, .handleAppend 3, .appendReply 0 0 2, .replicate 0 0, .handleAppend 4,
    .appendReply 0 0 4, .appendReply 0 2 3]

theorem staleRefusalRun_runs : (Cluster.after 3 Nat staleRefusalRun).isSome = true := by decide

/-- The leader has compacted index 1 and sends the snapshot to server 2 twice. -/
def twoSnapshotsRun : List (Action 3 Nat) :=
  electRun ++ [.start 0 7, .broadcast 0, .broadcast 0, .replicate 0 0, .handleAppend 1, .appendReply 0 0 1,
    .applySend 0, .applyResume 0, .snapshot 0 1 [5], .replicate 0 1, .replicate 0 3, .handleInstall 2,
    .sendSnapshot 2 0, .condInstall 2 0, .installDone 2 0, .handleInstall 3, .installReply 0 1 2, .start 0 8,
    .replicate 0 1, .handleAppend 4, .appendReply 0 1 4]

theorem twoSnapshotsRun_runs : (Cluster.after 3 Nat twoSnapshotsRun).isSome = true := by decide

theorem twoSnapshotsRun_next :
    ((Cluster.final twoSnapshotsRun twoSnapshotsRun_runs).step (.installReply 0 3 3)).isSome = true := by
  decide

/-- A late refusal leaves `matchIndex = nextIndex`, and a late answer to a snapshot
takes `matchIndex` back from 2 to 1, each time within one term of a leader. -/
theorem leader_progress_undone :
    (∃ c, Cluster.after 3 Nat staleRefusalRun = some c ∧ (c.server 0).rf.state = .leader ∧
      (c.server 0).rf.matchIndex 1 = 1 ∧ (c.server 0).rf.nextIndex 1 = 1) ∧
    ∃ u c, Cluster.after 3 Nat twoSnapshotsRun = some u ∧ u.step (.installReply 0 3 3) = some c ∧
      (u.server 0).rf.state = .leader ∧ (c.server 0).rf.state = .leader ∧
      (c.server 0).rf.currentTerm = (u.server 0).rf.currentTerm ∧
      (u.server 0).rf.matchIndex 2 = 2 ∧ (c.server 0).rf.matchIndex 2 = 1 := by
  refine ⟨⟨_, Cluster.after_final _ staleRefusalRun_runs, by decide, by decide, by decide⟩, ?_⟩
  exact ⟨_, _, Cluster.after_final _ twoSnapshotsRun_runs, (Option.some_get twoSnapshotsRun_next).symm,
    by decide, by decide, by decide, by decide, by decide⟩

end DistSys.Raft
