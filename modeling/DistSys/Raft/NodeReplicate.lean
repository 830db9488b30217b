import DistSys.Raft.NodeCommit

namespace DistSys.Raft

open Replica (Grows Committed Moved Chosen)

variable {n : Nat} {C : Type} [Inhabited C] {A B : World n C} {s server : Fin n} {rf : Raft n C}
variable {term N : Int}

theorem NodeRel.leader_book (rel : NodeRel A s rf) (inv : Replica.Inv LogEntry.term A)
    (leads : rf.state = .leader) : A.book rf.currentTerm = rf.fullLog := by
  rw [← rel.term, ← rel.log]
  exact inv.leader_book (by rw [rel.role, leads]; rfl)

theorem NodeRel.leader_ack (rel : NodeRel A s rf) (inv : Replica.Inv LogEntry.term A)
    (leads : rf.state = .leader) : A.ack s rf.currentTerm = rf.fullLog.length := by
  rw [← rel.term, ← rel.log]
  exact inv.leader_ack (by rw [rel.role, leads]; rfl)

omit [Inhabited C] in
/-- What the snapshot covers is a prefix of the full log that ends at the base. -/
theorem Shaped.covers_eq (shaped : Shaped rf) :
    rf.persister.snapshot.covers = rf.fullLog.take rf.lastIncludedIndex.toNat := by
  have base := shaped.base
  unfold fullLog
  rw [List.take_append_of_le_length (by omega), List.take_of_length_le (by omega)]

theorem NodeRel.snapshotRel (rel : NodeRel A s rf) :
    SnapshotRel A rf.currentTerm rf.persister.snapshot rf.lastIncludedTerm rf.lastIncludedIndex where
  committed := by
    have base := rel.baseApplied.trans rel.appliedCommit
    rw [rel.shaped.covers_eq]
    exact rel.committed.of_isPrefix (List.take_prefix_take_left (by omega))
  index := rel.shaped.base
  last := rel.shaped.baseTerm

omit [Inhabited C] in
theorem Shaped.entriesFrom_eq (shaped : Shaped rf) {next : Int} (above : rf.lastIncludedIndex < next) :
    rf.entriesFrom (next - rf.lastIncludedIndex) = rf.fullLog.drop (next - 1).toNat := by
  unfold entriesFrom
  rw [← shaped.drop_fullLog above]
  split
  next => rfl
  next outside => rw [List.drop_eq_nil_of_le (by omega)]

/-- The request of a leader describes a stretch of its own book. -/
theorem NodeRel.replicate_append (rel : NodeRel A s rf) (inv : Replica.Inv LogEntry.term A)
    {args : AppendEntryArgs C} (sends : rf.replicateToPeer server term = .appendEntries args) :
    RequestRel A (.append s server args) ∧ args.term = term := by
  unfold replicateToPeer at sends
  split at sends
  next => cases sends
  next running =>
    simp only [not_or, not_not] at running
    obtain ⟨_, leads, now⟩ := running
    simp only at sends
    split at sends
    next => cases sends
    next above =>
      cases sends
      have book := rel.leader_book inv leads
      have commit := rel.commit_nonneg
      have settled := rel.length_settled
      refine ⟨⟨?_, rf.fullLog.take rf.commitIndex.toNat, ?_, ?_, rel.committed⟩, now.symm⟩
      · simp only
        rw [rel.shaped.termAt_eq (by omega), rel.shaped.entriesFrom_eq (by omega), book]
        have base := rel.shaped.base_nonneg
        have nonneg : 0 ≤ rf.nextIndex server - 1 := by omega
        generalize rf.nextIndex server - 1 = prev at *
        by_cases beyond : (rf.fullLog.length : Int) < prev
        · exact Or.inl (by rw [termOf_outside beyond]; omega)
        · have size : ((rf.fullLog.take prev.toNat).length : Int) = prev := by
            rw [List.length_take]; omega
          refine Or.inr ⟨rf.fullLog.take prev.toNat, ?_, size, ?_⟩
          · rw [List.take_append_drop]
          · rw [← termOf_of_isPrefix (List.take_prefix _ _) le_rfl, size]
      · rw [book]
        exact List.take_prefix _ _
      · simp only
        omega

theorem NodeRel.replicate_install (rel : NodeRel A s rf) {args : InstallSnapshotArgs C}
    (sends : rf.replicateToPeer server term = .installSnapshot args) :
    RequestRel A (.install s server args) := by
  unfold replicateToPeer at sends
  split at sends
  next => cases sends
  next =>
    simp only at sends
    split at sends
    next =>
      cases sends
      exact rel.snapshotRel
    next => cases sends

/-- New progress of the peers, none of it beyond what they have stored or what
is committed. -/
theorem NodeRel.setProgress (rel : NodeRel A s rf) (nextIndex matchIndex : Fin n → Int)
    (matched : rf.state = .leader → ∀ j, j ≠ s →
      matchIndex j ≤ rf.commitIndex ∨ matchIndex j ≤ A.ack j rf.currentTerm) :
    NodeRel A s { rf with nextIndex := nextIndex, matchIndex := matchIndex } :=
  rel.setPositions rf.dead rf.applying rf.snapshotInFlight nextIndex rel.baseApplied
    rel.appliedCommit rel.commitLast rel.committed matched

/-- A snapshot reply vouches for nothing, but the base is committed. -/
theorem NodeRel.installSnapshotReply (rel : NodeRel A s rf) (inv : Replica.Inv LogEntry.term A)
    (server : Fin n) (reply : InstallSnapshotReply) :
    ∃ B, Moved LogEntry.term s A B ∧ NodeRel B s (rf.installSnapshotReply server reply).1 ∧
      (rf.installSnapshotReply server reply).1.commitIndex = rf.commitIndex := by
  unfold Raft.installSnapshotReply
  split
  next ahead =>
    obtain ⟨B, moved, _, node⟩ := rel.stepBack inv ahead
    exact ⟨B, moved, node, rfl⟩
  next =>
    refine ⟨A, Moved.refl s A, rel.setProgress _ _ ?_, rfl⟩
    intro leads j away
    by_cases here : j = server
    · rw [here, Function.update_self]
      exact Or.inl (rel.baseApplied.trans rel.appliedCommit)
    · rw [Function.update_of_ne here]
      exact rel.matched leads j away

theorem NodeRel.acknowledge (rel : NodeRel A s rf) {matched : Int}
    (stored : matched ≤ A.ack server rf.currentTerm) : NodeRel A s (rf.acknowledge server matched) := by
  refine rel.setProgress _ _ ?_
  intro leads j away
  by_cases here : j = server
  · rw [here, Function.update_self]
    split
    next => exact Or.inr stored
    next => exact here ▸ rel.matched leads j away
  · rw [Function.update_of_ne here]
    exact rel.matched leads j away

omit [Inhabited C] in
theorem commitCandidate_some {count : Nat} {M : Int} (found : rf.commitCandidate N count = some M) :
    N - count < M ∧ M ≤ N ∧ rf.termAt M = rf.currentTerm ∧ rf.replicas M > n / 2 := by
  induction count generalizing N with
  | zero => cases found
  | succ count ih =>
    unfold commitCandidate at found
    split at found
    next enough =>
      cases found
      exact ⟨by omega, le_rfl, enough⟩
    next =>
      obtain ⟨lower, upper, rest⟩ := ih found
      exact ⟨by omega, by omega, rest⟩

/-- Counting more than half of the peers above the commit position finds a
majority that has stored the leader's log up to there. -/
theorem NodeRel.replicated (rel : NodeRel A s rf) (inv : Replica.Inv LogEntry.term A)
    (leads : rf.state = .leader) (further : rf.commitIndex < N) (inside : N ≤ rf.lastIndex)
    (enough : rf.replicas N > n / 2) :
    ∃ Q : Finset (Fin n), Majority Q ∧ s ∈ Q ∧ ∀ v ∈ Q, N ≤ A.ack v rf.currentTerm := by
  have away : s ∉ Finset.univ.filter fun i => i ≠ rf.me ∧ rf.matchIndex i ≥ N := by
    simp [rel.me]
  refine ⟨insert s (Finset.univ.filter fun i => i ≠ rf.me ∧ rf.matchIndex i ≥ N), ?_,
    Finset.mem_insert_self _ _, ?_⟩
  · unfold Majority
    unfold replicas at enough
    rw [Finset.card_insert_of_notMem away, Fintype.card_fin]
    omega
  · intro v member
    rcases Finset.mem_insert.mp member with rfl | other
    · rw [rel.leader_ack inv leads, ← rel.shaped.lastIndex_eq]
      exact inside
    · obtain ⟨_, notMe, reached⟩ := Finset.mem_filter.mp other
      rw [rel.me] at notMe
      rcases rel.matched leads v notMe with small | stored
      · omega
      · exact reached.trans stored

/-- An index of the current term stored by a majority is committed. -/
theorem NodeRel.settled_of_replicas (rel : NodeRel A s rf) (inv : Replica.Inv LogEntry.term A)
    (leads : rf.state = .leader) (further : rf.commitIndex < N) (inside : N ≤ rf.lastIndex)
    (own : rf.termAt N = rf.currentTerm) (enough : rf.replicas N > n / 2) :
    Committed LogEntry.term A rf.currentTerm (rf.fullLog.take N.toNat) := by
  obtain ⟨Q, major, _, stored⟩ := rel.replicated inv leads further inside enough
  have commit := rel.commit_nonneg
  have base := rel.baseApplied.trans rel.appliedCommit
  have book := rel.leader_book inv leads
  have last := rel.shaped.lastIndex_eq
  rw [rel.shaped.termAt_eq (by omega)] at own
  obtain ⟨e, found, value⟩ := entry_of_inside (show 0 < N by omega)
    (show N ≤ rf.fullLog.length by omega)
  have chosen : Chosen LogEntry.term A rf.currentTerm (N - 1).toNat := by
    refine ⟨⟨e, by rw [book, found], by rw [← value, own]⟩, Q, major, fun v member => ?_⟩
    have reached := stored v member
    omega
  refine Or.inr ⟨rf.currentTerm, le_rfl, (N - 1).toNat, chosen, ?_⟩
  rw [book, show (N - 1).toNat + 1 = N.toNat by omega]

theorem NodeRel.advanceCommitIndexLocked (rel : NodeRel A s rf) (inv : Replica.Inv LogEntry.term A) :
    Applies A s rf.commitIndex rf.advanceCommitIndexLocked := by
  have inside := rel.commitLast
  unfold Raft.advanceCommitIndexLocked
  split
  next => exact rel.idle
  next leads =>
    split
    next => exact rel.idle
    next M found =>
      obtain ⟨lower, upper, own, enough⟩ := commitCandidate_some found
      exact rel.advance (by omega) upper
        (rel.settled_of_replicas inv (not_not.mp leads) (by omega) upper own enough)

theorem NodeRel.appendEntriesReply (rel : NodeRel A s rf) (inv : Replica.Inv LogEntry.term A)
    {args : AppendEntryArgs C} {reply : AppendEntryReply}
    (stored : reply.success = true →
      args.prevLogIndex + args.entries.length ≤ (A.ack server term : Int)) :
    ∃ B, Moved LogEntry.term s A B ∧
      Applies B s rf.commitIndex ((rf.appendEntriesReply server term args reply).1,
        (rf.appendEntriesReply server term args reply).2.1) := by
  unfold Raft.appendEntriesReply
  split
  next ahead =>
    obtain ⟨B, moved, _, node⟩ := rel.stepBack inv ahead
    exact ⟨B, moved, node.idle⟩
  next =>
    refine ⟨A, Moved.refl s A, ?_⟩
    split
    next => exact rel.idle
    next running =>
      split
      next success =>
        have now : term = rf.currentTerm := by
          by_contra other
          exact running (Or.inr other)
        rw [now] at stored
        have matched := rel.acknowledge (stored success)
        exact matched.advanceCommitIndexLocked inv
      next => exact (rel.setProgress (Function.update rf.nextIndex server _) _ rel.matched).idle

omit [Inhabited C] in
/-- What `Start` appends to the log is the last entry of the whole log. -/
theorem Shaped.fullLog_concat (shaped : Shaped rf) (entry : LogEntry C) :
    (persist { rf with logs := rf.logs ++ [entry] }).fullLog = rf.fullLog ++ [entry] := by
  change rf.persister.snapshot.covers ++ (rf.logs ++ [entry]).tail = _ ++ rf.logs.tail ++ [entry]
  rw [List.tail_append_of_ne_nil shaped.nonempty, List.append_assoc]

theorem NodeRel.start (rel : NodeRel A s rf) (inv : Replica.Inv LogEntry.term A) (command : C) :
    ∃ B, Moved LogEntry.term s A B ∧ NodeRel B s (rf.start command).1 ∧
      (rf.start command).1.commitIndex = rf.commitIndex := by
  unfold Raft.start
  split
  next => exact ⟨A, Moved.refl s A, rel, rfl⟩
  next leads =>
    have leads' := not_not.mp leads
    have role : (A.peer s).role = .leader := by rw [rel.role, leads']; rfl
    have written : (⟨command, rf.currentTerm⟩ : LogEntry C).term = (A.peer s).term := rel.term.symm
    have step : Replica.Step LogEntry.term s A _ := .append role written
    have full := rel.shaped.fullLog_concat ⟨command, rf.currentTerm⟩
    have shaped := rel.shaped.setLogs (List.length_pos_iff.mpr rel.shaped.nonempty)
      [⟨command, rf.currentTerm⟩]
    rw [List.take_length] at shaped
    refine ⟨_, step.moved, ?_, rfl⟩
    refine rel.setLog (step.inv_grows inv).2 rfl shaped (durable_persist _) ?_ ?_
    · refine Eq.trans ?_ (congrArg _ full.symm)
      rw [Replica.State.write_eq, Replica.State.lead_self, rel.log, rel.term, leads']
      rfl
    · have kept := List.prefix_append rf.fullLog [⟨command, rf.currentTerm⟩]
      rw [← full] at kept
      exact (List.take_prefix _ _).trans kept

end DistSys.Raft
