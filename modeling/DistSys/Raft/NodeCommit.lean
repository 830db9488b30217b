import DistSys.Raft.NodeAppend

namespace DistSys.Raft

open Replica (Grows Committed Moved)

variable {n : Nat} {C : Type} {A B : World n C} {s : Fin n} {rf : Raft n C}
variable {args : AppendEntryArgs C} {P K : List (LogEntry C)}

theorem length_collect_le (rf : Raft n C) (i : Int) (count : Nat) :
    (rf.collect i count).length ≤ count := by
  induction count generalizing i with
  | zero => exact le_rfl
  | succ count ih =>
    unfold collect
    split
    next => exact Nat.zero_le _
    next => exact Nat.succ_le_succ (ih (i + 1))

theorem Shaped.mem_collect (shaped : Shaped rf) {msg : ApplyMsg C} {i : Int} {count : Nat}
    (above : rf.lastIncludedIndex < i) (member : msg ∈ rf.collect i count) :
    ∃ k e, msg = .command e.command k e.term ∧ rf.fullLog[(k - 1).toNat]? = some e ∧
      i ≤ k ∧ k < i + count := by
  induction count generalizing i with
  | zero => cases member
  | succ count ih =>
    have nonneg := shaped.base_nonneg
    unfold collect at member
    rw [shaped.slot_logs above, slot_of_nonneg (by omega)] at member
    cases found : rf.fullLog[(i - 1).toNat]? with
    | none =>
      rw [found] at member
      cases member
    | some e =>
      rw [found] at member
      rcases List.mem_cons.mp member with first | later
      · exact ⟨i, e, first, found, le_rfl, by omega⟩
      · obtain ⟨k, f, same, atFull, lower, upper⟩ := ih (by omega) later
        exact ⟨k, f, same, atFull, by omega, by omega⟩

/-- The loop either ends or collects the committed entries after the apply
position that the log still stores. -/
theorem applyLoop_cases (rf : Raft n C) :
    rf.applyLoop = ({ rf with applying := false }, none) ∨
      rf.snapshotInFlight = false ∧ ∃ start stop, rf.lastIncludedIndex < start ∧ start ≤ stop ∧
        (rf.lastIncludedIndex ≤ rf.lastApplied → start = rf.lastApplied + 1) ∧
        stop ≤ rf.commitIndex ∧ stop ≤ rf.lastIndex ∧
        rf.applyLoop = (rf, some ⟨rf.collect start (stop - start + 1).toNat,
          start - 1 + (rf.collect start (stop - start + 1).toNat).length⟩) := by
  unfold Raft.applyLoop
  split
  next => exact Or.inl rfl
  next clear =>
    split
    next => exact Or.inl rfl
    next =>
      simp only
      generalize first : (if rf.lastApplied + 1 ≤ rf.lastIncludedIndex then rf.lastIncludedIndex + 1
        else rf.lastApplied + 1) = start
      generalize last : (if rf.commitIndex > rf.lastIndex then rf.lastIndex else rf.commitIndex) = stop
      have bounds : stop ≤ rf.commitIndex ∧ stop ≤ rf.lastIndex := by
        rw [← last]; split <;> omega
      split
      next => exact Or.inl rfl
      next order =>
        refine Or.inr ⟨by simpa using clear, start, stop, ?_, by omega, ?_, bounds.1, bounds.2, rfl⟩
        · rw [← first]; split <;> omega
        · rw [← first]; split <;> omega

/-- The apply loop changes nothing but its own flag before it releases the mutex. -/
theorem applyLoop_node (rf : Raft n C) :
    ∃ applying, rf.applyLoop.1 = { rf with applying := applying } := by
  rcases applyLoop_cases rf with ends | ⟨_, _, _, _, _, _, _, _, sends⟩
  · exact ⟨false, by rw [ends]⟩
  · exact ⟨rf.applying, by rw [sends]⟩

theorem applyCommittedEntries_node (rf : Raft n C) :
    ∃ applying, rf.applyCommittedEntries.1 = { rf with applying := applying } := by
  unfold Raft.applyCommittedEntries
  split
  next => exact ⟨rf.applying, rfl⟩
  next =>
    split
    next => exact ⟨rf.applying, rfl⟩
    next =>
      obtain ⟨applying, node⟩ := applyLoop_node { rf with applying := true }
      exact ⟨applying, node⟩

/-- What a peer shares with its leader up to the leader's commit position is
committed. -/
theorem settled_of_leader (now : rf.currentTerm = args.term) (part : P <+: rf.fullLog)
    (inBook : P <+: A.book args.term) (known : K <+: A.book args.term)
    (settled : Committed LogEntry.term A args.term K) {N : Int} (inP : N ≤ P.length)
    (inK : N ≤ K.length) : Committed LogEntry.term A rf.currentTerm (rf.fullLog.take N.toNat) := by
  rw [Replica.take_eq_of_isPrefix part (by omega), ← Replica.take_eq_of_isPrefix inBook (by omega),
    Replica.take_eq_of_isPrefix known (by omega), now]
  exact settled.of_isPrefix (List.take_prefix _ _)

theorem followTerm_commitIndex (rf : Raft n C) (term : Int) :
    (rf.followTerm term).commitIndex = rf.commitIndex := by
  unfold Raft.followTerm
  split
  next => rfl
  next => split <;> rfl

theorem followTerm_reached {term : Int} (reached : rf.currentTerm ≤ term) :
    (rf.followTerm term).currentTerm = term ∧ (rf.followTerm term).state = .follower := by
  unfold Raft.followTerm
  split
  next => exact ⟨rfl, rfl⟩
  next =>
    have same : term = rf.currentTerm := by omega
    rw [if_pos same]
    exact ⟨same.symm, rfl⟩

theorem followTerm_behind {term : Int} (behind : term < rf.currentTerm) : rf.followTerm term = rf := by
  unfold Raft.followTerm
  rw [if_neg (by omega), if_neg (by omega)]

theorem followTerm_now {term : Int} (reached : ¬ term < (rf.followTerm term).currentTerm) :
    (rf.followTerm term).currentTerm = term ∧ (rf.followTerm term).state = .follower := by
  refine followTerm_reached (Int.not_lt.mp fun behind => reached ?_)
  rwa [followTerm_behind behind]

theorem followTerm_base (rf : Raft n C) (term : Int) :
    (rf.followTerm term).lastIncludedIndex = rf.lastIncludedIndex ∧
      (rf.followTerm term).lastIncludedTerm = rf.lastIncludedTerm ∧
      (rf.followTerm term).logs = rf.logs := by
  unfold Raft.followTerm
  split
  next => exact ⟨rfl, rfl, rfl⟩
  next => split <;> exact ⟨rfl, rfl, rfl⟩

theorem commitHeartbeat_node (rf : Raft n C) (args : AppendEntryArgs C) :
    ∃ commitIndex applying,
      (rf.commitHeartbeat args).1 = { rf with commitIndex := commitIndex, applying := applying } := by
  unfold Raft.commitHeartbeat
  split
  next =>
    simp only
    split
    next =>
      obtain ⟨applying, node⟩ := applyCommittedEntries_node
        { rf with commitIndex := min args.leaderCommitIndex args.prevLogIndex }
      exact ⟨_, applying, node⟩
    next => exact ⟨rf.commitIndex, rf.applying, rfl⟩
  next => exact ⟨rf.commitIndex, rf.applying, rfl⟩

theorem commitEntries_node (rf : Raft n C) (args : AppendEntryArgs C) :
    ∃ commitIndex applying,
      (rf.commitEntries args).1 = { rf with commitIndex := commitIndex, applying := applying } := by
  unfold Raft.commitEntries
  split
  next =>
    simp only
    split
    next =>
      obtain ⟨applying, node⟩ := applyCommittedEntries_node
        { rf with commitIndex := min args.leaderCommitIndex (args.prevLogIndex + args.entries.length) }
      exact ⟨_, applying, node⟩
    next => exact ⟨rf.commitIndex, rf.applying, rfl⟩
  next => exact ⟨rf.commitIndex, rf.applying, rfl⟩

/-- The two ways `AppendEntriesHandler` ends: refused, with nothing but the term
followed, or with the entries merged. A heartbeat merges no entries. -/
theorem appendEntriesHandler_cases (rf : Raft n C) (args : AppendEntryArgs C) :
    (¬ (rf.currentTerm ≤ args.term ∧ (rf.followTerm args.term).prevMatches args = true) ∧
      rf.appendEntriesHandler args = (rf.followTerm args.term, ⟨rf.currentTerm, false⟩, none)) ∨
    (rf.currentTerm ≤ args.term ∧ (rf.followTerm args.term).prevMatches args = true ∧
      (rf.appendEntriesHandler args).2.1 = ⟨rf.currentTerm, true⟩ ∧
      ∃ commitIndex applying, (rf.appendEntriesHandler args).1 =
        { (rf.followTerm args.term).merge args with commitIndex := commitIndex, applying := applying }) := by
  unfold Raft.appendEntriesHandler
  rcases lt_or_ge args.term rf.currentTerm with behind | reached
  · rw [followTerm_behind behind]
    simp only [behind, if_true]
    exact Or.inl ⟨fun both => absurd both.1 (not_le.mpr behind), trivial⟩
  · have now : ¬ args.term < (rf.followTerm args.term).currentTerm := by
      rw [(followTerm_reached reached).1]
      exact lt_irrefl _
    simp only [now, if_false]
    cases accepted : (rf.followTerm args.term).prevMatches args with
    | false =>
      refine Or.inl ⟨fun both => Bool.false_ne_true both.2, ?_⟩
      split <;> rfl
    | true =>
      refine Or.inr ⟨reached, rfl, ?_⟩
      split
      next empty =>
        have nothing : (rf.followTerm args.term).merge args = rf.followTerm args.term := by
          rw [Raft.merge, List.length_eq_zero_iff.mp empty]
          rfl
        rw [nothing]
        exact ⟨rfl, commitHeartbeat_node _ args⟩
      next => exact ⟨rfl, commitEntries_node _ args⟩

variable [Inhabited C]

/-- The positions of a node may change within their bounds. Flags and retry
positions are not part of the world. -/
theorem NodeRel.setPositions (rel : NodeRel A s rf) (dead applying snapshotInFlight : Bool)
    (nextIndex : Fin n → Int) {matchIndex : Fin n → Int} {applied N : Int}
    (lower : rf.lastIncludedIndex ≤ applied) (upper : applied ≤ N) (inside : N ≤ rf.lastIndex)
    (settled : Committed LogEntry.term A rf.currentTerm (rf.fullLog.take N.toNat))
    (matched : rf.state = .leader → ∀ j, j ≠ s →
      matchIndex j ≤ N ∨ matchIndex j ≤ A.ack j rf.currentTerm) :
    NodeRel A s { rf with
      dead := dead, lastApplied := applied, commitIndex := N, nextIndex := nextIndex
      matchIndex := matchIndex, applying := applying, snapshotInFlight := snapshotInFlight } where
  me := rel.me
  origin := rel.origin
  shaped := ⟨rel.shaped.nonempty, rel.shaped.head, rel.shaped.base, rel.shaped.baseTerm⟩
  durable := rel.durable
  term := rel.term
  role := rel.role
  log := rel.log
  vote := rel.vote
  committed := settled
  baseApplied := lower
  appliedCommit := upper
  commitLast := inside
  matched := matched

theorem NodeRel.volatile (rel : NodeRel A s rf) (dead : Bool) {applied : Int} (nextIndex : Fin n → Int)
    (applying snapshotInFlight : Bool) (lower : rf.lastIncludedIndex ≤ applied)
    (upper : applied ≤ rf.commitIndex) :
    NodeRel A s { rf with
      dead := dead, lastApplied := applied, nextIndex := nextIndex, applying := applying
      snapshotInFlight := snapshotInFlight } :=
  rel.setPositions dead applying snapshotInFlight nextIndex lower upper rel.commitLast rel.committed
    rel.matched

theorem NodeRel.setCommit (rel : NodeRel A s rf) {N : Int} (further : rf.commitIndex ≤ N)
    (inside : N ≤ rf.lastIndex)
    (settled : Committed LogEntry.term A rf.currentTerm (rf.fullLog.take N.toNat)) :
    NodeRel A s { rf with commitIndex := N } :=
  rel.setPositions rf.dead rf.applying rf.snapshotInFlight rf.nextIndex rel.baseApplied
    (rel.appliedCommit.trans further) inside settled
    fun leads j away => (rel.matched leads j away).imp_left fun small => small.trans further

/-- A batch carries committed entries only. -/
structure BatchRel (A : World n C) (rf : Raft n C) (batch : Batch C) : Prop where
  msgs : ∀ msg ∈ batch.msgs, MessageRel A rf.currentTerm msg
  lastSent : batch.lastSent ≤ rf.commitIndex

/-- What a critical section leaves that may advance the commit position and
start a batch. -/
structure Applies (A : World n C) (s : Fin n) (commitIndex : Int)
    (result : Raft n C × Option (Batch C)) : Prop where
  node : NodeRel A s result.1
  commit : commitIndex ≤ result.1.commitIndex
  batch : ∀ batch, result.2 = some batch → BatchRel A result.1 batch

theorem NodeRel.idle (rel : NodeRel A s rf) : Applies A s rf.commitIndex (rf, none) :=
  ⟨rel, le_rfl, fun _ absent => by cases absent⟩

/-- The entry at a committed index, as a message. -/
theorem NodeRel.message (rel : NodeRel A s rf) {k : Int} {e : LogEntry C} (positive : 0 < k)
    (found : rf.fullLog[(k - 1).toNat]? = some e) (bound : k ≤ rf.commitIndex) :
    MessageRel A rf.currentTerm (.command e.command k e.term) := by
  have inside := (List.getElem?_eq_some_iff.mp found).1
  refine ⟨rf.fullLog.take k.toNat, rel.committed.of_isPrefix ?_, ?_, ?_⟩
  · exact List.take_prefix_take_left (by omega)
  · rw [List.length_take]
    omega
  · rw [show k.toNat = (k - 1).toNat + 1 by omega, List.take_add_one, found, Option.toList_some,
      List.getLast?_concat]

theorem NodeRel.applyLoop (rel : NodeRel A s rf) : Applies A s rf.commitIndex rf.applyLoop := by
  have nonneg := rel.shaped.base_nonneg
  rcases applyLoop_cases rf with ends | ⟨_, start, stop, above, _, _, committed, _, sends⟩
  · rw [ends]
    exact (rel.volatile rf.dead rf.nextIndex false rf.snapshotInFlight rel.baseApplied
      rel.appliedCommit).idle
  · rw [sends]
    refine ⟨rel, le_rfl, ?_⟩
    rintro batch ⟨⟩
    refine ⟨?_, ?_⟩
    · intro msg member
      obtain ⟨k, e, rfl, found, lower, upper⟩ := rel.shaped.mem_collect above member
      exact rel.message (by omega) found (by omega)
    · have length := length_collect_le rf start (stop - start + 1).toNat
      simp only
      omega

theorem NodeRel.applyCommittedEntries (rel : NodeRel A s rf) :
    Applies A s rf.commitIndex rf.applyCommittedEntries := by
  unfold Raft.applyCommittedEntries
  split
  next => exact rel.idle
  next =>
    split
    next => exact rel.idle
    next =>
      have started := rel.volatile rf.dead rf.nextIndex true rf.snapshotInFlight rel.baseApplied
        rel.appliedCommit
      exact started.applyLoop

theorem NodeRel.applyResume (rel : NodeRel A s rf) {lastSent : Int} (sent : lastSent ≤ rf.commitIndex) :
    Applies A s rf.commitIndex (rf.applyResume lastSent) := by
  have base := rel.baseApplied
  have commit := rel.appliedCommit
  unfold Raft.applyResume
  split
  next =>
    exact (rel.volatile rf.dead rf.nextIndex false rf.snapshotInFlight base commit).idle
  next =>
    have resumed := rel.volatile rf.dead rf.nextIndex rf.applying rf.snapshotInFlight
      (show rf.lastIncludedIndex ≤ if rf.lastApplied < lastSent then lastSent else rf.lastApplied by
        split <;> omega)
      (show (if rf.lastApplied < lastSent then lastSent else rf.lastApplied) ≤ rf.commitIndex by
        split <;> omega)
    exact resumed.applyLoop

/-- Moving the commit position forward and applying what it uncovers. -/
theorem NodeRel.advance (rel : NodeRel A s rf) {N : Int} (further : rf.commitIndex ≤ N)
    (inside : N ≤ rf.lastIndex)
    (settled : Committed LogEntry.term A rf.currentTerm (rf.fullLog.take N.toNat)) :
    Applies A s rf.commitIndex (Raft.applyCommittedEntries { rf with commitIndex := N }) := by
  have applied := (rel.setCommit further inside settled).applyCommittedEntries
  exact ⟨applied.node, further.trans applied.commit, applied.batch⟩

theorem NodeRel.commitEntries (rel : NodeRel A s rf) (now : rf.currentTerm = args.term)
    (part : P ++ args.entries <+: rf.fullLog) (inBook : P ++ args.entries <+: A.book args.term)
    (length : (P.length : Int) = args.prevLogIndex) (known : K <+: A.book args.term)
    (size : (K.length : Int) = args.leaderCommitIndex)
    (settled : Committed LogEntry.term A args.term K) : Applies A s rf.commitIndex (rf.commitEntries args) := by
  have total : ((P ++ args.entries).length : Int) = args.prevLogIndex + args.entries.length := by
    rw [List.length_append]; omega
  have bound := part.length_le
  have last := rel.shaped.lastIndex_eq
  unfold Raft.commitEntries
  split
  next =>
    simp only
    split
    next further =>
      exact rel.advance further.le (by omega)
        (settled_of_leader now part inBook known settled (by omega) (by omega))
    next => exact rel.idle
  next => exact rel.idle

theorem NodeRel.commitHeartbeat (rel : NodeRel A s rf) (now : rf.currentTerm = args.term)
    (part : P <+: rf.fullLog) (inBook : P <+: A.book args.term)
    (length : (P.length : Int) = args.prevLogIndex) (known : K <+: A.book args.term)
    (size : (K.length : Int) = args.leaderCommitIndex)
    (settled : Committed LogEntry.term A args.term K) : Applies A s rf.commitIndex (rf.commitHeartbeat args) := by
  have bound := part.length_le
  have last := rel.shaped.lastIndex_eq
  unfold Raft.commitHeartbeat
  split
  next =>
    simp only
    split
    next further =>
      exact rel.advance further.1.le (by omega)
        (settled_of_leader now part inBook known settled (by omega) (by omega))
    next => exact rel.idle
  next => exact rel.idle

/-- A request that passes the consistency check describes a stretch of the
book of its term. -/
theorem NodeRel.accepted_book (rel : NodeRel A s rf) (inv : Replica.Inv LogEntry.term A) {t u : Fin n}
    (request : RequestRel A (.append t u args)) (accepted : rf.prevMatches args = true) :
    ∃ P, P ++ args.entries <+: A.book args.term ∧ (P.length : Int) = args.prevLogIndex ∧
      termOf P P.length = args.prevLogTerm := by
  obtain ⟨above, reach, same⟩ := rel.shaped.prevMatches_iff.mp accepted
  have nonneg := rel.termOf_nonneg inv (rel.shaped.base_nonneg.trans above) reach
  exact request.1.resolve_left (by omega)

/-- A request that passes the consistency check has its entries stored before
the commit position moves. -/
theorem NodeRel.receive (rel : NodeRel A s rf) (inv : Replica.Inv LogEntry.term A) {t : Fin n}
    (request : RequestRel A (.append t s args)) (follows : rf.state = .follower)
    (now : rf.currentTerm = args.term) (accepted : rf.prevMatches args = true) :
    ∃ B, Moved LogEntry.term s A B ∧
      Applies B s rf.commitIndex (if args.entries.length = 0 then rf.commitHeartbeat args
        else (rf.merge args).commitEntries args) ∧
      args.prevLogIndex + args.entries.length ≤ (B.ack s args.term : Int) := by
  obtain ⟨P, inBook, length, last⟩ := rel.accepted_book inv request accepted
  obtain ⟨_, K, known, size, settled⟩ := request
  obtain ⟨B, moved, node, part, stored⟩ := rel.merge inv follows now inBook length last accepted
  obtain ⟨_, grows⟩ := moved.inv_grows inv
  obtain ⟨logs, persister, fields, _⟩ := merge_eq rf args
  have known' := known.trans (grows.book args.term)
  have inBook' := inBook.trans (grows.book args.term)
  refine ⟨B, moved, ?_, stored⟩
  split
  next empty =>
    rw [List.length_eq_zero_iff.mp empty, List.append_nil] at inBook' part
    have quiet : rf.merge args = rf := by
      rw [Raft.merge, List.length_eq_zero_iff.mp empty, scan]
    rw [quiet] at node part
    exact node.commitHeartbeat now part inBook' length known' size (settled.grows grows)
  next =>
    have term : (rf.merge args).currentTerm = args.term := by rw [fields]; exact now
    have commit : (rf.merge args).commitIndex = rf.commitIndex := by rw [fields]
    rw [← commit]
    exact node.commitEntries term part inBook' length known' size (settled.grows grows)

theorem NodeRel.appendEntriesHandler (rel : NodeRel A s rf) (inv : Replica.Inv LogEntry.term A)
    {t : Fin n} (request : RequestRel A (.append t s args)) :
    ∃ B, Moved LogEntry.term s A B ∧
      Applies B s rf.commitIndex
        ((rf.appendEntriesHandler args).1, (rf.appendEntriesHandler args).2.2) ∧
      ((rf.appendEntriesHandler args).2.1.success = true →
        args.prevLogIndex + args.entries.length ≤ (B.ack s args.term : Int)) := by
  obtain ⟨A', first, quiet, rel'⟩ := rel.followTerm inv args.term
  obtain ⟨inv', grows⟩ := first.inv_grows inv
  have idle := rel'.idle
  rw [followTerm_commitIndex] at idle
  unfold Raft.appendEntriesHandler
  simp only
  split
  next => exact ⟨A', first, idle, by simp⟩
  next reached =>
    obtain ⟨now, follows⟩ := followTerm_now reached
    by_cases accepted : (rf.followTerm args.term).prevMatches args = true
    · obtain ⟨B, rest, applies, stored⟩ := rel'.receive inv' (request.grows grows) follows now accepted
      rw [followTerm_commitIndex] at applies
      refine ⟨B, rest.after first quiet, ?_, fun _ => stored⟩
      simp only [accepted, if_true]
      split at applies
      next empty => rw [if_pos empty]; exact applies
      next entries => rw [if_neg entries]; exact applies
    · simp only [accepted, Bool.false_eq_true, if_false]
      refine ⟨A', first, ?_, ?_⟩ <;> split
      · exact idle
      · exact idle
      · simp
      · simp

end DistSys.Raft
