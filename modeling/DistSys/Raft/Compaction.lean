import DistSys.Raft.Compacts
import DistSys.Raft.Durability

namespace DistSys.Raft

variable {n : Nat} {C : Type} {rf : Raft n C} {u : Uncompacted n C} {index : Int}
variable {args : AppendEntryArgs C}

/-! Applying and committing -/

theorem Compacts.setCommit (rel : Compacts rf u) {N : Int} (further : rf.commitIndex < N) :
    Compacts { rf with commitIndex := N } { u with commitIndex := N } :=
  { rel with commitIndex := rfl, baseCommitted := rel.baseCommitted.trans further.le }

theorem InStep.setCommit (step : InStep rf u) (N : Int) :
    InStep { rf with commitIndex := N } { u with commitIndex := N } :=
  { step with }

theorem Compacts.collect (rel : Compacts rf u) (above : rf.lastIncludedIndex < index) (count : Nat) :
    rf.collect index count = messages index ((u.log.drop (index - 1).toNat).take count) := by
  have nonneg := rel.baseNonneg
  induction count generalizing index with
  | zero => rfl
  | succ count ih =>
    rw [Raft.collect, rel.slot_logs above, slot_of_nonneg (by omega)]
    cases found : u.log[(index - 1).toNat]? with
    | none =>
      rw [List.drop_eq_nil_of_le (List.getElem?_eq_none_iff.mp found)]
      rfl
    | some entry =>
      obtain ⟨bound, value⟩ := List.getElem?_eq_some_iff.mp found
      rw [List.drop_eq_getElem_cons bound, value, List.take_succ_cons, messages]
      simp only
      rw [ih (by omega), show (index + 1 - 1).toNat = (index - 1).toNat + 1 by omega]

/-- The flags of the apply loop do not matter to the relation. -/
theorem Compacts.setApplying (rel : Compacts rf u) (applying applying' : Bool) :
    Compacts { rf with applying := applying } { u with applying := applying' } :=
  { rel with }

theorem InStep.setApplying (step : InStep rf u) (applying : Bool) :
    InStep { rf with applying := applying } { u with applying := applying } :=
  { step with applying := rfl }

theorem Uncompacted.applyLoop_node (u : Uncompacted n C) :
    ∃ applying, u.applyLoop.1 = { u with applying := applying } := by
  unfold Uncompacted.applyLoop
  simp only
  split
  next => exact ⟨false, rfl⟩
  next => exact ⟨u.applying, rfl⟩

theorem Uncompacted.applyCommittedEntries_node (u : Uncompacted n C) :
    ∃ applying, u.applyCommittedEntries.1 = { u with applying := applying } := by
  unfold Uncompacted.applyCommittedEntries
  split
  next => exact ⟨u.applying, rfl⟩
  next =>
    obtain ⟨applying, node⟩ := Uncompacted.applyLoop_node { u with applying := true }
    exact ⟨applying, node⟩

theorem applyLoop_idle (base : rf.lastIncludedIndex ≤ rf.lastApplied)
    (idle : rf.snapshotInFlight = true ∨ min rf.commitIndex rf.lastIndex ≤ rf.lastApplied) :
    rf.applyLoop = ({ rf with applying := false }, none) := by
  unfold Raft.applyLoop
  split
  next => rfl
  next clear =>
    have applied := idle.resolve_left clear
    split
    next => rfl
    next =>
      simp only
      rw [if_pos]
      split <;> split <;> omega

/-- Above the base a batch starts right after the last entry applied. -/
theorem applyLoop_sends (base : rf.lastIncludedIndex ≤ rf.lastApplied) (clear : rf.snapshotInFlight = false)
    (goes : rf.lastApplied < min rf.commitIndex rf.lastIndex) :
    rf.applyLoop = (rf, some
      ⟨rf.collect (rf.lastApplied + 1) (min rf.commitIndex rf.lastIndex - rf.lastApplied).toNat,
        rf.lastApplied + (rf.collect (rf.lastApplied + 1)
          (min rf.commitIndex rf.lastIndex - rf.lastApplied).toNat).length⟩) := by
  have last : (if rf.commitIndex > rf.lastIndex then rf.lastIndex else rf.commitIndex) =
      min rf.commitIndex rf.lastIndex := by
    split <;> omega
  unfold Raft.applyLoop
  simp only
  rw [clear, if_neg Bool.false_ne_true, if_neg (by omega), last,
    if_neg (show ¬ rf.lastApplied + 1 ≤ rf.lastIncludedIndex by omega), if_neg (by omega),
    Int.add_sub_cancel, show min rf.commitIndex rf.lastIndex - (rf.lastApplied + 1) + 1 =
      min rf.commitIndex rf.lastIndex - rf.lastApplied by omega]

theorem Compacts.applyLoop (rel : Compacts rf u) : Agrees rf u rf.applyLoop u.applyLoop := by
  obtain ⟨_, node⟩ := applyLoop_node rf
  obtain ⟨_, plain⟩ := u.applyLoop_node
  refine ⟨by rw [node, plain]; exact rel.setApplying _ _, fun step => ?_⟩
  have nonneg := rel.baseNonneg
  have base := step.baseApplied
  have last := rel.lastIndex
  have applied := step.lastApplied
  have commit := rel.commitIndex
  unfold Uncompacted.applyLoop
  simp only
  rw [← step.held, ← commit, ← last, ← applied]
  split
  next idle =>
    rw [applyLoop_idle base idle]
    exact ⟨rfl, rfl, rfl, rfl, base⟩
  next goes =>
    obtain ⟨clear, ahead⟩ := not_or.mp goes
    rw [applyLoop_sends base (by simpa using clear) (by omega), rel.collect (by omega), length_messages,
      show (rf.lastApplied + 1 - 1).toNat = rf.lastApplied.toNat by omega]
    refine ⟨congrArg some (Batch.mk.injEq .. ▸ ⟨rfl, ?_⟩), step⟩
    have length : rf.lastIndex = u.log.length := last
    rw [List.length_take, List.length_drop]
    omega

theorem Compacts.applyCommittedEntries (rel : Compacts rf u) :
    Agrees rf u rf.applyCommittedEntries u.applyCommittedEntries := by
  obtain ⟨_, node⟩ := applyCommittedEntries_node rf
  obtain ⟨_, plain⟩ := u.applyCommittedEntries_node
  refine ⟨by rw [node, plain]; exact rel.setApplying _ _, fun step => ?_⟩
  unfold Raft.applyCommittedEntries Uncompacted.applyCommittedEntries
  by_cases on : rf.applying = true
  · rw [if_pos on, if_pos (Or.inl (step.applying ▸ on))]
    exact ⟨rfl, step⟩
  by_cases flight : rf.snapshotInFlight = true
  · rw [if_neg on, if_pos flight, if_pos (Or.inr (step.held ▸ flight))]
    exact ⟨rfl, step⟩
  rw [if_neg on, if_neg flight, if_neg (not_or.mpr ⟨step.applying ▸ on, step.held ▸ flight⟩)]
  exact (rel.setApplying true true).applyLoop.batch (step.setApplying true)

/-- A later commit position, with the entries up to there handed over. -/
theorem Compacts.advance (rel : Compacts rf u) {N : Int} (further : rf.commitIndex < N) :
    Agrees rf u (Raft.applyCommittedEntries { rf with commitIndex := N })
      (Uncompacted.applyCommittedEntries { u with commitIndex := N }) := by
  have agrees := (rel.setCommit further).applyCommittedEntries
  exact ⟨agrees.node, fun step => agrees.batch (step.setCommit N)⟩

theorem Compacts.replicas (rel : Compacts rf u) (N : Int) : rf.replicas N = u.replicas N := by
  unfold Raft.replicas Uncompacted.replicas
  rw [rel.me, rel.matchIndex]

theorem Compacts.commitCandidate (rel : Compacts rf u) (N : Int) (count : Nat)
    (above : rf.lastIncludedIndex + count ≤ N) : rf.commitCandidate N count = u.commitCandidate N count := by
  induction count generalizing N with
  | zero => rfl
  | succ count ih =>
    rw [Raft.commitCandidate, Uncompacted.commitCandidate, rel.termAt (by omega), rel.replicas,
      rel.currentTerm, ih (N - 1) (by omega)]

theorem Compacts.advanceCommitIndexLocked (rel : Compacts rf u) :
    Agrees rf u rf.advanceCommitIndexLocked u.advanceCommitIndexLocked := by
  have base := rel.base_le_lastIndex
  have committed := rel.baseCommitted
  have candidate := rel.commitCandidate rf.lastIndex (rf.lastIndex - rf.commitIndex).toNat (by omega)
  unfold Raft.advanceCommitIndexLocked Uncompacted.advanceCommitIndexLocked
  by_cases leads : rf.state = .leader
  · rw [if_neg (not_not.mpr leads), if_neg (not_not.mpr (rel.state.symm.trans leads)), ← rel.lastIndex,
      ← rel.commitIndex, ← candidate]
    cases found : rf.commitCandidate rf.lastIndex (rf.lastIndex - rf.commitIndex).toNat with
    | none => exact rel.agrees
    | some N =>
      obtain ⟨lower, upper, _⟩ := commitCandidate_some found
      exact rel.advance (by omega)
  · rw [if_pos leads, if_pos (rel.state ▸ leads)]
    exact rel.agrees

/-! Entries of a leader -/

theorem Compacts.prevMatches (rel : Compacts rf u) (above : rf.lastIncludedIndex ≤ args.prevLogIndex) :
    rf.prevMatches args = u.prevMatches args := by
  have matched : (rf.standing u.log).prevMatches args = true ↔ _ := rel.shaped.prevMatches_iff
  rw [rel.fullLog_standing] at matched
  have same : rf.prevMatches args = true ↔ u.prevMatches args = true := by
    change (rf.standing u.log).prevMatches args = true ↔ _
    rw [matched, Uncompacted.prevMatches, decide_eq_true_iff, ← rel.lastIndex]
    exact ⟨fun all => all.2, fun all => ⟨above, all⟩⟩
  exact Bool.eq_iff_iff.mpr same

theorem scan_conflict_ge {entries rest : List (LogEntry C)} {start : Int}
    (found : rf.scan start entries = .conflict index rest) : start ≤ index := by
  induction entries generalizing start with
  | nil => cases found
  | cons entry entries ih =>
    rw [scan] at found
    split at found
    next => cases found
    next =>
      split at found
      next =>
        cases found
        exact le_rfl
      next =>
        have later := ih found
        omega

theorem Compacts.overlay (rel : Compacts rf u) (above : rf.lastIncludedIndex ≤ index)
    (entries : List (LogEntry C)) :
    Raft.overlay u.log index entries =
      match rf.scan index entries with
      | .agrees => u.log
      | .extend rest => u.log ++ rest
      | .conflict found rest => u.log.take (found - 1).toNat ++ rest := by
  induction entries generalizing index with
  | nil => rfl
  | cons entry entries ih =>
    have term : rf.termAt index = termOf u.log index := rel.termAt above
    have last : rf.lastIndex = u.log.length := rel.lastIndex
    rw [Raft.overlay, scan, last, term]
    split
    next => rfl
    next =>
      split
      next => rfl
      next => exact ih (by omega)

theorem Compacts.merge (rel : Compacts rf u) (above : rf.lastIncludedIndex ≤ args.prevLogIndex) :
    Compacts (rf.merge args) (u.merge args) := by
  unfold Raft.merge Uncompacted.merge
  rw [rel.overlay (by omega)]
  cases scanned : rf.scan (args.prevLogIndex + 1) args.entries with
  | agrees => exact rel
  | extend rest => exact rel.append rest _
  | conflict index rest =>
    have start := scan_conflict_ge scanned
    exact rel.truncate (by omega) rest _

theorem InStep.merge (step : InStep rf u) (args : AppendEntryArgs C) :
    InStep (rf.merge args) (u.merge args) := by
  unfold Raft.merge Uncompacted.merge
  cases rf.scan (args.prevLogIndex + 1) args.entries <;> exact { step with }

theorem Compacts.commitHeartbeat (rel : Compacts rf u) :
    Agrees rf u (rf.commitHeartbeat args) (u.commitHeartbeat args) := by
  have base := rel.baseCommitted
  unfold Raft.commitHeartbeat Uncompacted.commitHeartbeat
  simp only
  by_cases further : min args.leaderCommitIndex args.prevLogIndex > rf.commitIndex
  · rw [if_pos (by omega), rel.termAt (by omega), ← rel.commitIndex]
    split
    next => exact rel.advance further
    next => exact rel.agrees
  · have behind : ¬ min args.leaderCommitIndex args.prevLogIndex > u.commitIndex := rel.commitIndex ▸ further
    simp only [further, behind, false_and, if_false, ite_self]
    exact rel.agrees

theorem Compacts.commitEntries (rel : Compacts rf u) :
    Agrees rf u (rf.commitEntries args) (u.commitEntries args) := by
  unfold Raft.commitEntries Uncompacted.commitEntries
  simp only
  by_cases further : min args.leaderCommitIndex (args.prevLogIndex + args.entries.length) > rf.commitIndex
  · rw [if_pos (by omega), if_pos further, if_pos (rel.commitIndex ▸ further)]
    exact rel.advance further
  · rw [if_neg further, ite_self, if_neg (rel.commitIndex ▸ further)]
    exact rel.agrees

theorem Compacts.followTerm (rel : Compacts rf u) (term : Int) :
    Compacts (rf.followTerm term) (u.followTerm term) := by
  unfold Raft.followTerm Uncompacted.followTerm
  rw [rel.currentTerm]
  split
  next => exact rel.stepBack term
  next =>
    split
    next => exact { rel with state := rfl, currentTerm := rfl }
    next => exact rel

theorem InStep.followTerm (step : InStep rf u) (same : rf.currentTerm = u.currentTerm) (term : Int) :
    InStep (rf.followTerm term) (u.followTerm term) := by
  unfold Raft.followTerm Uncompacted.followTerm
  rw [same]
  split
  next => exact { step with }
  next => split <;> exact { step with }

theorem Compacts.appendEntriesHandler (rel : Compacts rf u)
    (above : rf.lastIncludedIndex ≤ args.prevLogIndex) :
    (rf.appendEntriesHandler args).2.1 = (u.appendEntriesHandler args).2.1 ∧
      Agrees rf u ((rf.appendEntriesHandler args).1, (rf.appendEntriesHandler args).2.2)
        ((u.appendEntriesHandler args).1, (u.appendEntriesHandler args).2.2) := by
  have follow := rel.followTerm args.term
  have reach : (rf.followTerm args.term).lastIncludedIndex ≤ args.prevLogIndex := by
    rw [(steady_followTerm rf args.term).base]
    exact above
  have through : ∀ {result plain}, Agrees (rf.followTerm args.term) (u.followTerm args.term) result plain →
      Agrees rf u result plain := fun agrees =>
    ⟨agrees.node, fun step => agrees.batch (step.followTerm rel.currentTerm args.term)⟩
  unfold Raft.appendEntriesHandler Uncompacted.appendEntriesHandler
  simp only
  rw [rel.currentTerm, follow.currentTerm, follow.prevMatches reach]
  by_cases behind : args.term < (u.followTerm args.term).currentTerm
  · rw [if_pos behind, if_pos (Or.inl behind)]
    exact ⟨rfl, through follow.agrees⟩
  rw [if_neg behind]
  cases matched : (u.followTerm args.term).prevMatches args with
  | false =>
    simp only [behind, Bool.false_eq_true, if_false, ite_self, or_true, if_true]
    exact ⟨trivial, through follow.agrees⟩
  | true =>
    simp only [behind, Bool.true_eq_false, or_self, if_true, if_false]
    by_cases empty : args.entries = []
    · rw [if_pos empty, if_pos (List.length_eq_zero_iff.mpr empty)]
      exact ⟨rfl, through follow.commitHeartbeat⟩
    · rw [if_neg empty, if_neg (mt List.length_eq_zero_iff.mp empty)]
      have commit : Agrees _ _ (((rf.followTerm args.term).merge args).commitEntries args) _ :=
        (follow.merge reach).commitEntries
      exact ⟨rfl, through ⟨commit.node, fun step => commit.batch (step.merge args)⟩⟩

variable [Inhabited C]

/-- Compaction is invisible. Related nodes answer alike and stay related, a
snapshot leaves a node related to the same uncompacted one, and the positions of
the log read the same from the base on. -/
theorem compaction_transparent (rel : Compacts rf u) :
    (∀ args, (rf.requestVoteHandle args).2 = (u.requestVoteHandle args).2 ∧
      Compacts (rf.requestVoteHandle args).1 (u.requestVoteHandle args).1) ∧
    (∀ command, (rf.start command).2 = (u.start command).2 ∧
      Compacts (rf.start command).1 (u.start command).1) ∧
    Agrees rf u rf.advanceCommitIndexLocked u.advanceCommitIndexLocked ∧
    rf.hasLogInCurrentTerm = u.hasLogInCurrentTerm ∧
    (∀ args : AppendEntryArgs C, rf.lastIncludedIndex ≤ args.prevLogIndex →
      (rf.appendEntriesHandler args).2.1 = (u.appendEntriesHandler args).2.1 ∧
      Agrees rf u ((rf.appendEntriesHandler args).1, (rf.appendEntriesHandler args).2.2)
        ((u.appendEntriesHandler args).1, (u.appendEntriesHandler args).2.2)) ∧
    (∀ index bytes, rf.lastIncludedIndex < index → index ≤ rf.commitIndex →
      Compacts (rf.snapshot index bytes) u ∧
      (index ≤ rf.lastIndex → (rf.snapshot index bytes).lastIncludedIndex = index)) ∧
    rf.lastIndex = u.lastIndex ∧
    ∀ index, rf.lastIncludedIndex ≤ index → rf.termAt index = u.termAt index :=
  ⟨rel.requestVoteHandle, rel.start, rel.advanceCommitIndexLocked, rel.hasLogInCurrentTerm,
    fun _ above => rel.appendEntriesHandler above,
    fun index bytes above below => ⟨rel.snapshot index bytes, rel.snapshot_base bytes above below⟩,
    rel.lastIndex, fun _ above => rel.termAt above⟩

/-- Server 0 after it has compacted its first command. -/
def compactedNode : Raft 3 Nat :=
  ((Cluster.final compactRun compactRun_runs).server 0).rf

theorem compaction_transparent_first :
    compactedNode.lastIncludedIndex = 1 ∧ compactedNode.uncompacted.log.length = 2 ∧
      (compactedNode.requestVoteHandle ⟨2, 1, 2, 1⟩).2 =
        (compactedNode.uncompacted.requestVoteHandle ⟨2, 1, 2, 1⟩).2 ∧
      compactedNode.termAt 2 = compactedNode.uncompacted.termAt 2 :=
  have transparent := compaction_transparent
    (Cluster.compacts (Cluster.after_final compactRun compactRun_runs) 0).1
  ⟨by decide, by decide, (transparent.1 ⟨2, 1, 2, 1⟩).1, transparent.2.2.2.2.2.2.2 2 (by decide)⟩

/-! Whole runs of calls -/

inductive Call (C : Type)
  | requestVote (args : RequestVoteArgs)
  | appendEntries (args : AppendEntryArgs C)
  | advanceCommitIndex
  | start (command : C)
  | hasLogInCurrentTerm
  | snapshot (index : Int) (bytes : List UInt8)

inductive Answer
  | requestVote (reply : RequestVoteReply)
  | appendEntries (reply : AppendEntryReply)
  | start (result : Int × Int × Bool)
  | hasLogInCurrentTerm (result : Bool)
  | done

def answer (rf : Raft n C) : Call C → Raft n C × Answer
  | .requestVote args => ((rf.requestVoteHandle args).1, .requestVote (rf.requestVoteHandle args).2)
  | .appendEntries args => ((rf.appendEntriesHandler args).1, .appendEntries (rf.appendEntriesHandler args).2.1)
  | .advanceCommitIndex => (rf.advanceCommitIndexLocked.1, .done)
  | .start command => ((rf.start command).1, .start (rf.start command).2)
  | .hasLogInCurrentTerm => (rf, .hasLogInCurrentTerm rf.hasLogInCurrentTerm)
  | .snapshot index bytes => (rf.snapshot index bytes, .done)

/-- The uncompacted node has nothing to do for a snapshot. -/
def Uncompacted.answer (u : Uncompacted n C) : Call C → Uncompacted n C × Answer
  | .requestVote args => ((u.requestVoteHandle args).1, .requestVote (u.requestVoteHandle args).2)
  | .appendEntries args => ((u.appendEntriesHandler args).1, .appendEntries (u.appendEntriesHandler args).2.1)
  | .advanceCommitIndex => (u.advanceCommitIndexLocked.1, .done)
  | .start command => ((u.start command).1, .start (u.start command).2)
  | .hasLogInCurrentTerm => (u, .hasLogInCurrentTerm u.hasLogInCurrentTerm)
  | .snapshot _ _ => (u, .done)

def answers (rf : Raft n C) : List (Call C) → List Answer
  | [] => []
  | call :: calls => (rf.answer call).2 :: answers (rf.answer call).1 calls

def Uncompacted.answers (u : Uncompacted n C) : List (Call C) → List Answer
  | [] => []
  | call :: calls => (u.answer call).2 :: Uncompacted.answers (u.answer call).1 calls

/-- No leader sends entries that start below the base. -/
def AboveBase (rf : Raft n C) : List (Call C) → Prop
  | [] => True
  | call :: calls =>
    (∀ args, call = .appendEntries args → rf.lastIncludedIndex ≤ args.prevLogIndex) ∧
      AboveBase (rf.answer call).1 calls

theorem Compacts.answer (rel : Compacts rf u) (call : Call C)
    (above : ∀ args, call = .appendEntries args → rf.lastIncludedIndex ≤ args.prevLogIndex) :
    (rf.answer call).2 = (u.answer call).2 ∧ Compacts (rf.answer call).1 (u.answer call).1 := by
  cases call with
  | requestVote args =>
    obtain ⟨reply, node⟩ := rel.requestVoteHandle args
    exact ⟨congrArg Answer.requestVote reply, node⟩
  | appendEntries args =>
    obtain ⟨reply, agrees⟩ := rel.appendEntriesHandler (above args rfl)
    exact ⟨congrArg Answer.appendEntries reply, agrees.node⟩
  | advanceCommitIndex => exact ⟨rfl, rel.advanceCommitIndexLocked.node⟩
  | start command =>
    obtain ⟨result, node⟩ := rel.start command
    exact ⟨congrArg Answer.start result, node⟩
  | hasLogInCurrentTerm => exact ⟨congrArg Answer.hasLogInCurrentTerm rel.hasLogInCurrentTerm, rel⟩
  | snapshot index bytes => exact ⟨rfl, rel.snapshot index bytes⟩

/-- Over any run of calls, however snapshots are mixed in, the answers are those
of the node that never compacts. -/
theorem Compacts.answers (rel : Compacts rf u) (calls : List (Call C)) (above : AboveBase rf calls) :
    rf.answers calls = u.answers calls := by
  induction calls generalizing rf u with
  | nil => rfl
  | cons call calls ih =>
    obtain ⟨same, next⟩ := rel.answer call above.1
    rw [Raft.answers, Uncompacted.answers, same, ih next above.2]

end DistSys.Raft
