import DistSys.Raft.Uncompacted
import DistSys.Raft.Simulation

namespace DistSys.Raft

variable {n : Nat} {C : Type} {rf : Raft n C} {u : Uncompacted n C} {index : Int}

/-- A node stores of the uncompacted one the entries above its base, after a
placeholder with the term at the base. -/
structure Compacts (rf : Raft n C) (u : Uncompacted n C) : Prop where
  me : rf.me = u.me
  state : rf.state = u.state
  currentTerm : rf.currentTerm = u.currentTerm
  votedFor : rf.votedFor = u.votedFor
  commitIndex : rf.commitIndex = u.commitIndex
  matchIndex : rf.matchIndex = u.matchIndex
  baseNonneg : 0 ≤ rf.lastIncludedIndex
  baseInside : rf.lastIncludedIndex ≤ u.log.length
  baseCommitted : rf.lastIncludedIndex ≤ rf.commitIndex
  baseTerm : rf.lastIncludedTerm = termOf u.log rf.lastIncludedIndex
  logs : ∃ command, rf.logs =
    ⟨command, rf.lastIncludedTerm⟩ :: u.log.drop rf.lastIncludedIndex.toNat

/-- Both nodes have handed over the same entries. -/
structure InStep (rf : Raft n C) (u : Uncompacted n C) : Prop where
  lastApplied : rf.lastApplied = u.lastApplied
  applying : rf.applying = u.applying
  held : rf.snapshotInFlight = u.held
  baseApplied : rf.lastIncludedIndex ≤ rf.lastApplied

/-- What related nodes come to by the same operation: related nodes, which hand
over the same messages if they were in step. -/
structure Agrees (rf : Raft n C) (u : Uncompacted n C) (result : Raft n C × Option (Batch C))
    (plain : Uncompacted n C × Option (Batch C)) : Prop where
  node : Compacts result.1 plain.1
  batch : InStep rf u → result.2 = plain.2 ∧ InStep result.1 plain.1

theorem Compacts.agrees (rel : Compacts rf u) : Agrees rf u (rf, none) (u, none) :=
  ⟨rel, fun step => ⟨rfl, step⟩⟩

/-- The node with a snapshot that stands for the entries it no longer stores. -/
def standing (rf : Raft n C) (log : List (LogEntry C)) : Raft n C :=
  { rf with
    persister := { rf.persister with
      snapshot := { rf.persister.snapshot with covers := log.take rf.lastIncludedIndex.toNat } } }

theorem Compacts.fullLog_standing (rel : Compacts rf u) : (rf.standing u.log).fullLog = u.log := by
  obtain ⟨command, logs⟩ := rel.logs
  change u.log.take rf.lastIncludedIndex.toNat ++ rf.logs.tail = u.log
  rw [logs, List.tail_cons, List.take_append_drop]

theorem Compacts.shaped (rel : Compacts rf u) : Shaped (rf.standing u.log) := by
  have nonneg := rel.baseNonneg
  have inside := rel.baseInside
  have length : ((u.log.take rf.lastIncludedIndex.toNat).length : Int) = rf.lastIncludedIndex := by
    rw [List.length_take]
    omega
  obtain ⟨command, logs⟩ := rel.logs
  refine ⟨?_, ?_, length, ?_⟩
  · change rf.logs ≠ []
    rw [logs]
    exact List.cons_ne_nil _ _
  · change ∀ e ∈ rf.logs.head?, _
    rw [logs]
    rintro _ ⟨⟩
    rfl
  · change termOf (u.log.take rf.lastIncludedIndex.toNat) rf.lastIncludedIndex = rf.lastIncludedTerm
    rw [rel.baseTerm]
    exact (termOf_of_isPrefix (List.take_prefix _ _) length.ge).symm

theorem Compacts.lastIndex (rel : Compacts rf u) : rf.lastIndex = u.lastIndex := by
  have last := rel.shaped.lastIndex_eq
  rw [rel.fullLog_standing] at last
  exact last

theorem Compacts.base_le_lastIndex (rel : Compacts rf u) : rf.lastIncludedIndex ≤ rf.lastIndex :=
  rel.shaped.base_le_lastIndex

theorem Compacts.termAt (rel : Compacts rf u) (above : rf.lastIncludedIndex ≤ index) :
    rf.termAt index = u.termAt index := by
  have same : (rf.standing u.log).termAt index = _ := rel.shaped.termAt_eq above
  rw [rel.fullLog_standing] at same
  exact same

theorem Compacts.slot_logs (rel : Compacts rf u) (above : rf.lastIncludedIndex < index) :
    slot rf.logs (index - rf.lastIncludedIndex) = slot u.log (index - 1) := by
  have same : slot (rf.standing u.log).logs (index - rf.lastIncludedIndex) = _ :=
    rel.shaped.slot_logs above
  rw [rel.fullLog_standing] at same
  exact same

/-! Votes -/

theorem Compacts.stepBack (rel : Compacts rf u) (term : Int) :
    Compacts (rf.stepBack term) (u.stepBack term) :=
  { rel with state := rfl, currentTerm := rfl, votedFor := rfl }

theorem Compacts.castVote (rel : Compacts rf u) (args : RequestVoteArgs) (replyTerm : Int) :
    (rf.castVote args replyTerm).2 = (u.castVote args replyTerm).2 ∧
      Compacts (rf.castVote args replyTerm).1 (u.castVote args replyTerm).1 := by
  have lastTerm := rel.termAt rel.base_le_lastIndex
  rw [rel.lastIndex] at lastTerm
  unfold Raft.castVote Uncompacted.castVote
  simp only [rel.votedFor, rel.lastIndex, lastTerm]
  split
  next => exact ⟨rfl, { rel with votedFor := rfl }⟩
  next => exact ⟨rfl, rel⟩

theorem Compacts.requestVoteHandle (rel : Compacts rf u) (args : RequestVoteArgs) :
    (rf.requestVoteHandle args).2 = (u.requestVoteHandle args).2 ∧
      Compacts (rf.requestVoteHandle args).1 (u.requestVoteHandle args).1 := by
  unfold Raft.requestVoteHandle Uncompacted.requestVoteHandle
  rw [rel.currentTerm]
  split
  next => exact ⟨rfl, rel⟩
  next =>
    split
    next => exact (rel.stepBack args.term).castVote args u.currentTerm
    next => exact rel.castVote args u.currentTerm

/-! The log -/

theorem Compacts.setLog (rel : Compacts rf u) {log rest : List (LogEntry C)} {placeholder : LogEntry C}
    (persister : Persister C) (head : placeholder.term = rf.lastIncludedTerm)
    (shares : u.log.take rf.lastIncludedIndex.toNat <+: log)
    (above : rest = log.drop rf.lastIncludedIndex.toNat) :
    Compacts { rf with logs := placeholder :: rest, persister := persister } { u with log := log } := by
  have nonneg := rel.baseNonneg
  have inside := rel.baseInside
  have length : (u.log.take rf.lastIncludedIndex.toNat).length = rf.lastIncludedIndex.toNat := by
    rw [List.length_take]
    omega
  refine { rel with baseInside := ?_, baseTerm := ?_, logs := ⟨placeholder.command, ?_⟩ }
  · have bound := shares.length_le
    simp only
    omega
  · simp only
    rw [rel.baseTerm, termOf_of_isPrefix shares (by omega),
      termOf_of_isPrefix (List.take_prefix rf.lastIncludedIndex.toNat u.log) (by omega)]
  · simp only [above, ← head]

theorem Compacts.append (rel : Compacts rf u) (entries : List (LogEntry C)) (persister : Persister C) :
    Compacts { rf with logs := rf.logs ++ entries, persister := persister }
      { u with log := u.log ++ entries } := by
  have nonneg := rel.baseNonneg
  have inside := rel.baseInside
  obtain ⟨command, logs⟩ := rel.logs
  rw [logs, List.cons_append]
  refine rel.setLog persister rfl ?_ ?_
  · exact (List.take_prefix _ _).trans (List.prefix_append _ _)
  · rw [List.drop_append_of_le_length (by omega)]

theorem Compacts.truncate (rel : Compacts rf u) (above : rf.lastIncludedIndex < index)
    (entries : List (LogEntry C)) (persister : Persister C) :
    Compacts
      { rf with
        logs := rf.logs.take (index - rf.lastIncludedIndex).toNat ++ entries, persister := persister }
      { u with log := u.log.take (index - 1).toNat ++ entries } := by
  have nonneg := rel.baseNonneg
  have inside := rel.baseInside
  obtain ⟨command, logs⟩ := rel.logs
  have shift : (index - rf.lastIncludedIndex).toNat =
      (index - 1).toNat - rf.lastIncludedIndex.toNat + 1 := by omega
  rw [logs, shift, List.take_succ_cons, List.cons_append, ← List.drop_take]
  have low : rf.lastIncludedIndex.toNat ≤ (index - 1).toNat := by omega
  refine rel.setLog persister rfl ?_ ?_
  · exact (List.take_prefix_take_left low).trans (List.prefix_append _ _)
  · rw [List.drop_append_of_le_length]
    rw [List.length_take]
    omega

theorem Compacts.start (rel : Compacts rf u) (command : C) :
    (rf.start command).2 = (u.start command).2 ∧
      Compacts (rf.start command).1 (u.start command).1 := by
  unfold Raft.start Uncompacted.start
  by_cases leads : rf.state = .leader
  · rw [if_neg (not_not.mpr leads), if_neg (not_not.mpr (rel.state.symm.trans leads))]
    have entry : (⟨command, u.currentTerm⟩ : LogEntry C) = ⟨command, rf.currentTerm⟩ := by
      rw [rel.currentTerm]
    rw [entry]
    have longer := rel.append [⟨command, rf.currentTerm⟩]
      (persist { rf with logs := rf.logs ++ [⟨command, rf.currentTerm⟩] }).persister
    have last : ((u.log ++ [(⟨command, rf.currentTerm⟩ : LogEntry C)]).length : Int) = u.lastIndex + 1 := by
      rw [List.length_append, List.length_singleton]
      rfl
    exact ⟨Prod.ext (longer.lastIndex.trans last) (Prod.ext rel.currentTerm rfl), longer⟩
  · rw [if_pos leads, if_pos (rel.state ▸ leads), rel.currentTerm]
    exact ⟨rfl, rel⟩

theorem Compacts.hasLogInCurrentTerm (rel : Compacts rf u) :
    rf.hasLogInCurrentTerm = u.hasLogInCurrentTerm := by
  have nonneg := rel.baseNonneg
  have inside := rel.baseInside
  obtain ⟨command, logs⟩ := rel.logs
  unfold Raft.hasLogInCurrentTerm Uncompacted.hasLogInCurrentTerm Uncompacted.termAt Uncompacted.lastIndex
  rw [logs, ← rel.currentTerm]
  cases rest : u.log.drop rf.lastIncludedIndex.toNat with
  | nil =>
    have atBase : (u.log.length : Int) = rf.lastIncludedIndex := by
      have length := List.drop_eq_nil_iff.mp rest
      omega
    rw [atBase, ← rel.baseTerm]
    rfl
  | cons entry entries =>
    have nonempty : u.log.drop rf.lastIncludedIndex.toNat ≠ [] := by rw [rest]; exact List.cons_ne_nil _ _
    rw [List.getLast?_cons_cons, ← rest, List.getLast?_drop, if_neg, termOf_length]
    · cases last : u.log.getLast? with
      | none =>
        rw [List.getLast?_eq_none_iff.mp last, List.drop_nil] at nonempty
        exact absurd rfl nonempty
      | some e => rfl
    · intro short
      exact nonempty (List.drop_eq_nil_of_le short)

/-! Snapshots -/

variable [Inhabited C]

theorem Compacts.rebase (rel : Compacts rf u) {entry : LogEntry C} {suffix : List (LogEntry C)}
    (snapshot : Blob C) (positive : 0 < index) (below : index ≤ rf.commitIndex)
    (found : u.log[(index - 1).toNat]? = some entry) (kept : suffix = u.log.drop index.toNat) :
    Compacts (rf.rebase index entry.term suffix snapshot) u := by
  have inside := (List.getElem?_eq_some_iff.mp found).1
  have term := termOf_of_getElem? found
  rw [show ((index - 1).toNat : Int) + 1 = index by omega] at term
  have commit : (rf.rebase index entry.term suffix snapshot).commitIndex = rf.commitIndex := by
    rw [rebase_commitIndex, max_eq_left below]
  refine { rel with
    commitIndex := commit.trans rel.commitIndex
    baseNonneg := positive.le
    baseInside := ?_
    baseCommitted := below.trans commit.ge
    baseTerm := term.symm
    logs := ⟨noneCommand, ?_⟩ }
  · change index ≤ u.log.length
    omega
  · rw [kept]
    rfl

/-- A snapshot of the service changes nothing for the uncompacted node. -/
theorem Compacts.snapshot (rel : Compacts rf u) (index : Int) (bytes : List UInt8) :
    Compacts (rf.snapshot index bytes) u := by
  have nonneg := rel.baseNonneg
  unfold Raft.snapshot
  split
  next => exact rel
  next valid =>
    obtain ⟨above, below⟩ := not_or.mp valid
    have kept : suffixAfter (rf.standing u.log).logs (index - rf.lastIncludedIndex) = _ :=
      rel.shaped.suffixAfter_eq (not_le.mp above)
    rw [rel.fullLog_standing] at kept
    simp only
    rw [rel.slot_logs (by omega), slot_of_nonneg (by omega)]
    cases found : u.log[(index - 1).toNat]? with
    | none => exact rel
    | some entry => exact rel.rebase _ (by omega) (not_lt.mp below) found kept

/-- The base moves to the snapshot whenever the log reaches that far. -/
theorem Compacts.snapshot_base (rel : Compacts rf u) (bytes : List UInt8)
    (above : rf.lastIncludedIndex < index) (below : index ≤ rf.commitIndex) (inside : index ≤ rf.lastIndex) :
    (rf.snapshot index bytes).lastIncludedIndex = index := by
  have last : rf.lastIndex = u.log.length := rel.lastIndex
  have nonneg := rel.baseNonneg
  unfold Raft.snapshot
  rw [if_neg (not_or.mpr ⟨not_le.mpr above, not_lt.mpr below⟩)]
  simp only
  rw [rel.slot_logs above, slot_of_nonneg (by omega), List.getElem?_eq_getElem (by omega)]
  rfl

/-- The uncompacted node that a reachable node stands for. -/
def uncompacted (rf : Raft n C) : Uncompacted n C where
  me := rf.me
  state := rf.state
  currentTerm := rf.currentTerm
  votedFor := rf.votedFor
  log := rf.fullLog
  commitIndex := rf.commitIndex
  matchIndex := rf.matchIndex
  lastApplied := rf.lastApplied
  applying := rf.applying
  held := rf.snapshotInFlight

theorem NodeRel.compacts {A : World n C} {s : Fin n} (rel : NodeRel A s rf) : Compacts rf rf.uncompacted where
  me := rfl
  state := rfl
  currentTerm := rfl
  votedFor := rfl
  commitIndex := rfl
  matchIndex := rfl
  baseNonneg := rel.shaped.base_nonneg
  baseInside := rel.shaped.base_le_lastIndex.trans rel.shaped.lastIndex_eq.le
  baseCommitted := rel.baseApplied.trans rel.appliedCommit
  baseTerm := by
    rw [← rel.shaped.baseTerm]
    exact (termOf_of_isPrefix (List.prefix_append _ _) rel.shaped.base.ge).symm
  logs := by
    have base := rel.shaped.base
    cases logs : rf.logs with
    | nil => exact absurd logs rel.shaped.nonempty
    | cons placeholder rest =>
      refine ⟨placeholder.command, ?_⟩
      have head := rel.shaped.head placeholder (by rw [logs]; rfl)
      change _ = _ :: rf.fullLog.drop _
      rw [fullLog, logs, List.tail_cons, show rf.lastIncludedIndex.toNat =
        rf.persister.snapshot.covers.length by omega, List.drop_left, ← head]

/-- Every server of a run stands for a node that has never compacted, and is in
step with it. -/
theorem Cluster.compacts {c : Cluster n C} {as : List (Action n C)} (run : Cluster.after n C as = some c)
    (s : Fin n) : Compacts (c.server s).rf (c.server s).rf.uncompacted ∧
      InStep (c.server s).rf (c.server s).rf.uncompacted := by
  obtain ⟨A, rel⟩ := Cluster.reached run
  have node := (rel.server s).node
  exact ⟨node.compacts, rfl, rfl, rfl, node.baseApplied⟩

end DistSys.Raft
