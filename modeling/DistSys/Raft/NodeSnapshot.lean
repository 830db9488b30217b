import DistSys.Raft.NodeReplicate

namespace DistSys.Raft

open Replica (Grows Committed Moved adopt adopt_of_isPrefix adopt_of_not_isPrefix)

variable {n : Nat} {C : Type} {A B : World n C} {s : Fin n} {rf : Raft n C}
variable {index term : Int} {suffix : List (LogEntry C)} {data : Blob C}

theorem raiseToBase_commitIndex (rf : Raft n C) :
    rf.raiseToBase.commitIndex = max rf.commitIndex rf.lastIncludedIndex := by
  unfold raiseToBase
  simp only
  split <;> omega

theorem raiseToBase_lastApplied (rf : Raft n C) :
    rf.raiseToBase.lastApplied = max rf.lastApplied rf.lastIncludedIndex := by
  unfold raiseToBase
  simp only
  split <;> omega

variable [Inhabited C]

theorem rebase_commitIndex (rf : Raft n C) (index term : Int) (suffix : List (LogEntry C))
    (data : Blob C) : (rf.rebase index term suffix data).commitIndex = max rf.commitIndex index :=
  raiseToBase_commitIndex _

theorem rebase_lastApplied (rf : Raft n C) (index term : Int) (suffix : List (LogEntry C))
    (data : Blob C) : (rf.rebase index term suffix data).lastApplied = max rf.lastApplied index :=
  raiseToBase_lastApplied _

/-- A call of `Snapshot` is ignored, or makes exactly these bytes the snapshot of
exactly this base. -/
theorem snapshot_cases (rf : Raft n C) (index : Int) (bytes : List UInt8) :
    rf.snapshot index bytes = rf ∨ ∃ term suffix covers,
      rf.lastIncludedIndex < index ∧ index ≤ rf.commitIndex ∧
        rf.snapshot index bytes = rf.rebase index term suffix ⟨bytes, covers⟩ := by
  unfold snapshot
  split
  next => exact Or.inl rfl
  next valid =>
    simp only
    split
    next => exact Or.inl rfl
    next => exact Or.inr ⟨_, _, _, by omega, by omega, rfl⟩

theorem condInstallSnapshot_cases (rf : Raft n C) (term index : Int) (data : Blob C) :
    index ≤ rf.lastIncludedIndex ∧ rf.condInstallSnapshot term index data = (rf, false) ∨
      rf.lastIncludedIndex < index ∧ rf.condInstallSnapshot term index data =
        (rf.rebase index term (rf.retained term (index - rf.lastIncludedIndex)) data, true) := by
  unfold condInstallSnapshot
  split
  next old => exact Or.inl ⟨old, rfl⟩
  next new => exact Or.inr ⟨not_le.mp new, rfl⟩

/-- A new base with the snapshot that reaches it: the commit position is the
higher one of the old position and the base. -/
theorem NodeRel.rebase (rel : NodeRel A s rf) (grows : Grows A B) (votes : B.vote s = A.vote s)
    (peer : B.peer s = ⟨rf.currentTerm, rf.state.role, data.covers ++ suffix⟩)
    (size : (data.covers.length : Int) = index) (last : termOf data.covers index = term)
    (settled : Committed LogEntry.term B rf.currentTerm
      ((data.covers ++ suffix).take (max rf.commitIndex index).toNat))
    (inside : rf.commitIndex ≤ (data.covers ++ suffix).length) :
    NodeRel B s (rf.rebase index term suffix data) := by
  have higher := rebase_commitIndex rf index term suffix data
  have full : (rf.rebase index term suffix data).fullLog = data.covers ++ suffix := rfl
  have shaped : Shaped (rf.rebase index term suffix data) := by
    refine ⟨List.cons_ne_nil _ _, ?_, size, last⟩
    rintro e ⟨⟩
    rfl
  have applied := rel.appliedCommit
  constructor
  case me => exact rel.me
  case origin => exact grows.origin.trans rel.origin
  case shaped => exact shaped
  case durable => exact Or.inl rfl
  case term => rw [peer]; rfl
  case role => rw [peer]; rfl
  case log => rw [peer, full]
  case vote =>
    rw [votes]
    exact rel.vote
  case committed =>
    rw [higher, full]
    exact settled
  case baseApplied =>
    rw [rebase_lastApplied]
    exact le_max_right _ _
  case appliedCommit =>
    rw [higher, rebase_lastApplied]
    exact max_le_max_right index applied
  case commitLast =>
    rw [higher, shaped.lastIndex_eq, full]
    rw [List.length_append] at inside ⊢
    omega
  case matched =>
    intro leads j away
    have monotone := grows.ack j rf.currentTerm
    have old := rel.matched leads j away
    rw [higher]
    change rf.matchIndex j ≤ max rf.commitIndex index ∨ rf.matchIndex j ≤ B.ack j rf.currentTerm
    omega

omit [Inhabited C] in
theorem Shaped.suffixAfter_eq (shaped : Shaped rf) (above : rf.lastIncludedIndex < index) :
    suffixAfter rf.logs (index - rf.lastIncludedIndex) = rf.fullLog.drop index.toNat := by
  have kept := shaped.drop_fullLog (show rf.lastIncludedIndex < index + 1 by omega)
  rw [show index + 1 - rf.lastIncludedIndex = index - rf.lastIncludedIndex + 1 by omega,
    show index + 1 - 1 = index by omega] at kept
  unfold suffixAfter
  rw [← kept]
  split
  next => rfl
  next outside => rw [List.drop_eq_nil_of_le (by omega)]

omit [Inhabited C] in
theorem Shaped.covers_append (shaped : Shaped rf) (above : rf.lastIncludedIndex < index) :
    rf.persister.snapshot.covers ++ rf.logs.tail.take (index - rf.lastIncludedIndex).toNat =
      rf.fullLog.take index.toNat := by
  have base := shaped.base
  have shift : (index - rf.lastIncludedIndex).toNat =
      index.toNat - rf.persister.snapshot.covers.length := by omega
  have past : rf.persister.snapshot.covers.length ≤ index.toNat := by omega
  unfold fullLog
  rw [List.take_append, List.take_of_length_le past, shift]

/-- Compaction by the service leaves the full log alone. -/
theorem NodeRel.snapshot (rel : NodeRel A s rf) (index : Int) (bytes : List UInt8) :
    NodeRel A s (rf.snapshot index bytes) := by
  unfold Raft.snapshot
  split
  next => exact rel
  next valid =>
    simp only [not_or, not_le, not_lt] at valid
    obtain ⟨above, below⟩ := valid
    have nonneg := rel.shaped.base_nonneg
    have inside := rel.commitLast
    rw [rel.shaped.lastIndex_eq] at inside
    simp only
    split
    next => exact rel
    next entry found =>
      rw [rel.shaped.slot_logs above, slot_of_nonneg (by omega)] at found
      rw [rel.shaped.suffixAfter_eq above, rel.shaped.covers_append above]
      have whole := List.take_append_drop index.toNat rf.fullLog
      have size : ((rf.fullLog.take index.toNat).length : Int) = index := by
        rw [List.length_take]; omega
      refine rel.rebase (Grows.refl A) rfl ?_ size ?_ ?_ ?_
      · rw [whole, ← rel.log, ← rel.role, ← rel.term]
      · rw [← termOf_of_isPrefix (List.take_prefix index.toNat rf.fullLog) size.ge]
        have value := termOf_of_getElem? found
        rwa [show ((index - 1).toNat : Int) + 1 = index by omega] at value
      · rw [whole, max_eq_left below]
        exact rel.committed
      · rw [whole]
        exact inside

theorem commitIndex_le_snapshot (rf : Raft n C) (index : Int) (bytes : List UInt8) :
    rf.commitIndex ≤ (rf.snapshot index bytes).commitIndex := by
  rcases snapshot_cases rf index bytes with same | ⟨_, _, _, _, _, new⟩
  · rw [same]
  · rw [new, rebase_commitIndex]
    exact le_max_left _ _

/-- The snapshot agrees with the log at its index exactly when the log
already has the whole prefix. -/
theorem NodeRel.covers_prefix_iff (rel : NodeRel A s rf) (inv : Replica.Inv LogEntry.term A)
    (snap : SnapshotRel A rf.currentTerm data term index) (above : rf.lastIncludedIndex < index) :
    data.covers <+: rf.fullLog ↔
      ∃ entry, slot rf.logs (index - rf.lastIncludedIndex) = some entry ∧ entry.term = term := by
  have nonneg := rel.shaped.base_nonneg
  have size := snap.index
  rw [rel.shaped.slot_logs above, slot_of_nonneg (by omega)]
  constructor
  · intro part
    have bound := part.length_le
    obtain ⟨e, found, value⟩ := entry_of_inside (show 0 < index by omega)
      (show index ≤ rf.fullLog.length by omega)
    refine ⟨e, found, ?_⟩
    rw [← value, termOf_of_isPrefix part size.ge, snap.last]
  · rintro ⟨entry, found, same⟩
    have bound := (List.getElem?_eq_some_iff.mp found).1
    have value := termOf_of_getElem? found
    rw [show ((index - 1).toNat : Int) + 1 = index by omega] at value
    have rooted := inv.committed_rooted snap.committed
    refine prefix_of_last (rel.rooted inv) rooted List.prefix_rfl (by omega) ?_
    rw [size, value, same, snap.last]

/-- A committed snapshot below the commit position is already in the log. -/
theorem NodeRel.covers_prefix (rel : NodeRel A s rf) (inv : Replica.Inv LogEntry.term A)
    (snap : SnapshotRel A rf.currentTerm data term index) (below : index ≤ rf.commitIndex) :
    data.covers <+: rf.fullLog := by
  have size := snap.index
  rcases inv.committed_comparable snap.committed rel.committed with short | long
  · exact short.trans (List.take_prefix _ _)
  · have same := long.eq_of_length_le (by rw [rel.length_settled]; omega)
    rw [← same]
    exact List.take_prefix _ _

/-- The log after an accepted snapshot. -/
theorem NodeRel.covers_retained (rel : NodeRel A s rf) (inv : Replica.Inv LogEntry.term A)
    (snap : SnapshotRel A rf.currentTerm data term index) (above : rf.lastIncludedIndex < index) :
    data.covers ++ rf.retained term (index - rf.lastIncludedIndex) = adopt data.covers rf.fullLog := by
  have agrees := rel.covers_prefix_iff inv snap above
  have size := snap.index
  unfold retained
  by_cases part : data.covers <+: rf.fullLog
  · obtain ⟨entry, found, same⟩ := agrees.mp part
    rw [adopt_of_isPrefix part, found]
    simp only [same, if_true]
    rw [rel.shaped.suffixAfter_eq above, show index.toNat = data.covers.length by omega]
    exact (List.prefix_append_drop part).symm
  · rw [adopt_of_not_isPrefix part]
    split
    next => exact List.append_nil _
    next entry found =>
      rw [if_neg fun same => part (agrees.mpr ⟨entry, found, same⟩), List.append_nil]

theorem NodeRel.condInstallSnapshot (rel : NodeRel A s rf) (inv : Replica.Inv LogEntry.term A)
    (snap : SnapshotRel A rf.currentTerm data term index) :
    ∃ B, Moved LogEntry.term s A B ∧ NodeRel B s (rf.condInstallSnapshot term index data).1 ∧
      rf.commitIndex ≤ (rf.condInstallSnapshot term index data).1.commitIndex := by
  unfold Raft.condInstallSnapshot
  split
  next => exact ⟨A, Moved.refl s A, rel, le_rfl⟩
  next old =>
    have full := rel.covers_retained inv snap (not_le.mp old)
    have inside := rel.commitLast
    rw [rel.shaped.lastIndex_eq] at inside
    have size := snap.index
    have settled : Committed LogEntry.term A (A.peer s).term data.covers := by
      rw [rel.term]; exact snap.committed
    have step : Replica.Step LogEntry.term s A _ := .install settled
    have grows := (step.inv_grows inv).2
    have part := Replica.prefix_adopt data.covers rf.fullLog
    refine ⟨_, step.moved, ?_, ?_⟩
    · refine rel.rebase grows rfl ?_ size snap.last ?_ ?_ <;> rw [full]
      · simp only [Replica.State.setPeer, Function.update_self]
        rw [rel.log, rel.role, rel.term]
      · rcases le_total index rf.commitIndex with below | past
        · rw [max_eq_left below, adopt_of_isPrefix (rel.covers_prefix inv snap below)]
          exact rel.committed.grows grows
        · rw [max_eq_right past, ← size, Int.toNat_natCast, ← List.prefix_iff_eq_take.mp part]
          exact snap.committed.grows grows
      · rcases le_total index rf.commitIndex with below | past
        · rwa [adopt_of_isPrefix (rel.covers_prefix inv snap below)]
        · have length := part.length_le
          omega
    · rw [rebase_commitIndex]
      exact le_max_left _ _

theorem NodeRel.setInFlight (rel : NodeRel A s rf) (snapshotInFlight : Bool) :
    NodeRel A s { rf with snapshotInFlight := snapshotInFlight } :=
  rel.volatile rf.dead rf.nextIndex rf.applying snapshotInFlight rel.baseApplied rel.appliedCommit

/-- The first critical section of `InstallSnapshot` touches the term only. -/
theorem NodeRel.installSnapshot (rel : NodeRel A s rf) (inv : Replica.Inv LogEntry.term A)
    (args : InstallSnapshotArgs C) :
    ∃ B, Moved LogEntry.term s A B ∧ NodeRel B s (rf.installSnapshot args).1 ∧
      (rf.installSnapshot args).1.commitIndex = rf.commitIndex ∧
      ((rf.installSnapshot args).2.2 = true →
        args.term ≤ (rf.installSnapshot args).1.currentTerm) := by
  unfold Raft.installSnapshot
  simp only
  split
  next => exact ⟨A, Moved.refl s A, rel, rfl, fun absent => absurd absent (by simp)⟩
  next reached =>
    by_cases ahead : args.term > rf.currentTerm
    · obtain ⟨B, moved, _, node⟩ := rel.stepBack inv ahead
      simp only [ahead, if_true]
      split
      next => exact ⟨B, moved, node, rfl, fun absent => absurd absent (by simp)⟩
      next => exact ⟨B, moved, node.setInFlight true, rfl, fun _ => le_rfl⟩
    · simp only [ahead, if_false]
      split
      next => exact ⟨A, Moved.refl s A, rel, rfl, fun absent => absurd absent (by simp)⟩
      next => exact ⟨A, Moved.refl s A, rel.setInFlight true, rfl, fun _ => not_lt.mp ahead⟩

/-- A crash keeps the five persistent fields and the snapshot; everything
else starts from the base. -/
theorem Durable.make_eq (durable : Durable rf) (me : rf.me = s) (nonempty : rf.logs ≠ [])
    (base : 0 ≤ rf.lastIncludedIndex) :
    make s rf.persister = { rf with
      dead := false, state := .follower, commitIndex := rf.lastIncludedIndex
      lastApplied := rf.lastIncludedIndex, nextIndex := fun _ => 0, matchIndex := fun _ => 0
      applying := false, snapshotInFlight := false } := by
  have some : rf.logs.length > 0 := List.length_pos_iff.mpr nonempty
  rcases durable with saved | ⟨empty, term, vote, index, baseTerm, logs⟩
  · simp only [make, saved, encodeState, readPersist, decodeInt, decodeOffset, decodeLogs,
      Option.bind_eq_bind, Option.bind_some, pure, raiseToBase, some, if_true, me]
    split
    next => rfl
    next notBelow => rw [show rf.lastIncludedIndex = 0 by omega]
  · simp only [make, empty, readPersist, decodeInt, term, vote, index, baseTerm, logs, me]

theorem NodeRel.crash (rel : NodeRel A s rf) (inv : Replica.Inv LogEntry.term A) :
    ∃ B, Moved LogEntry.term s A B ∧ B.ack = A.ack ∧ NodeRel B s (make s rf.persister) := by
  obtain ⟨B, moved, quiet, node⟩ := rel.follow inv
  refine ⟨B, moved, quiet, ?_⟩
  rw [rel.durable.make_eq rel.me rel.shaped.nonempty rel.shaped.base_nonneg]
  have base := rel.baseApplied.trans rel.appliedCommit
  constructor
  case me => exact node.me
  case origin => exact node.origin
  case shaped => exact ⟨rel.shaped.nonempty, rel.shaped.head, rel.shaped.base, rel.shaped.baseTerm⟩
  case durable => exact rel.durable
  case term => exact node.term
  case role => exact node.role
  case log => exact node.log
  case vote => exact node.vote
  case committed => exact node.committed.of_isPrefix (List.take_prefix_take_left (Int.toNat_le_toNat base))
  case baseApplied => exact le_rfl
  case appliedCommit => exact le_rfl
  case commitLast => exact rel.shaped.base_le_lastIndex
  case matched =>
    intro leads
    cases leads

end DistSys.Raft
