import DistSys.Raft.NodeMerge

namespace DistSys.Raft

open Replica (Grows Committed Moved adopt adopt_of_isPrefix adopt_of_not_isPrefix)

variable {n : Nat} {C : Type} [Inhabited C] {A B : World n C} {s : Fin n} {rf : Raft n C}
variable {args : AppendEntryArgs C} {P : List (LogEntry C)} {term : Int}

theorem NodeRel.commit_nonneg (rel : NodeRel A s rf) : 0 ≤ rf.commitIndex :=
  rel.shaped.base_nonneg.trans (rel.baseApplied.trans rel.appliedCommit)

/-- The commit position lies within the log. -/
theorem NodeRel.length_settled (rel : NodeRel A s rf) :
    (rf.fullLog.take rf.commitIndex.toNat).length = rf.commitIndex.toNat := by
  have inside := rel.commitLast
  rw [rel.shaped.lastIndex_eq] at inside
  rw [List.length_take]
  omega

theorem NodeRel.termOf_nonneg (rel : NodeRel A s rf) (inv : Replica.Inv LogEntry.term A) {index : Int}
    (nonneg : 0 ≤ index) (inside : index ≤ rf.lastIndex) : 0 ≤ termOf rf.fullLog index := by
  rw [rel.shaped.lastIndex_eq] at inside
  rcases nonneg.eq_or_lt with rfl | positive
  · exact (termOf_zero _).ge
  · obtain ⟨e, found, value⟩ := entry_of_inside positive inside
    rw [value]
    exact (rel.termsPositive inv e (List.mem_of_getElem? found)).le

/-- A peer whose log has changed behind what it has committed. -/
theorem NodeRel.setLog {logs : List (LogEntry C)} {persister : Persister C} (rel : NodeRel A s rf)
    (grows : Grows A B) (votes : B.vote s = A.vote s)
    (shaped : Shaped { rf with logs := logs, persister := persister })
    (durable : Durable { rf with logs := logs, persister := persister })
    (peer : B.peer s = ⟨rf.currentTerm, rf.state.role,
      fullLog { rf with logs := logs, persister := persister }⟩)
    (kept : rf.fullLog.take rf.commitIndex.toNat <+:
      fullLog { rf with logs := logs, persister := persister }) :
    NodeRel B s { rf with logs := logs, persister := persister } where
  me := rel.me
  origin := grows.origin.trans rel.origin
  shaped := shaped
  durable := durable
  term := by rw [peer]
  role := by rw [peer]
  log := by rw [peer]
  vote := by rw [votes]; exact rel.vote
  committed := by
    have same := Replica.take_eq_of_isPrefix kept rel.length_settled.ge
    rw [List.take_take, min_self] at same
    change Committed LogEntry.term B rf.currentTerm (List.take rf.commitIndex.toNat _)
    rw [same]
    exact rel.committed.grows grows
  baseApplied := rel.baseApplied
  appliedCommit := rel.appliedCommit
  commitLast := by
    have length := kept.length_le
    have nonneg := rel.commit_nonneg
    rw [rel.length_settled] at length
    rw [shaped.lastIndex_eq]
    change rf.commitIndex ≤ _
    omega
  matched leads j away := by
    have monotone := grows.ack j rf.currentTerm
    have old := rel.matched leads j away
    change rf.matchIndex j ≤ rf.commitIndex ∨ rf.matchIndex j ≤ B.ack j rf.currentTerm
    omega

/-- What the leader says precedes the entries is what the peer holds. -/
theorem NodeRel.prev_prefix (rel : NodeRel A s rf) (inv : Replica.Inv LogEntry.term A)
    (inBook : P ++ args.entries <+: A.book term) (length : (P.length : Int) = args.prevLogIndex)
    (last : termOf P P.length = args.prevLogTerm) (accepted : rf.prevMatches args = true) :
    P <+: rf.fullLog := by
  obtain ⟨_, reach, same⟩ := rel.shaped.prevMatches_iff.mp accepted
  rw [rel.shaped.lastIndex_eq] at reach
  refine prefix_of_last (rel.rooted inv) (inv.book_rooted term) ((List.prefix_append _ _).trans inBook)
    (by omega) ?_
  rw [length, same, ← last, length]

/-- The merge loop switches to the leader's log exactly when it has to. -/
theorem NodeRel.fullLog_merge (rel : NodeRel A s rf) (inv : Replica.Inv LogEntry.term A)
    (inBook : P ++ args.entries <+: A.book term) (length : (P.length : Int) = args.prevLogIndex)
    (last : termOf P P.length = args.prevLogTerm) (accepted : rf.prevMatches args = true) :
    (rf.merge args).fullLog = adopt (P ++ args.entries) rf.fullLog := by
  obtain ⟨above, reach, _⟩ := rel.shaped.prevMatches_iff.mp accepted
  have part := rel.prev_prefix inv inBook length last accepted
  have lastIndex := rel.shaped.lastIndex_eq
  obtain ⟨done, rest, split, agree, stops⟩ :=
    rel.shaped.scan_cases args.entries (args.prevLogIndex + 1) (by omega) (by omega)
  have offered : P ++ args.entries = P ++ done ++ rest := by rw [split, List.append_assoc]
  rw [offered] at inBook
  rw [rel.shaped.fullLog_merge above reach, offered]
  rw [← length, lastIndex] at agree
  have whole := prefix_of_terms (rel.rooted inv) (inv.book_rooted term)
    ((List.prefix_append _ _).trans inBook) part agree
  have size : (P ++ done).length = P.length + done.length := List.length_append
  cases scanned : rf.scan (args.prevLogIndex + 1) args.entries with
  | agrees =>
    rw [scanned] at stops
    rw [show rest = [] from stops, List.append_nil, adopt_of_isPrefix whole]
  | extend tail =>
    rw [scanned] at stops
    obtain ⟨rfl, nonempty, stop⟩ := stops
    have full := whole.eq_of_length (by omega)
    have longer := List.length_pos_iff.mpr nonempty
    change rf.fullLog ++ tail = _
    rw [← full, adopt_of_not_isPrefix]
    intro inside
    have bound := inside.length_le
    rw [List.length_append] at bound
    omega
  | conflict index tail =>
    rw [scanned] at stops
    obtain ⟨rfl, found, _, e, head, differs⟩ := stops
    have cut : rf.fullLog.take (index - 1).toNat = P ++ done := by
      rw [show (index - 1).toNat = (P ++ done).length by omega]
      exact (List.prefix_iff_eq_take.mp whole).symm
    change rf.fullLog.take (index - 1).toNat ++ tail = _
    rw [cut, adopt_of_not_isPrefix]
    intro inside
    have atEnd : (P ++ done ++ tail)[(P ++ done).length]? = some e := by
      rw [List.getElem?_append_right le_rfl, Nat.sub_self, ← List.head?_eq_getElem?, head]
    have value := termOf_of_getElem? (Replica.getElem?_of_isPrefix inside atEnd)
    rw [show ((P ++ done).length : Int) + 1 = index by omega] at value
    exact differs value

theorem merge_eq (rf : Raft n C) (args : AppendEntryArgs C) :
    ∃ logs persister, rf.merge args = { rf with logs := logs, persister := persister } ∧
      (Durable rf → Durable (rf.merge args)) := by
  unfold Raft.merge
  cases rf.scan (args.prevLogIndex + 1) args.entries with
  | agrees => exact ⟨rf.logs, rf.persister, rfl, id⟩
  | extend rest => exact ⟨_, _, rfl, fun _ => durable_persist _⟩
  | conflict index rest => exact ⟨_, _, rfl, fun _ => durable_persist _⟩

/-- An accepted request stores a stretch of the leader's book. -/
theorem NodeRel.merge (rel : NodeRel A s rf) (inv : Replica.Inv LogEntry.term A)
    (follows : rf.state = .follower) (now : rf.currentTerm = args.term)
    (inBook : P ++ args.entries <+: A.book args.term) (length : (P.length : Int) = args.prevLogIndex)
    (last : termOf P P.length = args.prevLogTerm) (accepted : rf.prevMatches args = true) :
    ∃ B, Moved LogEntry.term s A B ∧ NodeRel B s (rf.merge args) ∧
      P ++ args.entries <+: (rf.merge args).fullLog ∧
      args.prevLogIndex + args.entries.length ≤ (B.ack s args.term : Int) := by
  obtain ⟨above, reach, _⟩ := rel.shaped.prevMatches_iff.mp accepted
  have shaped := rel.shaped.merge above reach
  have full := rel.fullLog_merge inv inBook length last accepted
  have stretch := List.prefix_iff_eq_take.mp inBook
  have size := inBook.length_le
  have role : (A.peer s).role = .follower := by rw [rel.role, follows]; rfl
  have term : (A.peer s).term = args.term := rel.term.trans now
  have step : Replica.Step LogEntry.term s A _ := .accept role (term.symm ▸ size)
  have kept := inv.committed_prefix_adopt rel.committed now.le (List.take_prefix _ rf.fullLog)
    (P ++ args.entries).length
  rw [← stretch, ← full] at kept
  refine ⟨_, step.moved, ?_, full ▸ Replica.prefix_adopt _ _, ?_⟩
  · obtain ⟨logs, persister, same, durable⟩ := merge_eq rf args
    have durable' := durable rel.durable
    rw [same] at shaped durable' kept full ⊢
    refine rel.setLog (step.inv_grows inv).2 rfl shaped durable' ?_ kept
    rw [full]
    simp only [Replica.State.setAck, Replica.State.setPeer, Function.update_self]
    rw [term, ← stretch, rel.log, follows, now]
    rfl
  · simp only [Replica.State.setAck, term, Function.update_self]
    rw [List.length_append]
    omega

/-- A conflict lies above everything the peer has committed. -/
theorem NodeRel.conflict_above (rel : NodeRel A s rf) (inv : Replica.Inv LogEntry.term A)
    (now : rf.currentTerm = args.term) (inBook : P ++ args.entries <+: A.book args.term)
    (length : (P.length : Int) = args.prevLogIndex) (last : termOf P P.length = args.prevLogTerm)
    (accepted : rf.prevMatches args = true) {index : Int} {rest : List (LogEntry C)}
    (scanned : rf.scan (args.prevLogIndex + 1) args.entries = .conflict index rest) :
    rf.commitIndex < index := by
  obtain ⟨above, reach, _⟩ := rel.shaped.prevMatches_iff.mp accepted
  have lastIndex := rel.shaped.lastIndex_eq
  have nonneg := rel.shaped.base_nonneg
  obtain ⟨done, rest', _, _, stops⟩ :=
    rel.shaped.scan_cases args.entries (args.prevLogIndex + 1) (by omega) (by omega)
  have merged := rel.shaped.fullLog_merge above reach
  rw [scanned] at stops merged
  obtain ⟨rfl, found, inside, e, head, differs⟩ := stops
  by_contra below
  have kept := inv.committed_prefix_adopt rel.committed now.le (List.take_prefix _ rf.fullLog)
    (P ++ args.entries).length
  rw [← List.prefix_iff_eq_take.mp inBook, ← rel.fullLog_merge inv inBook length last accepted,
    merged] at kept
  obtain ⟨f, atFull, value⟩ := entry_of_inside (show 0 < index by omega)
    (show index ≤ rf.fullLog.length by omega)
  have settled : (rf.fullLog.take rf.commitIndex.toNat)[(index - 1).toNat]? = some f := by
    rw [List.getElem?_take_of_lt (by omega), atFull]
  have size : (rf.fullLog.take (index - 1).toNat).length = (index - 1).toNat := by
    rw [List.length_take]; omega
  have new := Replica.getElem?_of_isPrefix kept settled
  rw [List.getElem?_append_right size.le, size, Nat.sub_self, ← List.head?_eq_getElem?, head] at new
  cases new
  exact differs value

end DistSys.Raft
