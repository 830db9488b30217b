import DistSys.Raft.CommitRule

namespace DistSys.Raft

open Replica (Grows Committed Moved)

variable {n : Nat} {C : Type} [Inhabited C] {A B : World n C} {c c₁ c₂ : Cluster n C}
variable {as bs : List (Action n C)} {s t : Fin n} {N : Int}

/-- State machine safety: whatever two incarnations of any two servers send on
their `applyCh` at one index is the same command of the same term. -/
theorem state_machine_safety {x y : C} {index termX termY : Int}
    (run : Cluster.after n C as = some c) (first : (s, .command x index termX) ∈ c.delivered)
    (second : (t, .command y index termY) ∈ c.delivered) : x = y ∧ termX = termY := by
  obtain ⟨A, rel⟩ := Cluster.reached run
  obtain ⟨_, P, settledP, lengthP, lastP⟩ := rel.delivered _ first
  obtain ⟨_, Q, settledQ, lengthQ, lastQ⟩ := rel.delivered _ second
  have same : P = Q := by
    rcases rel.inv.committed_comparable settledP settledQ with part | part
    · exact part.eq_of_length (by omega)
    · exact (part.eq_of_length (by omega)).symm
  rw [same, lastQ] at lastP
  cases lastP
  exact ⟨rfl, rfl⟩

/-- Servers 0 and 1 have both sent the first command. -/
def applyRun : List (Action 3 Nat) :=
  storeRun ++ [.appendReply 0 1 1, .applySend 0, .applySend 0, .applyResume 0, .broadcast 0,
    .replicate 0 2, .handleAppend 2, .applySend 1]

theorem applyRun_runs : (Cluster.after 3 Nat applyRun).isSome = true := by decide

theorem state_machine_safety_first :
    (0, .command 7 1 1) ∈ (Cluster.final applyRun applyRun_runs).delivered ∧
      (1, .command 7 1 1) ∈ (Cluster.final applyRun applyRun_runs).delivered ∧ (7 = 7 ∧ (1 : Int) = 1) := by
  have first : (0, .command 7 1 1) ∈ (Cluster.final applyRun applyRun_runs).delivered := by decide
  have second : (1, .command 7 1 1) ∈ (Cluster.final applyRun applyRun_runs).delivered := by decide
  exact ⟨first, second, state_machine_safety (Cluster.after_final applyRun applyRun_runs) first second⟩

theorem NodeRel.leader_chief {rf : Raft n C} (rel : NodeRel A s rf) (inv : Replica.Inv LogEntry.term A)
    (leads : rf.state = .leader) : A.chief rf.currentTerm = some s := by
  rw [← rel.term]
  exact inv.leader_chief (by rw [rel.role, leads]; rfl)

/-- Election safety: a term has one leader, at whatever moments of a run it
is seen to lead. -/
theorem election_safety {p q : List (Action n C)} (atP : p <+: as) (atQ : q <+: as)
    (runP : Cluster.after n C p = some c₁) (runQ : Cluster.after n C q = some c₂)
    (leads : (c₁.server s).rf.state = .leader) (leads' : (c₂.server t).rf.state = .leader)
    (same : (c₁.server s).rf.currentTerm = (c₂.server t).rf.currentTerm) : s = t := by
  -- the history of the later moment still knows who led at the earlier one
  have agree : ∀ {u v : Cluster n C} {x y : Fin n} {ds es : List (Action n C)}, ds <+: es →
      Cluster.after n C ds = some u → Cluster.after n C es = some v →
      (u.server x).rf.state = .leader → (v.server y).rf.state = .leader →
      (u.server x).rf.currentTerm = (v.server y).rf.currentTerm → x = y := by
    intro u v x y ds es part runU runV leadsX leadsY terms
    obtain ⟨u', _, rfl, first, rest⟩ := exec_split part runV
    cases runU.symm.trans first
    obtain ⟨A, rel⟩ := Cluster.reached runU
    obtain ⟨B, grows, rel'⟩ := rel.exec rest
    have chief := grows.chief _ _ ((rel.server x).node.leader_chief rel.inv leadsX)
    rw [terms, (rel'.server y).node.leader_chief rel'.inv leadsY] at chief
    cases chief
    rfl
  rcases List.prefix_or_prefix_of_prefix atP atQ with part | part
  · exact agree part runP runQ leads leads' same
  · exact (agree part runQ runP leads' leads same.symm).symm

theorem electRun_runs : (Cluster.after 3 Nat electRun).isSome = true := by decide

theorem election_safety_once :
    ((Cluster.final electRun electRun_runs).server 0).rf.state = .leader ∧
      ((Cluster.final storeRun storeRun_runs).server 0).rf.state = .leader ∧ (0 : Fin 3) = 0 :=
  ⟨by decide, by decide, election_safety (List.prefix_append _ _) List.prefix_rfl
    (Cluster.after_final electRun electRun_runs) (Cluster.after_final storeRun storeRun_runs)
    (by decide) (by decide) (by decide)⟩

/-- Leader completeness with compaction: once a leader has committed up to `N`,
every leader of a later term reaches `N`, and every entry up to `N` that the
first leader still stored when it committed is either below the base of the
later leader or stored by it as well. -/
theorem leader_completeness {a : Action n C} (run : Cluster.after n C as = some c)
    (commits : CommitsAt c a s N) (next : c.step a = some c₁)
    (rest : exec Cluster.step c₁ bs = some c₂) (leads : (c₂.server t).rf.state = .leader)
    (later : (c.server s).rf.currentTerm < (c₂.server t).rf.currentTerm) :
    N ≤ (c₂.server t).rf.lastIndex ∧
      ∀ k, (c.server s).rf.lastIncludedIndex < k → k ≤ N → ∃ e, (c.server s).rf.entryAt k = some e ∧
        (k ≤ (c₂.server t).rf.lastIncludedIndex ∨ (c₂.server t).rf.entryAt k = some e) := by
  obtain ⟨A, rel⟩ := Cluster.reached run
  obtain ⟨_, _, inside, settled, _⟩ := rel.commitsAt commits
  obtain ⟨_, A', moved, rel'⟩ := rel.step next
  obtain ⟨B, grows, rel₂⟩ := rel'.exec rest
  have old := (rel.server s).node
  have new := (rel₂.server t).node
  have settled' := settled.grows ((moved.inv_grows rel.inv).2.trans grows)
  have part := rel₂.inv.committed_prefix_book settled' (new.leader_chief rel₂.inv leads) later.le
  rw [new.leader_book rel₂.inv leads] at part
  rw [old.shaped.lastIndex_eq] at inside
  have bound := part.length_le
  rw [List.length_take] at bound
  refine ⟨by rw [new.shaped.lastIndex_eq]; omega, fun k above below => ?_⟩
  have base := old.shaped.base_nonneg
  obtain ⟨e, found, _⟩ := entry_of_inside (show 0 < k by omega)
    (show k ≤ (c.server s).rf.fullLog.length by omega)
  refine ⟨e, by rw [old.shaped.entryAt_eq above, found], ?_⟩
  by_cases compacted : k ≤ (c₂.server t).rf.lastIncludedIndex
  · exact Or.inl compacted
  · right
    rw [new.shaped.entryAt_eq (not_le.mp compacted)]
    refine Replica.getElem?_of_isPrefix part ?_
    rw [List.getElem?_take_of_lt (by omega), found]

/-- Server 2 wins term 2 after server 0 has committed in term 1. -/
def laterRun : List (Action 3 Nat) :=
  [.electionTimeout 2, .election 2, .requestVote 2 0 1, .handleVote 2, .requestVoteReply 2 0 1 2,
    .countVote 2 0 1]

theorem laterRun_runs : (exec Cluster.step (((Cluster.final storeRun storeRun_runs).step
    (.appendReply 0 1 1)).get storeRun_next) laterRun).isSome = true := by
  decide

theorem leader_completeness_two :
    ∃ c, exec Cluster.step (((Cluster.final storeRun storeRun_runs).step
      (.appendReply 0 1 1)).get storeRun_next) laterRun = some c ∧
      (c.server 2).rf.state = .leader ∧ 2 ≤ (c.server 2).rf.lastIndex :=
  ⟨_, (Option.some_get laterRun_runs).symm, by decide,
    (leader_completeness (Cluster.after_final storeRun storeRun_runs) storeRun_commits
      (Option.some_get storeRun_next).symm (Option.some_get laterRun_runs).symm (by decide)
      (by decide)).1⟩

/-- Log matching with compaction: if two servers store entries of the same term
at an index above both bases, they store the same entries there and below, down
to the higher base, and the term of that base is the other server's. -/
theorem log_matching {index : Int} {e f : LogEntry C} (run : Cluster.after n C as = some c)
    (aboveS : (c.server s).rf.lastIncludedIndex < index)
    (aboveT : (c.server t).rf.lastIncludedIndex < index)
    (atS : (c.server s).rf.entryAt index = some e) (atT : (c.server t).rf.entryAt index = some f)
    (same : e.term = f.term) :
    e.command = f.command ∧
      (∀ j, j ≤ index → (c.server s).rf.lastIncludedIndex < j → (c.server t).rf.lastIncludedIndex < j →
        (c.server s).rf.entryAt j = (c.server t).rf.entryAt j) ∧
      ((c.server s).rf.lastIncludedIndex < (c.server t).rf.lastIncludedIndex →
        ∃ g, (c.server s).rf.entryAt (c.server t).rf.lastIncludedIndex = some g ∧
          g.term = (c.server t).rf.lastIncludedTerm) ∧
      ((c.server t).rf.lastIncludedIndex < (c.server s).rf.lastIncludedIndex →
        ∃ g, (c.server t).rf.entryAt (c.server s).rf.lastIncludedIndex = some g ∧
          g.term = (c.server s).rf.lastIncludedTerm) := by
  obtain ⟨A, rel⟩ := Cluster.reached run
  have nodeS := (rel.server s).node
  have nodeT := (rel.server t).node
  have baseS := nodeS.shaped.base_nonneg
  have baseT := nodeT.shaped.base_nonneg
  rw [nodeS.shaped.entryAt_eq aboveS] at atS
  rw [nodeT.shaped.entryAt_eq aboveT] at atT
  have agree := (nodeS.rooted rel.inv).agree (nodeT.rooted rel.inv) atS atT same
  have entry : ∀ j, 0 < j → j ≤ index →
      (c.server s).rf.fullLog[(j - 1).toNat]? = (c.server t).rf.fullLog[(j - 1).toNat]? := by
    intro j positive below
    have left := List.getElem?_take_of_lt (l := (c.server s).rf.fullLog)
      (show (j - 1).toNat < (index - 1).toNat + 1 by omega)
    rw [← left, agree, List.getElem?_take_of_lt (by omega)]
  refine ⟨?_, ?_, ?_, ?_⟩
  · have top := entry index (by omega) le_rfl
    rw [atS, atT] at top
    cases top
    rfl
  · intro j below above above'
    rw [nodeS.shaped.entryAt_eq above, nodeT.shaped.entryAt_eq above']
    exact entry j (by omega) below
  · intro lower
    exact nodeS.shaped.entryAt_base nodeT.shaped lower (entry _ (by omega) aboveT.le)
  · intro lower
    exact nodeT.shaped.entryAt_base nodeS.shaped lower (entry _ (by omega) aboveS.le).symm

theorem log_matching_two :
    ((Cluster.final storeRun storeRun_runs).server 0).rf.entryAt 1 =
      ((Cluster.final storeRun storeRun_runs).server 2).rf.entryAt 1 := by
  have atS : ((Cluster.final storeRun storeRun_runs).server 0).rf.entryAt 2 = some ⟨8, 1⟩ := by decide
  have atT : ((Cluster.final storeRun storeRun_runs).server 2).rf.entryAt 2 = some ⟨8, 1⟩ := by decide
  have same := log_matching (Cluster.after_final storeRun storeRun_runs) (by decide) (by decide) atS atT rfl
  exact same.2.1 1 (by decide) (by decide) (by decide)

/-- The request is accepted by `AppendEntriesHandler`, which finds its first
conflict at `index`. -/
def ConflictAt (rf : Raft n C) (args : AppendEntryArgs C) (index : Int) : Prop :=
  ¬ args.term < (rf.followTerm args.term).currentTerm ∧
    (rf.followTerm args.term).prevMatches args = true ∧
    ∃ rest, (rf.followTerm args.term).scan (args.prevLogIndex + 1) args.entries = .conflict index rest

/-- No request ever sent makes a peer cut a committed entry: the conflict lies
above the commit position, so `index <= rf.commitIndex` is never true there, and
`rf.logs[:localCut]` still holds every committed entry the peer stores. -/
theorem no_committed_overwrite {args : AppendEntryArgs C} {index : Int}
    (run : Cluster.after n C as = some c) (sent : .append t s args ∈ c.requests)
    (conflict : ConflictAt (c.server s).rf args index) :
    (c.server s).rf.commitIndex < index ∧
      ∀ j, (c.server s).rf.lastIncludedIndex < j → j ≤ (c.server s).rf.commitIndex →
        ∃ e, (c.server s).rf.entryAt j = some e ∧
          slot ((c.server s).rf.logs.take (index - (c.server s).rf.lastIncludedIndex).toNat)
            (j - (c.server s).rf.lastIncludedIndex) = some e := by
  obtain ⟨A, rel⟩ := Cluster.reached run
  obtain ⟨reached, accepted, rest, scanned⟩ := conflict
  have node := (rel.server s).node
  obtain ⟨B, moved, _, node'⟩ := node.followTerm rel.inv args.term
  obtain ⟨inv, grows⟩ := moved.inv_grows rel.inv
  obtain ⟨now, _⟩ := followTerm_now reached
  obtain ⟨P, inBook, length, last⟩ := node'.accepted_book inv ((rel.requests _ sent).grows grows) accepted
  have above := node'.conflict_above inv now inBook length last accepted scanned
  rw [followTerm_commitIndex] at above
  refine ⟨above, fun j lower upper => ?_⟩
  have inside := node.commitLast
  unfold lastIndex at inside
  unfold entryAt
  rw [slot_of_nonneg (by omega), slot_of_nonneg (by omega), List.getElem?_take_of_lt (by omega)]
  exact ⟨_, List.getElem?_eq_getElem (by omega), List.getElem?_eq_getElem (by omega)⟩

/-- Server 1 wins term 2 and sends its first entry to server 0, which holds
another one from term 1. -/
def conflictRun : List (Action 3 Nat) :=
  electRun ++ [.start 0 7, .electionTimeout 1, .election 1, .requestVote 1 0 2, .handleVote 1,
    .requestVoteReply 1 0 2 1, .countVote 1 0 2, .start 1 9, .broadcast 1, .replicate 1 0]

theorem conflictRun_runs : (Cluster.after 3 Nat conflictRun).isSome = true := by decide

theorem no_committed_overwrite_first :
    .append 1 0 ⟨2, 1, 0, 0, [⟨9, 2⟩], 0, 0⟩ ∈ (Cluster.final conflictRun conflictRun_runs).requests ∧
      ((Cluster.final conflictRun conflictRun_runs).server 0).rf.commitIndex < 1 := by
  have sent : .append 1 0 ⟨2, 1, 0, 0, [⟨9, 2⟩], 0, 0⟩ ∈
      (Cluster.final conflictRun conflictRun_runs).requests := by
    decide
  have conflict : ConflictAt ((Cluster.final conflictRun conflictRun_runs).server 0).rf
      ⟨2, 1, 0, 0, [⟨9, 2⟩], 0, 0⟩ 1 :=
    ⟨by decide, by decide, [⟨9, 2⟩], by decide⟩
  have run := Cluster.after_final conflictRun conflictRun_runs
  exact ⟨sent, (no_committed_overwrite run sent conflict).1⟩

end DistSys.Raft
