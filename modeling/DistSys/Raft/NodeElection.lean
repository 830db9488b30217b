import DistSys.Raft.RelationMono

namespace DistSys.Raft

open Replica (Grows Committed Moved)

variable {n : Nat} {C : Type} [Inhabited C] {A : World n C} {s : Fin n} {rf : Raft n C} {term : Int}

theorem durable_persist (rf : Raft n C) : Durable rf.persist := Or.inl rfl

theorem NodeRel.rooted (rel : NodeRel A s rf) (inv : Replica.Inv LogEntry.term A) :
    Replica.Rooted LogEntry.term A rf.fullLog :=
  rel.log ▸ inv.log_rooted s

theorem NodeRel.termsPositive (rel : NodeRel A s rf) (inv : Replica.Inv LogEntry.term A) :
    ∀ e ∈ rf.fullLog, 0 < e.term := by
  intro e member
  rw [← rel.origin]
  exact inv.origin_lt (rel.rooted inv) member

/-- No vote is cast in a term that has not been reached. -/
theorem NodeRel.vote_none (rel : NodeRel A s rf) (inv : Replica.Inv LogEntry.term A)
    (ahead : rf.currentTerm < term) : A.vote s term = none := by
  cases vote : A.vote s term with
  | none => rfl
  | some t =>
    have reached := inv.vote_term vote
    rw [rel.term] at reached
    exact absurd ahead (not_lt.mpr reached)

/-- A peer whose world state is `⟨term, role, log⟩` and whose log, offset and
commit position are as before. -/
theorem NodeRel.transfer {B : World n C} {rf' : Raft n C} (rel : NodeRel A s rf) (grows : Grows A B)
    (peer : B.peer s = ⟨rf'.currentTerm, rf'.state.role, rf.fullLog⟩)
    (later : rf.currentTerm ≤ rf'.currentTerm)
    (vote : Voted rf'.votedFor (B.vote s rf'.currentTerm)) (durable : Durable rf')
    (me : rf'.me = rf.me) (logs : rf'.logs = rf.logs)
    (base : rf'.lastIncludedIndex = rf.lastIncludedIndex)
    (baseTerm : rf'.lastIncludedTerm = rf.lastIncludedTerm)
    (snapshot : rf'.persister.snapshot = rf.persister.snapshot)
    (commit : rf'.commitIndex = rf.commitIndex) (applied : rf'.lastApplied = rf.lastApplied)
    (matched : rf'.state = .leader → ∀ j, j ≠ s →
      rf'.matchIndex j ≤ rf'.commitIndex ∨ rf'.matchIndex j ≤ B.ack j rf'.currentTerm) :
    NodeRel B s rf' := by
  have full : rf'.fullLog = rf.fullLog := by rw [fullLog, fullLog, snapshot, logs]
  constructor
  case me => rw [me, rel.me]
  case origin => exact grows.origin.trans rel.origin
  case shaped =>
    exact ⟨logs ▸ rel.shaped.nonempty, by rw [logs, baseTerm]; exact rel.shaped.head,
      by rw [snapshot, base]; exact rel.shaped.base,
      by rw [snapshot, base, baseTerm]; exact rel.shaped.baseTerm⟩
  case durable => exact durable
  case term => rw [peer]
  case role => rw [peer]
  case log => rw [peer, full]
  case vote => exact vote
  case committed =>
    rw [full, commit]
    exact (rel.committed.grows grows).later later
  case baseApplied => rw [base, applied]; exact rel.baseApplied
  case appliedCommit => rw [applied, commit]; exact rel.appliedCommit
  case commitLast =>
    have same : rf'.lastIndex = rf.lastIndex := by rw [lastIndex, lastIndex, base, logs]
    rw [commit, same]
    exact rel.commitLast
  case matched => exact matched

theorem NodeRel.stepBack (rel : NodeRel A s rf) (inv : Replica.Inv LogEntry.term A)
    (ahead : rf.currentTerm < term) :
    ∃ B, Moved LogEntry.term s A B ∧ B.ack = A.ack ∧ NodeRel B s (rf.stepBack term) := by
  have order : (A.peer s).term < term := by rwa [rel.term]
  have step : Replica.Step LogEntry.term s A _ := .advance order
  refine ⟨_, step.moved, rfl, ?_⟩
  refine rel.transfer (step.inv_grows inv).2 ?_ ahead.le ?_ (durable_persist _) rfl rfl rfl rfl rfl
    rfl rfl ?_
  · simp only [Replica.State.setPeer, Function.update_self, rel.log]
    rfl
  · exact Or.inl ⟨rfl, rel.vote_none inv ahead⟩
  · intro leads
    cases leads

theorem NodeRel.follow (rel : NodeRel A s rf) (inv : Replica.Inv LogEntry.term A) :
    ∃ B, Moved LogEntry.term s A B ∧ B.ack = A.ack ∧ NodeRel B s { rf with state := .follower } := by
  have step : Replica.Step LogEntry.term s A _ := .stepDown
  refine ⟨_, step.moved, rfl, ?_⟩
  refine rel.transfer (step.inv_grows inv).2 ?_ le_rfl rel.vote rel.durable rfl rfl rfl rfl rfl rfl
    rfl ?_
  · simp only [Replica.State.setPeer, Function.update_self, rel.log, rel.term]
    rfl
  · intro leads
    cases leads

/-- The term handling at the head of both log RPCs leaves a follower of the
request's term, or a peer of a later term. -/
theorem NodeRel.followTerm (rel : NodeRel A s rf) (inv : Replica.Inv LogEntry.term A) (term : Int) :
    ∃ B, Moved LogEntry.term s A B ∧ B.ack = A.ack ∧ NodeRel B s (rf.followTerm term) := by
  unfold Raft.followTerm
  split
  next ahead => exact rel.stepBack inv ahead
  next =>
    split
    next => exact rel.follow inv
    next => exact ⟨A, Moved.refl s A, rfl, rel⟩

theorem NodeRel.election (rel : NodeRel A s rf) (inv : Replica.Inv LogEntry.term A) :
    ∃ B, Moved LogEntry.term s A B ∧ NodeRel B s rf.election ∧
      B.vote s rf.election.currentTerm = some s := by
  have order : (A.peer s).term < rf.currentTerm + 1 := by rw [rel.term]; omega
  have step : Replica.Step LogEntry.term s A _ := .campaign order
  have vote : ((A.setPeer s ⟨rf.currentTerm + 1, .candidate, (A.peer s).log⟩).setVote s
      (rf.currentTerm + 1) s).vote s (rf.currentTerm + 1) = some s := by
    simp only [Replica.State.setVote, Function.update_self]
  refine ⟨_, step.moved, ?_, vote⟩
  refine rel.transfer (step.inv_grows inv).2 ?_ ?_ ?_ (durable_persist _) rfl rfl rfl rfl rfl rfl
    rfl ?_
  · simp only [Replica.State.setVote, Replica.State.setPeer, Function.update_self, rel.log]
    rfl
  · change rf.currentTerm ≤ rf.currentTerm + 1
    omega
  · refine Or.inr ⟨s, ?_, vote⟩
    change (rf.me.val : Int) = s.val
    rw [rel.me]
  · intro leads
    cases leads

/-- The concrete comparison of log positions is the election comparison. -/
theorem NodeRel.upToDate (rel : NodeRel A s rf) (inv : Replica.Inv LogEntry.term A)
    {L : List (LogEntry C)} {lastLogIndex lastLogTerm : Int}
    (index : lastLogIndex = L.length) (last : lastLogTerm = termOf L L.length)
    (fresh : lastLogTerm > rf.termAt rf.lastIndex ∨
      lastLogTerm = rf.termAt rf.lastIndex ∧ lastLogIndex ≥ rf.lastIndex) :
    Replica.UpToDate LogEntry.term L rf.fullLog := by
  intro e lastFull
  have positive := rel.termsPositive inv e (List.mem_of_getLast? lastFull)
  rw [rel.shaped.termAt_eq rel.shaped.base_le_lastIndex, rel.shaped.lastIndex_eq, last, index,
    termOf_length, termOf_length, lastFull] at fresh
  simp only [Option.map_some, Option.getD_some] at fresh
  cases lastL : L.getLast? with
  | none =>
    rw [lastL] at fresh
    simp only [Option.map_none, Option.getD_none] at fresh
    omega
  | some f =>
    rw [lastL] at fresh
    simp only [Option.map_some, Option.getD_some] at fresh
    refine ⟨f, rfl, ?_⟩
    omega

theorem NodeRel.grant (rel : NodeRel A s rf) (inv : Replica.Inv LogEntry.term A) {t : Fin n}
    {L : List (LogEntry C)} (asked : A.asked t rf.currentTerm L)
    (free : rf.votedFor = -1 ∨ rf.votedFor = (t.val : Int))
    (fresh : Replica.UpToDate LogEntry.term L rf.fullLog) :
    ∃ B, Moved LogEntry.term s A B ∧ NodeRel B s (persist { rf with votedFor := (t.val : Int) }) ∧
      B.vote s rf.currentTerm = some t := by
  have asked' : A.asked t (A.peer s).term L := by rwa [rel.term]
  have free' : A.vote s (A.peer s).term = none ∨ A.vote s (A.peer s).term = some t := by
    rw [rel.term]
    rcases rel.vote with ⟨_, none⟩ | ⟨u, value, some⟩
    · exact Or.inl none
    · have same : u = t := by
        refine Fin.ext ?_
        omega
      exact Or.inr (same ▸ some)
  have fresh' : Replica.UpToDate LogEntry.term L (A.peer s).log := by rwa [rel.log]
  have step : Replica.Step LogEntry.term s A _ := .grant asked' free' fresh'
  have vote : (A.setVote s (A.peer s).term t).vote s rf.currentTerm = some t := by
    simp only [Replica.State.setVote, Function.update_self, rel.term]
  refine ⟨_, step.moved, ?_, vote⟩
  refine rel.transfer (step.inv_grows inv).2 ?_ le_rfl (Or.inr ⟨t, rfl, vote⟩) (durable_persist _)
    rfl rfl rfl rfl rfl rfl rfl ?_
  · change A.peer s = _
    rw [← rel.log]
    change A.peer s = ⟨rf.currentTerm, rf.state.role, (A.peer s).log⟩
    rw [← rel.term, ← rel.role]
  · intro leads j away
    exact rel.matched leads j away

/-- A peer in the term of the request casts at most the vote it reports. -/
theorem NodeRel.castVote (rel : NodeRel A s rf) (inv : Replica.Inv LogEntry.term A) {t : Fin n}
    {args : RequestVoteArgs} (request : RequestRel A (.vote t s args))
    (now : rf.currentTerm = args.term) (replyTerm : Int) :
    ∃ B, Moved LogEntry.term s A B ∧ NodeRel B s (rf.castVote args replyTerm).1 ∧
      ((rf.castVote args replyTerm).2.voteGranted = true → B.vote s args.term = some t) := by
  obtain ⟨candidate, L, asked, index, last⟩ := request
  unfold Raft.castVote
  simp only
  split
  next granted =>
    have fresh := rel.upToDate inv index last granted.2
    rw [← now] at asked ⊢
    rw [candidate] at granted ⊢
    obtain ⟨B, moved, node, vote⟩ := rel.grant inv asked granted.1 fresh
    exact ⟨B, moved, node, fun _ => vote⟩
  next => exact ⟨A, Moved.refl s A, rel, fun absent => absurd absent (by simp)⟩

theorem NodeRel.requestVoteHandle (rel : NodeRel A s rf) (inv : Replica.Inv LogEntry.term A)
    {t : Fin n} {args : RequestVoteArgs} (request : RequestRel A (.vote t s args)) :
    ∃ B, Moved LogEntry.term s A B ∧ NodeRel B s (rf.requestVoteHandle args).1 ∧
      ((rf.requestVoteHandle args).2.voteGranted = true → B.vote s args.term = some t) := by
  unfold Raft.requestVoteHandle
  split
  next => exact ⟨A, Moved.refl s A, rel, fun absent => absurd absent (by simp)⟩
  next notBelow =>
    split
    next ahead =>
      obtain ⟨A', first, quiet, rel'⟩ := rel.stepBack inv ahead
      obtain ⟨inv', grows⟩ := first.inv_grows inv
      obtain ⟨B, moved, node, vote⟩ := rel'.castVote inv' (request.grows grows) rfl rf.currentTerm
      exact ⟨B, moved.after first quiet, node, vote⟩
    next notAhead => exact rel.castVote inv request (by omega) rf.currentTerm

omit [Inhabited C] in
theorem castVote_commitIndex (rf : Raft n C) (args : RequestVoteArgs) (replyTerm : Int) :
    (rf.castVote args replyTerm).1.commitIndex = rf.commitIndex := by
  unfold Raft.castVote
  simp only
  split <;> rfl

omit [Inhabited C] in
theorem requestVoteHandle_commitIndex (rf : Raft n C) (args : RequestVoteArgs) :
    (rf.requestVoteHandle args).1.commitIndex = rf.commitIndex := by
  unfold Raft.requestVoteHandle
  split
  next => rfl
  next =>
    split
    next => exact castVote_commitIndex (rf.stepBack args.term) args rf.currentTerm
    next => exact castVote_commitIndex rf args rf.currentTerm

/-- Enough votes of its own term make a candidate the leader of that term. -/
theorem NodeRel.becomeLeader (rel : NodeRel A s rf) (inv : Replica.Inv LogEntry.term A)
    (runs : rf.state = .candidate) {Q : Finset (Fin n)} (major : Majority Q)
    (voted : ∀ v ∈ Q, A.vote v rf.currentTerm = some s) :
    ∃ B, Moved LogEntry.term s A B ∧ NodeRel B s rf.becomeLeader := by
  have runs' : (A.peer s).role = .candidate := by rw [rel.role, runs]; rfl
  have voted' : ∀ v ∈ Q, A.vote v (A.peer s).term = some s := by rwa [rel.term]
  have step : Replica.Step LogEntry.term s A _ := .elect runs' major voted'
  refine ⟨_, step.moved, ?_⟩
  refine rel.transfer (step.inv_grows inv).2 ?_ le_rfl rel.vote rel.durable rfl rfl rfl rfl rfl rfl
    rfl ?_
  · rw [Replica.State.crown_eq, Replica.State.lead_self, rel.log, rel.term]
    rfl
  · intro _ j away
    left
    have notMe : j ≠ rf.me := by rwa [rel.me]
    change (if j = rf.me then rf.lastIndex else rf.lastIncludedIndex) ≤ rf.commitIndex
    rw [if_neg notMe]
    exact rel.baseApplied.trans rel.appliedCommit

/-- A candidate's log position is presented as it is now. -/
theorem NodeRel.requestVote (rel : NodeRel A s rf) (inv : Replica.Inv LogEntry.term A)
    (past : term ≤ rf.currentTerm) (receiver : Fin n) :
    ∃ B, Moved LogEntry.term s A B ∧ NodeRel B s rf ∧
      RequestRel B (.vote s receiver (rf.requestVote term)) := by
  have past' : term ≤ (A.peer s).term := by rwa [rel.term]
  have step : Replica.Step LogEntry.term s A _ := .ask past'
  refine ⟨_, step.moved, rel.frame (step.inv_grows inv).2 rfl rfl, ?_, rf.fullLog, ?_, ?_, ?_⟩
  · change (rf.me.val : Int) = s.val
    rw [rel.me]
  · exact Or.inr ⟨rfl, rfl, rel.log.symm⟩
  · exact rel.shaped.lastIndex_eq
  · change rf.termAt rf.lastIndex = _
    rw [rel.shaped.termAt_eq rel.shaped.base_le_lastIndex, rel.shaped.lastIndex_eq]

end DistSys.Raft
