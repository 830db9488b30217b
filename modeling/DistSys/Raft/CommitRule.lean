import DistSys.Raft.Simulation
import Mathlib.Algebra.GroupWithZero.Nat

namespace DistSys.Raft

open Replica (Grows Committed Moved)

variable {n : Nat} {C : Type} {A : World n C} {c c' : Cluster n C} {rf : Raft n C}
variable {s server : Fin n} {as : List (Action n C)} {N : Int}

theorem applyCommittedEntries_commitIndex (rf : Raft n C) :
    rf.applyCommittedEntries.1.commitIndex = rf.commitIndex := by
  obtain ⟨_, node⟩ := applyCommittedEntries_node rf
  rw [node]

theorem advanceCommitIndexLocked_commit
    (changed : rf.advanceCommitIndexLocked.1.commitIndex ≠ rf.commitIndex) :
    rf.commitCandidate rf.lastIndex (rf.lastIndex - rf.commitIndex).toNat =
      some rf.advanceCommitIndexLocked.1.commitIndex := by
  unfold advanceCommitIndexLocked at changed ⊢
  split at changed
  next => exact absurd rfl changed
  next leads =>
    rw [if_neg leads]
    split at changed
    next => exact absurd rfl changed
    next M found =>
      rw [found]
      exact congrArg some (applyCommittedEntries_commitIndex { rf with commitIndex := M }).symm

/-- The commit position moves only for a leader, in the term of the call, to
an index that the search found. -/
theorem appendEntriesReply_commit {term : Int} {args : AppendEntryArgs C} {reply : AppendEntryReply}
    (changed : (rf.appendEntriesReply server term args reply).1.commitIndex ≠ rf.commitIndex) :
    rf.state = .leader ∧ term = rf.currentTerm ∧ reply.success = true ∧
      (rf.acknowledge server (args.prevLogIndex + args.entries.length)).commitCandidate rf.lastIndex
        (rf.lastIndex - rf.commitIndex).toNat =
          some (rf.appendEntriesReply server term args reply).1.commitIndex := by
  unfold appendEntriesReply at changed ⊢
  split at changed
  next => exact absurd rfl changed
  next notAhead =>
    rw [if_neg notAhead]
    split at changed
    next => exact absurd rfl changed
    next running =>
      rw [if_neg running]
      simp only [not_or, not_not] at running
      split at changed
      next success =>
        rw [if_pos success]
        exact ⟨running.1, running.2, success, advanceCommitIndexLocked_commit changed⟩
      next => exact absurd rfl changed

theorem appendReply_cases {i k : Nat} (next : c.appendReply s i k = some c') :
    ∃ r call reply t u args, (c.server s).replicators[i]? = some r ∧
      c.replies[k]? = some (call, .append reply) ∧ c.requests[call]? = some (.append t u args) ∧
      r.pc = .awaitAppend call ∧
      (c'.server s).rf = ((c.server s).rf.appendEntriesReply r.server r.term args reply).1 := by
  unfold Cluster.appendReply at next
  simp only at next
  split at next
  next r call reply found answered =>
    split at next
    next t u args sent =>
      split at next
      next waits =>
        cases next
        refine ⟨r, call, reply, t, u, args, found, answered, sent, waits, ?_⟩
        rw [setServer_self]
        rfl
      next => cases next
    next => cases next
  next => cases next

variable [Inhabited C]

/-- Action `a` in state `c` runs `advanceCommitIndexLocked` at server `s`, which
sets `commitIndex` to `N`; that function is called from nowhere else. -/
def CommitsAt (c : Cluster n C) (a : Action n C) (s : Fin n) (N : Int) : Prop :=
  ∃ i k c', a = .appendReply s i k ∧ c.step a = some c' ∧ (c'.server s).rf.commitIndex = N ∧
    N ≠ (c.server s).rf.commitIndex

/-- A committing leader has its log up to the new position stored by a
majority, and that prefix is committed in the world. -/
theorem ClusterRel.commitsAt {a : Action n C} (rel : ClusterRel c A) (commits : CommitsAt c a s N) :
    (c.server s).rf.state = .leader ∧ (c.server s).rf.commitIndex < N ∧
      N ≤ (c.server s).rf.lastIndex ∧
      Committed LogEntry.term A (c.server s).rf.currentTerm ((c.server s).rf.fullLog.take N.toNat) ∧
      ∃ Q : Finset (Fin n), Majority Q ∧ s ∈ Q ∧ ∀ v ∈ Q, N ≤ A.ack v (c.server s).rf.currentTerm := by
  obtain ⟨i, k, c', rfl, next, value, changed⟩ := commits
  obtain ⟨r, call, reply, t, u, args, found, answered, sent, waits, rf'⟩ := appendReply_cases next
  rw [rf'] at value
  rw [← value] at changed
  obtain ⟨leads, now, success, search⟩ := appendEntriesReply_commit changed
  rw [value] at search
  have old := (rel.server s).replicators r (List.mem_of_getElem? found)
  obtain ⟨args', sent', same⟩ := old.waiting call waits
  rw [sent] at sent'
  cases sent'
  have stored := (rel.replies _ (List.mem_of_getElem? answered)).2 success s r.server args sent
  rw [same, now] at stored
  have node := (rel.server s).node.acknowledge stored
  obtain ⟨lower, upper, own, enough⟩ := commitCandidate_some search
  have further : (c.server s).rf.commitIndex < N := by
    have inside := (rel.server s).node.commitLast
    omega
  exact ⟨leads, further, upper, node.settled_of_replicas rel.inv leads further upper own enough,
    node.replicated rel.inv leads further upper enough⟩

/-- What a member has stored of a book is what its server held at some moment
of the run, in the term of that book. -/
def Backed (as : List (Action n C)) (A : World n C) : Prop :=
  ∀ v T, 0 < A.ack v T → ∃ bs u, bs <+: as ∧ Cluster.after n C bs = some u ∧
    (u.server v).rf.currentTerm = T ∧ (A.book T).take (A.ack v T) <+: (u.server v).rf.fullLog

theorem Backed.step {B : World n C} {a : Action n C} (backed : Backed as A)
    (inv : Replica.Inv LogEntry.term A) (run : Cluster.after n C (as ++ [a]) = some c')
    (moved : Moved LogEntry.term s A B) (rel : ClusterRel c' B) : Backed (as ++ [a]) B := by
  intro v T positive
  rcases moved.stored v T with same | ⟨rfl, now, part⟩
  · rw [same] at positive ⊢
    obtain ⟨bs, u, before, reached, term, part⟩ := backed v T positive
    refine ⟨bs, u, before.trans (List.prefix_append _ _), reached, term, ?_⟩
    have grows := (moved.inv_grows inv).2
    rwa [Replica.take_eq_of_isPrefix (grows.book T) (inv.ack_length v T)]
  · refine ⟨as ++ [a], c', List.prefix_rfl, run, ?_, ?_⟩
    · rw [now, ← (rel.server v).node.term]
    · rwa [← (rel.server v).node.log]

theorem Cluster.reached_backed (run : Cluster.after n C as = some c) :
    ∃ A, ClusterRel c A ∧ Backed as A := by
  refine exec_history (P := fun bs u => ∃ A, ClusterRel u A ∧ Backed bs A) ?_ ?_ run
  · exact ⟨_, ClusterRel.initial, fun v T positive => absurd positive (lt_irrefl 0)⟩
  · rintro bs u a v before ⟨A, rel, backed⟩ next
    obtain ⟨s, B, moved, rel'⟩ := rel.step next
    exact ⟨B, rel', backed.step rel.inv (exec_concat before next) moved rel'⟩

/-- Whenever a leader commits up to `N`, a strict majority of the servers, the
leader among them, held its log up to `N` at some moment of the run so far
while they were in its term. -/
theorem commit_rule_sound {a : Action n C} (run : Cluster.after n C as = some c)
    (commits : CommitsAt c a s N) :
    (c.server s).rf.state = .leader ∧ N ≤ (c.server s).rf.lastIndex ∧
      ∃ Q : Finset (Fin n), n < 2 * Q.card ∧ s ∈ Q ∧ ∀ v ∈ Q, ∃ bs u, bs <+: as ∧
        Cluster.after n C bs = some u ∧
        (u.server v).rf.currentTerm = (c.server s).rf.currentTerm ∧
        (c.server s).rf.fullLog.take N.toNat <+: (u.server v).rf.fullLog := by
  obtain ⟨A, rel, backed⟩ := Cluster.reached_backed run
  obtain ⟨leads, further, inside, _, Q, major, own, stored⟩ := rel.commitsAt commits
  have node := (rel.server s).node
  have nonneg := node.commit_nonneg
  have book := node.leader_book rel.inv leads
  refine ⟨leads, inside, Q, ?_, own, fun v member => ?_⟩
  · unfold Majority at major
    rwa [Fintype.card_fin] at major
  · have reached := stored v member
    obtain ⟨bs, u, before, moment, term, part⟩ := backed v (c.server s).rf.currentTerm (by omega)
    refine ⟨bs, u, before, moment, term, List.IsPrefix.trans ?_ part⟩
    rw [book]
    exact List.take_prefix_take_left (by omega)

-- The runs on fixed inputs, here and in later modules, all have three servers.
instance threeServers : NeZero 3 := Nat.instNeZeroSucc

/-- Server 0 wins term 1 with the vote of server 1. -/
def electRun : List (Action 3 Nat) :=
  [.electionTimeout 0, .election 0, .requestVote 0 0 1, .handleVote 0, .requestVoteReply 0 0 1 0,
    .countVote 0 0 1]

/-- Two commands of that leader are stored by server 2, which has answered. -/
def storeRun : List (Action 3 Nat) :=
  electRun ++ [.start 0 7, .start 0 8, .broadcast 0, .replicate 0 1, .handleAppend 1]

theorem storeRun_runs : (Cluster.after 3 Nat storeRun).isSome = true := by decide

theorem storeRun_next :
    ((Cluster.final storeRun storeRun_runs).step (.appendReply 0 1 1)).isSome = true := by
  decide

theorem storeRun_commits :
    CommitsAt (Cluster.final storeRun storeRun_runs) (.appendReply 0 1 1) 0 2 :=
  ⟨1, 1, _, rfl, (Option.some_get storeRun_next).symm, by decide, by decide⟩

theorem commit_rule_sound_two :
    ∃ c, Cluster.after 3 Nat storeRun = some c ∧ CommitsAt c (.appendReply 0 1 1) 0 2 ∧
      (c.server 0).rf.state = .leader ∧ ∃ Q : Finset (Fin 3), 3 < 2 * Q.card ∧ 0 ∈ Q := by
  obtain ⟨leads, _, Q, major, own, _⟩ :=
    commit_rule_sound (Cluster.after_final storeRun storeRun_runs) storeRun_commits
  exact ⟨_, Cluster.after_final storeRun storeRun_runs, storeRun_commits, leads, Q, major, own⟩

end DistSys.Raft
