import DistSys.Raft.NodeSnapshot
import DistSys.Raft.Outcome

namespace DistSys.Raft

open Replica (Grows Committed Moved)

variable {n : Nat} {C : Type} {A B : World n C} {c c' : Cluster n C}
variable {requests : List (Request n C)} {s peer : Fin n} {server : Server n C} {ballot : Ballot n}
variable {term : Int} {pc : VotePc} {b : Nat}

/-- A goroutine of the ballot moves on. -/
theorem BallotRel.move (rel : BallotRel A requests s term ballot) (running : ballot.peer peer ≠ .ended)
    {received : Nat} (finished : Bool)
    (count : received = 1 + (Finset.univ.filter fun j =>
      (Raft.setPeer ballot peer pc).peer j = .counted).card)
    (granted : pc = .granted ∨ pc = .counted → A.vote peer ballot.term = some s)
    (waiting : ∀ call, pc = .waiting call →
      ∃ args, requests[call]? = some (.vote s peer args) ∧ args.term = ballot.term) :
    BallotRel A requests s term { Raft.setPeer ballot peer pc with
      voteReceived := received, finished := finished } := by
  have away : s ≠ peer := by
    rintro rfl
    exact running rel.away
  constructor
  case past => exact rel.past
  case self => exact rel.self
  case away =>
    simp only [Raft.setPeer, Function.update_of_ne away]
    exact rel.away
  case count => exact count
  case granted =>
    intro j state
    by_cases here : j = peer
    · subst here
      simp only [Raft.setPeer, Function.update_self] at state
      exact granted state
    · simp only [Raft.setPeer, Function.update_of_ne here] at state
      exact rel.granted j state
  case waiting =>
    intro j call state
    by_cases here : j = peer
    · subst here
      simp only [Raft.setPeer, Function.update_self] at state
      exact waiting call state
    · simp only [Raft.setPeer, Function.update_of_ne here] at state
      exact rel.waiting j call state

theorem BallotRel.setPeer (rel : BallotRel A requests s term ballot)
    (waits : ballot.peer peer ≠ .counted) (running : ballot.peer peer ≠ .ended) (open_ : pc ≠ .counted)
    (granted : pc = .granted → A.vote peer ballot.term = some s)
    (waiting : ∀ call, pc = .waiting call →
      ∃ args, requests[call]? = some (.vote s peer args) ∧ args.term = ballot.term) :
    BallotRel A requests s term (Raft.setPeer ballot peer pc) := by
  refine rel.move running ballot.finished (rel.count.trans ?_)
    (fun state => granted (state.resolve_right open_)) waiting
  congr 2
  refine Finset.filter_congr fun j _ => ?_
  by_cases here : j = peer
  · subst here
    simp only [Raft.setPeer, Function.update_self, waits, open_]
  · simp only [Raft.setPeer, Function.update_of_ne here]

/-- A granted vote is counted once. -/
theorem BallotRel.countVote (rel : BallotRel A requests s term ballot)
    (granted : ballot.peer peer = .granted) (finished : Bool) :
    BallotRel A requests s term { Raft.setPeer ballot peer .counted with
      voteReceived := ballot.voteReceived + 1, finished := finished } := by
  have split : (Finset.univ.filter fun j => (Raft.setPeer ballot peer .counted).peer j = .counted) =
      insert peer (Finset.univ.filter fun j => ballot.peer j = .counted) := by
    ext j
    simp only [Finset.mem_filter, Finset.mem_univ, true_and, Finset.mem_insert]
    by_cases here : j = peer
    · subst here
      simp [Raft.setPeer]
    · simp [Raft.setPeer, here]
  have fresh : peer ∉ Finset.univ.filter fun j => ballot.peer j = .counted := by
    simp [granted]
  have total := rel.count
  refine rel.move (by rw [granted]; rintro ⟨⟩) finished ?_
    (fun _ => rel.granted peer (Or.inl granted)) (fun _ is => by cases is)
  rw [split, Finset.card_insert_of_notMem fresh]
  omega

/-- Votes counted beyond half of the cluster are those of a majority. -/
theorem BallotRel.majority (rel : BallotRel A requests s term ballot)
    (enough : ¬ ballot.voteReceived ≤ n / 2) :
    ∃ Q : Finset (Fin n), Majority Q ∧ ∀ v ∈ Q, A.vote v ballot.term = some s := by
  have away : s ∉ Finset.univ.filter fun j => ballot.peer j = .counted := by
    simp [rel.away]
  refine ⟨insert s (Finset.univ.filter fun j => ballot.peer j = .counted), ?_, ?_⟩
  · have total := rel.count
    unfold Majority
    rw [Finset.card_insert_of_notMem away, Fintype.card_fin]
    omega
  · intro v member
    rcases Finset.mem_insert.mp member with rfl | counted
    · exact rel.self
    · exact rel.granted v (Or.inr (Finset.mem_filter.mp counted).2)

variable [Inhabited C]

/-- One member of the world has moved, and the cluster is what it became. -/
def Simulated (A : World n C) (c' : Cluster n C) : Prop :=
  ∃ s B, Moved LogEntry.term s A B ∧ ClusterRel c' B

/-- A peer acts on its own and sends nothing. -/
theorem ClusterRel.act {rf' : Raft n C} (rel : ClusterRel c A) (moved : Moved LogEntry.term s A B)
    (node : NodeRel B s rf') (further : (c.server s).rf.commitIndex ≤ rf'.commitIndex) :
    ServerRel B c.requests s { c.server s with rf := rf' } :=
  (rel.server s).act (moved.inv_grows rel.inv).2 node further

theorem ServerRel.counters (rel : ServerRel A requests s server) (elections broadcasts : Nat) :
    ServerRel A requests s { server with elections := elections, broadcasts := broadcasts } :=
  ⟨rel.node, rel.ballots, rel.replicators, rel.installs, rel.batch, rel.service⟩

theorem ServerRel.setBallot (rel : ServerRel A requests s server)
    (new : BallotRel A requests s server.rf.currentTerm ballot) :
    ServerRel A requests s (server.setBallot b ballot) := by
  refine ⟨rel.node, fun other member => ?_, rel.replicators, rel.installs, rel.batch, rel.service⟩
  rcases List.mem_or_eq_of_mem_set member with old | rfl
  · exact rel.ballots other old
  · exact new

theorem ClusterRel.electionTimeout (rel : ClusterRel c A) (next : c.electionTimeout s = some c') :
    Simulated A c' := by
  cases outcome_of_step (a := .electionTimeout s) next
  exact ⟨s, A, Moved.refl s A, rel.setServer (Moved.refl s A)
    ((rel.server s).counters _ (c.server s).broadcasts)⟩

theorem ClusterRel.election (rel : ClusterRel c A) (next : c.election s = some c') :
    Simulated A c' := by
  cases outcome_of_step (a := .election s) next
  obtain ⟨B, moved, node, vote⟩ := (rel.server s).node.election rel.inv
  have new := (rel.act moved node le_rfl).counters ((c.server s).elections - 1) (c.server s).broadcasts
  refine ⟨s, B, moved, rel.setServer moved
    ⟨new.node, fun ballot member => ?_, new.replicators, new.installs, new.batch, new.service⟩⟩
  rcases List.mem_append.mp member with old | last
  · exact new.ballots ballot old
  · rw [List.mem_singleton.mp last]
    constructor
    case past => exact le_rfl
    case self => exact vote
    case away => exact if_pos rfl
    case count =>
      have none : (Finset.univ.filter fun j : Fin n =>
          (if j = s then VotePc.ended else .ready) = .counted) = ∅ := by
        refine Finset.filter_eq_empty_iff.mpr fun j _ => ?_
        split <;> exact VotePc.noConfusion
      simp only [none, Finset.card_empty]
    case granted =>
      intro j state
      simp only at state
      split at state <;> simp at state
    case waiting =>
      intro j call state
      simp only at state
      split at state <;> cases state

theorem ClusterRel.requestVote (rel : ClusterRel c A) (next : c.requestVote s b peer = some c') :
    Simulated A c' := by
  cases outcome_of_step (a := .requestVote s b peer) next with
  | @requestVote _ _ _ ballot found ready =>
    have old := (rel.server s).ballots ballot (List.mem_of_getElem? found)
    obtain ⟨B, moved, node, sent⟩ := (rel.server s).node.requestVote rel.inv old.past peer
    have grows := (moved.inv_grows rel.inv).2
    have new := (rel.server s).setRaft grows node le_rfl
      [.vote s peer ((c.server s).rf.requestVote ballot.term)]
    refine ⟨s, B, moved, rel.addRequest moved (new.setBallot ?_) sent⟩
    refine (old.grows grows le_rfl).setPeer (by rw [ready]; exact VotePc.noConfusion)
      (by rw [ready]; exact VotePc.noConfusion) VotePc.noConfusion VotePc.noConfusion ?_
    rintro call ⟨⟩
    exact ⟨_, List.getElem?_concat_length, rfl⟩

theorem ClusterRel.requestVoteFailed (rel : ClusterRel c A)
    (next : c.requestVoteFailed s b peer = some c') : Simulated A c' := by
  cases outcome_of_step (a := .requestVoteFailed s b peer) next with
  | @requestVoteFailed _ _ _ _ ballot found waits =>
    have old := (rel.server s).ballots ballot (List.mem_of_getElem? found)
    refine ⟨s, A, Moved.refl s A, rel.setServer (Moved.refl s A) ((rel.server s).setBallot ?_)⟩
    exact old.setPeer (by rw [waits]; exact VotePc.noConfusion)
      (by rw [waits]; exact VotePc.noConfusion) VotePc.noConfusion VotePc.noConfusion
      (fun _ => VotePc.noConfusion)

/-- The result of a vote request is positive only with a granted vote. -/
theorem NodeRel.requestVoteReply {rf : Raft n C} (rel : NodeRel A s rf)
    (inv : Replica.Inv LogEntry.term A) (reply : RequestVoteReply) :
    ∃ B, Moved LogEntry.term s A B ∧ NodeRel B s (rf.requestVoteReply reply).1 ∧
      (rf.requestVoteReply reply).1.commitIndex = rf.commitIndex ∧
      ((rf.requestVoteReply reply).2 = true → reply.voteGranted = true) := by
  unfold Raft.requestVoteReply
  split
  next ahead =>
    obtain ⟨B, moved, _, node⟩ := rel.stepBack inv ahead
    exact ⟨B, moved, node, rfl, fun absent => absurd absent (by simp)⟩
  next => exact ⟨A, Moved.refl s A, rel, rfl, fun both => (Bool.and_eq_true_iff.mp both).1⟩

theorem ClusterRel.requestVoteReply {k : Nat} (rel : ClusterRel c A)
    (next : c.requestVoteReply s b peer k = some c') : Simulated A c' := by
  cases outcome_of_step (a := .requestVoteReply s b peer k) next with
  | @requestVoteReply _ _ _ _ call ballot reply found answered waits =>
    have old := (rel.server s).ballots ballot (List.mem_of_getElem? found)
    obtain ⟨B, moved, node, commit, granted⟩ := (rel.server s).node.requestVoteReply rel.inv reply
    have grows := (moved.inv_grows rel.inv).2
    have new := rel.act moved node commit.ge
    obtain ⟨args, asked, same⟩ := old.waiting peer call waits
    have backed := (rel.replies _ (List.mem_of_getElem? answered)).2
    have old' : BallotRel B c.requests s _ ballot := new.ballots ballot (List.mem_of_getElem? found)
    refine ⟨s, B, moved, rel.setServer moved (new.setBallot ?_)⟩
    refine old'.setPeer (by rw [waits]; exact VotePc.noConfusion)
      (by rw [waits]; exact VotePc.noConfusion) ?_ ?_ ?_
    · split <;> exact VotePc.noConfusion
    · intro state
      split at state
      next yes =>
        rw [← same]
        exact grows.vote _ _ _ (backed (granted yes) s peer args asked)
      next => cases state
    · intro call state
      split at state <;> cases state

theorem ClusterRel.countVote (rel : ClusterRel c A) (next : c.countVote s b peer = some c') :
    Simulated A c' := by
  cases outcome_of_step (a := .countVote s b peer) next with
  | @counted _ _ _ ballot finished found granted =>
    have old := (rel.server s).ballots ballot (List.mem_of_getElem? found)
    exact ⟨s, A, Moved.refl s A, rel.setServer (Moved.refl s A)
      ((rel.server s).setBallot (old.countVote granted finished))⟩
  | @elected _ _ _ ballot found granted enough runs now =>
    have old := (rel.server s).ballots ballot (List.mem_of_getElem? found)
    obtain ⟨Q, major, voted⟩ := (old.countVote granted true).majority (Nat.not_le.mpr enough)
    obtain ⟨B, moved, node⟩ := (rel.server s).node.becomeLeader rel.inv runs major
      (fun v member => by rw [now]; exact voted v member)
    have new := (rel.act moved node le_rfl).counters (c.server s).elections
      ((c.server s).broadcasts + 1)
    have kept := new.ballots ballot (List.mem_of_getElem? found)
    exact ⟨s, B, moved, rel.setServer moved (new.setBallot (kept.countVote granted true))⟩

theorem ClusterRel.handleVote {call : Nat} (rel : ClusterRel c A)
    (next : c.handleVote call = some c') : Simulated A c' := by
  cases outcome_of_step (a := .handleVote call) next with
  | @handleVote s _ _ args found =>
    have request := rel.requests _ (List.mem_of_getElem? found)
    obtain ⟨B, moved, node, vote⟩ := (rel.server s).node.requestVoteHandle rel.inv request
    have commit := requestVoteHandle_commitIndex (c.server s).rf args
    refine ⟨s, B, moved, rel.addReply moved (rel.act moved node commit.ge) ?_⟩
    refine ⟨(List.getElem?_eq_some_iff.mp found).1, fun granted u j args' found' => ?_⟩
    rw [found] at found'
    cases found'
    exact vote granted

end DistSys.Raft
