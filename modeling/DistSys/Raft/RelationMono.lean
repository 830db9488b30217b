import DistSys.Raft.Relation

namespace DistSys.Raft

open Replica (Grows Committed Moved)

variable {n : Nat} {C : Type} {A B : World n C} {c : Cluster n C}
variable {requests more : List (Request n C)} {s t : Fin n} {rf rf' : Raft n C}
variable {server : Server n C} {term term' : Int}

theorem SnapshotRel.grows {data : Blob C} {snapshotTerm snapshotIndex : Int}
    (rel : SnapshotRel A term data snapshotTerm snapshotIndex) (grows : Grows A B)
    (later : term ≤ term') : SnapshotRel B term' data snapshotTerm snapshotIndex :=
  ⟨(rel.committed.grows grows).later later, rel.index, rel.last⟩

theorem MessageRel.grows {msg : ApplyMsg C} (rel : MessageRel A term msg) (grows : Grows A B)
    (later : term ≤ term') : MessageRel B term' msg := by
  cases msg with
  | command command index commandTerm =>
    obtain ⟨P, settled, rest⟩ := rel
    exact ⟨P, (settled.grows grows).later later, rest⟩
  | snapshot data snapshotTerm index => exact SnapshotRel.grows rel grows later

theorem RequestRel.grows {request : Request n C} (rel : RequestRel A request) (grows : Grows A B) :
    RequestRel B request := by
  cases request with
  | vote sender receiver args =>
    obtain ⟨candidate, L, asked, rest⟩ := rel
    exact ⟨candidate, L, grows.asked _ _ _ asked, rest⟩
  | append sender receiver args =>
    obtain ⟨prev, K, part, length, settled⟩ := rel
    refine ⟨prev.imp_right fun ⟨P, inBook, rest⟩ => ⟨P, inBook.trans (grows.book _), rest⟩, ?_⟩
    exact ⟨K, part.trans (grows.book _), length, settled.grows grows⟩
  | install sender receiver args => exact SnapshotRel.grows rel grows le_rfl

theorem ReplyRel.grows {answer : Nat × Reply} (rel : ReplyRel A requests answer) (grows : Grows A B) :
    ReplyRel B (requests ++ more) answer := by
  obtain ⟨call, reply⟩ := answer
  obtain ⟨known, backed⟩ := rel
  refine ⟨by rw [List.length_append]; omega, ?_⟩
  cases reply with
  | vote reply =>
    intro granted s j args asked
    rw [List.getElem?_append_left known] at asked
    exact grows.vote _ _ _ (backed granted s j args asked)
  | append reply =>
    intro success s j args sent
    rw [List.getElem?_append_left known] at sent
    have stored := backed success s j args sent
    have monotone := grows.ack j args.term
    omega
  | install reply => trivial

theorem getElem?_append_of_some {α : Type} {xs ys : List α} {k : Nat} {x : α}
    (found : xs[k]? = some x) : (xs ++ ys)[k]? = some x :=
  Replica.getElem?_of_isPrefix (List.prefix_append xs ys) found

theorem BallotRel.grows {ballot : Ballot n} (rel : BallotRel A requests s term ballot)
    (grows : Grows A B) (later : term ≤ term') : BallotRel B (requests ++ more) s term' ballot where
  past := rel.past.trans later
  self := grows.vote _ _ _ rel.self
  away := rel.away
  count := rel.count
  granted j here := grows.vote _ _ _ (rel.granted j here)
  waiting j call here := by
    obtain ⟨args, found, same⟩ := rel.waiting j call here
    exact ⟨args, getElem?_append_of_some found, same⟩

theorem ReplicatorRel.grows {r : Replicator n} (rel : ReplicatorRel requests s r) :
    ReplicatorRel (requests ++ more) s r where
  away := rel.away
  waiting call here := by
    obtain ⟨args, found, same⟩ := rel.waiting call here
    exact ⟨args, getElem?_append_of_some found, same⟩

theorem SendingRel.grows {batch : Sending C} (rel : SendingRel A requests rf batch)
    (grows : Grows A B) (later : rf.currentTerm ≤ rf'.currentTerm)
    (further : rf.commitIndex ≤ rf'.commitIndex) : SendingRel B (requests ++ more) rf' batch where
  msgs msg member := (rel.msgs msg member).grows grows later
  lastSent := rel.lastSent.trans further
  answer call reply here := (rel.answer call reply here).grows grows

variable [Inhabited C]

/-- A peer is still what it stores when only others have moved. -/
theorem NodeRel.frame (rel : NodeRel A s rf) (grows : Grows A B) (peer : B.peer s = A.peer s)
    (vote : B.vote s = A.vote s) : NodeRel B s rf where
  me := rel.me
  origin := grows.origin.trans rel.origin
  shaped := rel.shaped
  durable := rel.durable
  term := by rw [peer]; exact rel.term
  role := by rw [peer]; exact rel.role
  log := by rw [peer]; exact rel.log
  vote := by rw [vote]; exact rel.vote
  committed := rel.committed.grows grows
  baseApplied := rel.baseApplied
  appliedCommit := rel.appliedCommit
  commitLast := rel.commitLast
  matched leads j away := by
    have monotone := grows.ack j rf.currentTerm
    have old := rel.matched leads j away
    omega

/-- A peer never goes back to an earlier term. -/
theorem NodeRel.later (rel : NodeRel A s rf) (node : NodeRel B s rf') (grows : Grows A B) :
    rf.currentTerm ≤ rf'.currentTerm := by
  rw [← rel.term, ← node.term]
  exact grows.term s

/-- A server after one of its critical sections, given what became of its
peer. -/
theorem ServerRel.setRaft (rel : ServerRel A requests s server) (grows : Grows A B)
    (node : NodeRel B s rf') (further : server.rf.commitIndex ≤ rf'.commitIndex)
    (more : List (Request n C)) : ServerRel B (requests ++ more) s { server with rf := rf' } := by
  have later := rel.node.later node grows
  constructor
  case node => exact node
  case ballots => exact fun ballot member => (rel.ballots ballot member).grows grows later
  case replicators => exact fun r member => (rel.replicators r member).grows
  case installs =>
    intro install member
    obtain ⟨known, snap⟩ := rel.installs install member
    exact ⟨by rw [List.length_append]; omega, snap.grows grows later⟩
  case batch => exact fun batch here => (rel.batch batch here).grows grows later further
  case service => exact fun data term index member =>
    (rel.service data term index member).grows grows later

theorem ServerRel.frame (rel : ServerRel A requests s server) (grows : Grows A B)
    (peer : B.peer s = A.peer s) (vote : B.vote s = A.vote s) :
    ServerRel B (requests ++ more) s server :=
  rel.setRaft grows (rel.node.frame grows peer vote) le_rfl more

theorem ServerRel.act (rel : ServerRel A requests s server) (grows : Grows A B)
    (node : NodeRel B s rf') (further : server.rf.commitIndex ≤ rf'.commitIndex) :
    ServerRel B requests s { server with rf := rf' } := by
  have new := rel.setRaft grows node further []
  rwa [List.append_nil] at new

/-- One server has moved, and what it sent is accounted for. -/
theorem ClusterRel.update {c' : Cluster n C} (rel : ClusterRel c A)
    (moved : Moved LogEntry.term s A B) (more : List (Request n C)) (newReplies : List (Nat × Reply))
    (newDelivered : List (Fin n × ApplyMsg C)) (others : ∀ t, t ≠ s → c'.server t = c.server t)
    (requests : c'.requests = c.requests ++ more) (replies : c'.replies = c.replies ++ newReplies)
    (delivered : c'.delivered = c.delivered ++ newDelivered)
    (server : ServerRel B (c.requests ++ more) s (c'.server s))
    (requestsRel : ∀ request ∈ more, RequestRel B request)
    (repliesRel : ∀ answer ∈ newReplies, ReplyRel B (c.requests ++ more) answer)
    (deliveredRel : ∀ delivery ∈ newDelivered, ∃ term, MessageRel B term delivery.2) :
    ClusterRel c' B := by
  obtain ⟨inv, grows⟩ := moved.inv_grows rel.inv
  constructor
  case inv => exact inv
  case server =>
    intro t
    rw [requests]
    by_cases here : t = s
    · subst here
      exact server
    · rw [others t here]
      obtain ⟨peer, vote⟩ := moved.frame here
      exact (rel.server t).frame grows peer vote
  case requests =>
    rw [requests]
    intro request member
    rcases List.mem_append.mp member with old | new
    · exact (rel.requests request old).grows grows
    · exact requestsRel request new
  case replies =>
    rw [requests, replies]
    intro answer member
    rcases List.mem_append.mp member with old | new
    · exact (rel.replies answer old).grows grows
    · exact repliesRel answer new
  case delivered =>
    rw [delivered]
    intro delivery member
    rcases List.mem_append.mp member with old | new
    · obtain ⟨term, known⟩ := rel.delivered delivery old
      exact ⟨term, known.grows grows le_rfl⟩
    · exact deliveredRel delivery new

omit [Inhabited C] in
theorem setServer_others (c : Cluster n C) (s : Fin n) (server : Server n C) :
    ∀ t, t ≠ s → (c.setServer s server).server t = c.server t := by
  intro t away
  simp only [Cluster.setServer, Function.update_of_ne away]

omit [Inhabited C] in
theorem setServer_self (c : Cluster n C) (s : Fin n) (server : Server n C) :
    (c.setServer s server).server s = server := by
  simp only [Cluster.setServer, Function.update_self]

theorem ClusterRel.setServer (rel : ClusterRel c A) (moved : Moved LogEntry.term s A B)
    (new : ServerRel B c.requests s server) : ClusterRel (c.setServer s server) B := by
  refine rel.update moved [] [] [] (setServer_others c s server) (List.append_nil _).symm
    (List.append_nil _).symm (List.append_nil _).symm ?_ ?_ ?_ ?_
  · rw [setServer_self, List.append_nil]
    exact new
  all_goals simp

theorem ClusterRel.addRequest {request : Request n C} (rel : ClusterRel c A)
    (moved : Moved LogEntry.term s A B) (new : ServerRel B (c.requests ++ [request]) s server)
    (sent : RequestRel B request) : ClusterRel ((c.setServer s server).addRequest request) B := by
  refine rel.update moved [request] [] [] (setServer_others c s server) rfl
    (List.append_nil _).symm (List.append_nil _).symm ?_ ?_ ?_ ?_
  · change ServerRel B _ s ((c.setServer s server).server s)
    rw [setServer_self]
    exact new
  · intro other member
    rw [List.mem_singleton.mp member]
    exact sent
  all_goals simp

theorem ClusterRel.addReply {call : Nat} {reply : Reply} (rel : ClusterRel c A)
    (moved : Moved LogEntry.term s A B) (new : ServerRel B c.requests s server)
    (sent : ReplyRel B c.requests (call, reply)) :
    ClusterRel ((c.setServer s server).addReply call reply) B := by
  refine rel.update moved [] [(call, reply)] [] (setServer_others c s server)
    (List.append_nil _).symm rfl (List.append_nil _).symm ?_ ?_ ?_ ?_
  · change ServerRel B _ s ((c.setServer s server).server s)
    rw [setServer_self, List.append_nil]
    exact new
  · simp
  · intro other member
    rw [List.mem_singleton.mp member, List.append_nil]
    exact sent
  · simp

theorem ClusterRel.deliver {msg : ApplyMsg C} (rel : ClusterRel c A)
    (moved : Moved LogEntry.term s A B)
    (new : ServerRel B c.requests s { server with service := server.service ++ [.received msg] })
    (sent : MessageRel B term msg) : ClusterRel (c.deliver s server msg) B := by
  refine rel.update moved [] [] [(s, msg)] (setServer_others c s _) (List.append_nil _).symm
    (List.append_nil _).symm rfl ?_ ?_ ?_ ?_
  · change ServerRel B _ s ((c.setServer s _).server s)
    rw [setServer_self, List.append_nil]
    exact new
  · simp
  · simp
  · intro other member
    rw [List.mem_singleton.mp member]
    exact ⟨term, sent⟩

end DistSys.Raft
