import DistSys.Raft.LogInvariant

namespace DistSys.Raft

variable {n : Nat} {C : Type}

/-- A server inside the loop of `replicateToPeer` and the peer it talks to, while
nothing else happens at either of them. -/
structure Link (n : Nat) (C : Type) where
  leader : Raft n C
  follower : Raft n C

/-- How a pass of the loop ends: with another pass, with the `return` after a
`Success` reply, or with another `return`. -/
inductive Pass (n : Nat) (C : Type)
  | again (link : Link n C)
  | success (link : Link n C)
  | returned (link : Link n C)

/-- What a pass leaves as it is. -/
structure Engaged (term : Int) (link : Link n C) : Prop where
  alive : link.leader.dead = false
  leads : link.leader.state = .leader
  now : link.leader.currentTerm = term
  reached : link.follower.currentTerm ≤ term

variable {server : Fin n} {term : Int} {link : Link n C} {rf : Raft n C}

theorem Engaged.replicate_install (engaged : Engaged term link)
    (behind : link.leader.nextIndex server ≤ link.leader.lastIncludedIndex) :
    ∃ args, link.leader.replicateToPeer server term = .installSnapshot args ∧ args.term = term ∧
      args.lastIncludedIndex = link.leader.lastIncludedIndex ∧
      args.lastIncludedTerm = link.leader.lastIncludedTerm := by
  simp only [replicateToPeer, engaged.alive, engaged.leads, engaged.now, behind, if_true, ne_eq,
    not_true_eq_false, Bool.false_eq_true, or_self, if_false]
  exact ⟨_, rfl, rfl, rfl, rfl⟩

theorem Engaged.replicate_append (engaged : Engaged term link)
    (ahead : link.leader.lastIncludedIndex < link.leader.nextIndex server) :
    ∃ args, link.leader.replicateToPeer server term = .appendEntries args ∧ args.term = term ∧
      args.prevLogIndex = link.leader.nextIndex server - 1 ∧
      args.prevLogTerm = link.leader.termAt (link.leader.nextIndex server - 1) := by
  simp only [replicateToPeer, engaged.alive, engaged.leads, engaged.now, not_le.mpr ahead, ne_eq,
    not_true_eq_false, Bool.false_eq_true, or_self, if_false]
  exact ⟨_, rfl, rfl, rfl, rfl⟩

variable [Inhabited C]

/-- The peer's side of an `InstallSnapshot` call. A snapshot that is sent on
`applyCh` comes back through `CondInstallSnapshot`. -/
def takeSnapshot (rf : Raft n C) (args : InstallSnapshotArgs C) : Raft n C × InstallSnapshotReply :=
  let (rf, reply, send) := rf.installSnapshot args
  if send then
    (({ rf with snapshotInFlight := false }.condInstallSnapshot args.lastIncludedTerm
      args.lastIncludedIndex args.data).1, reply)
  else (rf, reply)

/-- One pass of the loop of `replicateToPeer`, with the handler that answers it. -/
def pass (server : Fin n) (term : Int) (link : Link n C) : Pass n C :=
  match link.leader.replicateToPeer server term with
  | .stop => .returned link
  | .installSnapshot args =>
    let (follower, reply) := link.follower.takeSnapshot args
    let (leader, again) := link.leader.installSnapshotReply server reply
    if again then .again ⟨leader, follower⟩ else .returned ⟨leader, follower⟩
  | .appendEntries args =>
    let (follower, reply, _) := link.follower.appendEntriesHandler args
    let (leader, _, again) := link.leader.appendEntriesReply server term args reply
    if again then .again ⟨leader, follower⟩
    else if reply.success then .success ⟨leader, follower⟩
    else .returned ⟨leader, follower⟩

/-- At most `count` passes. -/
def loop (server : Fin n) (term : Int) : Nat → Link n C → Pass n C
  | 0, link => .again link
  | count + 1, link =>
    match pass server term link with
    | .again link => loop server term count link
    | ended => ended

/-- Taking a snapshot that is not behind moves the base to it, if it is ahead, and
never asks for more than the term of the request. -/
theorem takeSnapshot_spec (rf : Raft n C) {args : InstallSnapshotArgs C}
    (reached : rf.currentTerm ≤ args.term) :
    (rf.takeSnapshot args).2.term = rf.currentTerm ∧ (rf.takeSnapshot args).1.currentTerm = args.term ∧
      (args.lastIncludedIndex ≤ rf.lastIncludedIndex →
        (rf.takeSnapshot args).1.lastIncludedIndex = rf.lastIncludedIndex ∧
        (rf.takeSnapshot args).1.lastIncludedTerm = rf.lastIncludedTerm) ∧
      (rf.lastIncludedIndex < args.lastIncludedIndex →
        (rf.takeSnapshot args).1.lastIncludedIndex = args.lastIncludedIndex ∧
        (rf.takeSnapshot args).1.lastIncludedTerm = args.lastIncludedTerm) := by
  have present : (if args.term > rf.currentTerm then rf.stepBack args.term else rf).currentTerm = args.term ∧
      (if args.term > rf.currentTerm then rf.stepBack args.term else rf).lastIncludedIndex =
        rf.lastIncludedIndex ∧
      (if args.term > rf.currentTerm then rf.stepBack args.term else rf).lastIncludedTerm =
        rf.lastIncludedTerm := by
    split
    next => exact ⟨rfl, rfl, rfl⟩
    next same => exact ⟨by omega, rfl, rfl⟩
  unfold takeSnapshot installSnapshot
  rw [if_neg (by omega : ¬ args.term < rf.currentTerm)]
  generalize (if args.term > rf.currentTerm then rf.stepBack args.term else rf) = rf₁ at present ⊢
  obtain ⟨now, base, baseTerm⟩ := present
  by_cases old : args.lastIncludedIndex ≤ rf₁.lastIncludedIndex
  · simp only [old, if_true, Bool.false_eq_true, if_false]
    exact ⟨trivial, now, fun _ => ⟨base, baseTerm⟩, fun ahead => by omega⟩
  · simp only [old, if_true, if_false, condInstallSnapshot]
    exact ⟨trivial, now, fun behind => by omega, fun _ => ⟨rfl, rfl⟩⟩

/-- The leader has the term of the peer's base, unless it has compacted that far
itself. -/
def Fits (link : Link n C) : Prop :=
  link.leader.lastIncludedIndex ≤ link.follower.lastIncludedIndex →
    link.leader.termAt link.follower.lastIncludedIndex = link.follower.lastIncludedTerm

/-- A pass that sends a snapshot. The peer ignores it if its base is not below. -/
theorem Engaged.pass_install (engaged : Engaged term link) (server : Fin n)
    (behind : link.leader.nextIndex server ≤ link.leader.lastIncludedIndex) :
    ∃ next, pass server term link = .again next ∧ Engaged term next ∧
      next.leader.lastIncludedIndex = link.leader.lastIncludedIndex ∧
      next.leader.nextIndex server = link.leader.lastIncludedIndex + 1 ∧
      next.follower.lastIncludedIndex =
        max link.follower.lastIncludedIndex link.leader.lastIncludedIndex ∧
      (Fits link → Fits next) := by
  obtain ⟨args, sent, argsTerm, argsBase, argsBaseTerm⟩ := engaged.replicate_install behind
  have within : link.follower.currentTerm ≤ args.term := by
    rw [argsTerm]
    exact engaged.reached
  obtain ⟨answer, now, ignored, installed⟩ := takeSnapshot_spec link.follower within
  rw [argsBase] at ignored installed
  have goes : ¬ (link.follower.takeSnapshot args).2.term > link.leader.currentTerm := by
    rw [answer, engaged.now]
    exact not_lt.mpr engaged.reached
  refine ⟨⟨{ link.leader with
      matchIndex := Function.update link.leader.matchIndex server link.leader.lastIncludedIndex
      nextIndex := Function.update link.leader.nextIndex server (link.leader.lastIncludedIndex + 1) },
    (link.follower.takeSnapshot args).1⟩, ?_, ?_, rfl, Function.update_self .., ?_, ?_⟩
  · simp only [pass, sent, installSnapshotReply, goes, if_false, if_true]
  · exact ⟨engaged.alive, engaged.leads, engaged.now, by rw [now, argsTerm]⟩
  · rcases lt_or_ge link.follower.lastIncludedIndex link.leader.lastIncludedIndex with raised | kept
    · rw [(installed raised).1, max_eq_right raised.le]
    · rw [(ignored kept).1, max_eq_left kept]
  · intro fits _
    rcases lt_or_ge link.follower.lastIncludedIndex link.leader.lastIncludedIndex with raised | kept
    · obtain ⟨base, baseTerm⟩ := installed raised
      rw [base, baseTerm, argsBaseTerm]
      exact if_pos rfl
    · obtain ⟨base, baseTerm⟩ := ignored kept
      rw [base, baseTerm]
      exact fits kept

/-- A pass that sends entries. It succeeds at the peer's base; below it, it fails. -/
theorem Engaged.pass_append (engaged : Engaged term link) (server : Fin n)
    (ahead : link.leader.lastIncludedIndex < link.leader.nextIndex server) :
    (∃ next, pass server term link = .success next ∧
      link.follower.lastIncludedIndex < link.leader.nextIndex server) ∨
    ∃ next, pass server term link = .again next ∧ Engaged term next ∧
      next.leader.lastIncludedIndex = link.leader.lastIncludedIndex ∧
      next.leader.nextIndex server = link.leader.nextIndex server - 1 ∧
      next.follower.lastIncludedIndex = link.follower.lastIncludedIndex ∧
      (Fits link → Fits next ∧ link.follower.lastIncludedIndex + 1 ≠ link.leader.nextIndex server) := by
  obtain ⟨args, sent, argsTerm, prev, prevTerm⟩ := engaged.replicate_append ahead
  obtain ⟨base, baseTerm, _⟩ := followTerm_base link.follower args.term
  have within : link.follower.currentTerm ≤ args.term := by
    rw [argsTerm]
    exact engaged.reached
  have goes : ¬ link.follower.currentTerm > link.leader.currentTerm := by
    rw [engaged.now]
    exact not_lt.mpr engaged.reached
  have leading : ¬ (link.leader.state ≠ .leader ∨ term ≠ link.leader.currentTerm) := by
    rw [engaged.leads, engaged.now]
    simp
  rcases appendEntriesHandler_cases link.follower args with
    ⟨refused, handled⟩ | ⟨_, accepted, answer, _⟩
  · right
    refine ⟨⟨{ link.leader with
        nextIndex := Function.update link.leader.nextIndex server (link.leader.nextIndex server - 1) },
      link.follower.followTerm args.term⟩, ?_, ?_, rfl, Function.update_self .., base, ?_⟩
    · simp only [pass, sent, handled, appendEntriesReply, goes, leading, if_false, if_true,
        Bool.false_eq_true, gt_iff_lt, ahead]
    · exact ⟨engaged.alive, engaged.leads, engaged.now,
        ((followTerm_reached within).1.trans argsTerm).le⟩
    · intro fits
      refine ⟨fun above => ?_, fun here => refused ⟨within, ?_⟩⟩
      · rw [base] at above
        rw [base, baseTerm]
        exact fits above
      · -- the request asks for exactly the peer's base
        have atBase : args.prevLogIndex = (link.follower.followTerm args.term).lastIncludedIndex := by
          rw [prev, base]
          omega
        have term := fits (by omega)
        rw [prevMatches, if_neg (by omega), if_pos atBase, baseTerm, prevTerm, ← here, Int.add_sub_cancel,
          term, beq_self_eq_true]
  · left
    have ends : ∃ next, pass server term link = .success next := by
      simp only [pass, sent, answer, appendEntriesReply, goes, leading, if_false, if_true,
        Bool.false_eq_true]
      exact ⟨_, rfl⟩
    obtain ⟨next, ended⟩ := ends
    refine ⟨next, ended, ?_⟩
    unfold prevMatches at accepted
    split at accepted
    next => cases accepted
    next notBelow => omega

/-- The back-off ends at the peer's base at the latest, or with the snapshot. The
induction is on how far `nextIndex` is above the leader's base. -/
theorem Engaged.loop_succeeds (engaged : Engaged term link) (fits : Fits link)
    (clear : link.follower.lastIncludedIndex ≤ link.leader.lastIncludedIndex ∨
      link.follower.lastIncludedIndex < link.leader.nextIndex server) :
    ∃ count last, loop server term count link = .success last := by
  generalize left : (link.leader.nextIndex server - link.leader.lastIncludedIndex).toNat = m
  induction m generalizing link with
  | zero =>
    obtain ⟨next, again, engaged', base, nextIndex, follower, fits'⟩ :=
      engaged.pass_install server (by omega)
    have level : next.follower.lastIncludedIndex + 1 = next.leader.nextIndex server := by omega
    rcases engaged'.pass_append server (by omega) with
      ⟨last, ends, _⟩ | ⟨_, _, _, _, _, _, differs⟩
    · exact ⟨2, last, by simp only [loop, again, ends]⟩
    · exact absurd level (differs (fits' fits)).2
  | succ m ih =>
    rcases engaged.pass_append server (by omega) with
      ⟨last, ends, _⟩ | ⟨next, again, engaged', base, nextIndex, follower, differs⟩
    · exact ⟨1, last, by simp only [loop, ends]⟩
    · obtain ⟨fits', apart⟩ := differs fits
      obtain ⟨count, last, ends⟩ := ih engaged' fits' (by omega) (by omega)
      exact ⟨count + 1, last, by simp only [loop, again, ends]⟩

/-- The peer has compacted past the leader's base and past `nextIndex`. -/
def Stranded (server : Fin n) (link : Link n C) : Prop :=
  link.leader.lastIncludedIndex < link.follower.lastIncludedIndex ∧
    link.leader.nextIndex server ≤ link.follower.lastIncludedIndex

/-- From there the loop goes on for ever: entries below the peer's base are refused,
the snapshot is ignored, and both leave it stranded. -/
theorem Engaged.loop_stranded (engaged : Engaged term link) (stranded : Stranded server link) (count : Nat) :
    ∃ last, loop server term count link = .again last ∧ Stranded server last := by
  induction count generalizing link with
  | zero => exact ⟨link, rfl, stranded⟩
  | succ count ih =>
    obtain ⟨behind, below⟩ := stranded
    rcases lt_or_ge link.leader.lastIncludedIndex (link.leader.nextIndex server) with ahead | sends
    · rcases engaged.pass_append server ahead with
        ⟨_, _, reached⟩ | ⟨next, again, engaged', base, nextIndex, follower, _⟩
      · omega
      · obtain ⟨last, rest⟩ := ih engaged' ⟨by omega, by omega⟩
        exact ⟨last, by simpa only [loop, again] using rest⟩
    · obtain ⟨next, again, engaged', base, nextIndex, follower, _⟩ := engaged.pass_install server sends
      obtain ⟨last, rest⟩ := ih engaged' ⟨by omega, by omega⟩
      exact ⟨last, by simpa only [loop, again] using rest⟩

variable {A : World n C} {c : Cluster n C} {as : List (Action n C)} {l f : Fin n}

/-- A leader has what any peer of no later term has compacted. -/
theorem ClusterRel.fits (rel : ClusterRel c A) (leads : (c.server l).rf.state = .leader)
    (reached : (c.server f).rf.currentTerm ≤ (c.server l).rf.currentTerm) :
    Fits ⟨(c.server l).rf, (c.server f).rf⟩ := by
  intro above
  dsimp only at above ⊢
  have node := (rel.server l).node
  have peer := (rel.server f).node
  have part := rel.inv.committed_prefix_book peer.committed (node.leader_chief rel.inv leads) reached
  rw [node.leader_book rel.inv leads] at part
  have settled := peer.length_settled
  have inside : (c.server f).rf.lastIncludedIndex ≤
      ((c.server f).rf.fullLog.take (c.server f).rf.commitIndex.toNat).length := by
    have applied := peer.baseApplied
    have commit := peer.appliedCommit
    omega
  rw [node.shaped.termAt_eq above, termOf_of_isPrefix part inside,
    ← termOf_of_isPrefix (List.take_prefix _ _) inside, ← peer.shaped.termAt_eq le_rfl, termAt, if_pos rfl]

/-- From a reachable state the replication loop reaches a `Success` reply exactly if the
peer's base is not above the leader's, or is below `nextIndex`. -/
theorem replication_converges (run : Cluster.after n C as = some c)
    (leads : (c.server l).rf.state = .leader) (alive : (c.server l).rf.dead = false)
    (reached : (c.server f).rf.currentTerm ≤ (c.server l).rf.currentTerm) :
    (∃ count last, loop f (c.server l).rf.currentTerm count ⟨(c.server l).rf, (c.server f).rf⟩ = .success last) ↔
      (c.server f).rf.lastIncludedIndex ≤ (c.server l).rf.lastIncludedIndex ∨
        (c.server f).rf.lastIncludedIndex < (c.server l).rf.nextIndex f := by
  obtain ⟨A, rel⟩ := Cluster.reached run
  have engaged : Engaged (c.server l).rf.currentTerm ⟨(c.server l).rf, (c.server f).rf⟩ :=
    ⟨alive, leads, rfl, reached⟩
  constructor
  · rintro ⟨count, last, ends⟩
    by_contra blocked
    rw [not_or, not_le, not_lt] at blocked
    obtain ⟨_, again, _⟩ := engaged.loop_stranded blocked count
    rw [ends] at again
    cases again
  · exact engaged.loop_succeeds (rel.fits leads reached)

theorem replication_converges_two :
    ∃ count last, loop 2 1 count ⟨((Cluster.final storeRun storeRun_runs).server 0).rf,
      ((Cluster.final storeRun storeRun_runs).server 2).rf⟩ = .success last :=
  (replication_converges (l := 0) (f := 2) (Cluster.after_final storeRun storeRun_runs) (by decide) (by decide)
    (by decide)).mpr (by decide)

/-- Server 2 stores and applies the first command and compacts it; its answer to the
leader is lost, and the goroutine of the leader is at the head of its loop. -/
def strandRun : List (Action 3 Nat) :=
  electRun ++ [.start 0 7, .broadcast 0, .replicate 0 0, .handleAppend 1, .appendReply 0 0 1, .applySend 0,
    .applyResume 0, .replicate 0 1, .handleAppend 2, .applySend 2, .applyResume 2, .snapshot 2 1 [5],
    .replicateFailed 0 1]

theorem strandRun_runs : (Cluster.after 3 Nat strandRun).isSome = true := by decide

theorem replication_never_converges :
    ∃ c, Cluster.after 3 Nat strandRun = some c ∧ (c.server 0).rf.state = .leader ∧
      (c.server 0).rf.dead = false ∧ (c.server 2).rf.currentTerm ≤ (c.server 0).rf.currentTerm ∧
      ∀ count last, loop 2 (c.server 0).rf.currentTerm count ⟨(c.server 0).rf, (c.server 2).rf⟩ ≠
        .success last := by
  refine ⟨_, Cluster.after_final strandRun strandRun_runs, by decide, by decide, by decide, ?_⟩
  intro count last ends
  have engaged : Engaged ((Cluster.final strandRun strandRun_runs).server 0).rf.currentTerm
      ⟨((Cluster.final strandRun strandRun_runs).server 0).rf,
        ((Cluster.final strandRun strandRun_runs).server 2).rf⟩ :=
    ⟨by decide, by decide, rfl, by decide⟩
  have stranded : Stranded 2 ⟨((Cluster.final strandRun strandRun_runs).server 0).rf,
      ((Cluster.final strandRun strandRun_runs).server 2).rf⟩ := ⟨by decide, by decide⟩
  obtain ⟨_, again, _⟩ := engaged.loop_stranded stranded count
  rw [ends] at again
  cases again

end DistSys.Raft
