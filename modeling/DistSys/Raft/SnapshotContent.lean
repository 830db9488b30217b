import DistSys.Raft.OrderedDelivery
import DistSys.Raft.SnapshotOrigin

namespace DistSys.Raft

variable {n : Nat} {C : Type} [Inhabited C] {A B : World n C} {c c' : Cluster n C} {s t : Fin n}
variable {a : Action n C} {d d' : Delivery n C} {rf : Raft n C} {P : Blob C → Prop} {data : Blob C} {term index : Int}

theorem Shaped.snapshot_blob (shaped : Shaped rf) (index : Int) (bytes : List UInt8) :
    (rf.snapshot index bytes).persister.snapshot = rf.persister.snapshot ∨
      rf.lastIncludedIndex < index ∧
        (rf.snapshot index bytes).persister.snapshot = ⟨bytes, rf.fullLog.take index.toNat⟩ := by
  unfold snapshot
  split
  next => exact .inl rfl
  next valid =>
    simp only
    split
    next => exact .inl rfl
    next =>
      have above : rf.lastIncludedIndex < index := by omega
      refine .inr ⟨above, ?_⟩
      rw [← shaped.covers_append above]
      rfl

theorem Durable.make_snapshot (durable : Durable rf) (me : rf.me = s) (nonempty : rf.logs ≠ [])
    (base : 0 ≤ rf.lastIncludedIndex) : (make s rf.persister).persister.snapshot = rf.persister.snapshot :=
  (durable.saved_make me nonempty base).snapshot

/-- A server keeps its snapshot, or stores one of its service or one that its service has
received. -/
theorem Effect.snapshot_cases (effect : Effect a s d d') (node : NodeRel A s d.rf) :
    d'.rf.persister.snapshot = d.rf.persister.snapshot ∨
      (∃ index bytes, a = .snapshot s index bytes ∧ hasReceived d.service index = true ∧
        d'.rf.persister.snapshot = ⟨bytes, d.rf.fullLog.take index.toNat⟩) ∨
      ∃ term index, .received (.snapshot d'.rf.persister.snapshot term index) ∈ d.service := by
  cases effect with
  | quiet steady => exact .inl steady.snapshot
  | advance answer advances => exact .inl advances.saved.snapshot
  | offer => exact .inl rfl
  | apply => exact .inl rfl
  | resume act under => exact .inl (saved_applyResume d.rf _).snapshot
  | @compact index bytes act received =>
    rcases node.shaped.snapshot_blob index bytes with same | ⟨_, new⟩
    · exact .inl same
    · exact .inr (.inl ⟨index, bytes, act, received, new⟩)
  | @install event data term index act found =>
    simp only
    rcases condInstallSnapshot_cases d.rf term index data with ⟨_, same⟩ | ⟨_, new⟩
    · rw [same]
      exact .inl rfl
    · rw [new]
      exact .inr (.inr ⟨term, index, List.mem_of_getElem? found⟩)
  | reboot _ origin =>
    left
    rcases origin with rfl | ⟨term, rfl⟩
    · exact node.durable.make_snapshot node.me node.shaped.nonempty node.shaped.base_nonneg
    · have durable : Durable (d.rf.stepBack term) := durable_persist _
      exact durable.make_snapshot node.me node.shaped.nonempty node.shaped.base_nonneg

omit [Inhabited C] in
theorem replicateToPeer_data {server : Fin n} {args : InstallSnapshotArgs C}
    (sends : rf.replicateToPeer server term = .installSnapshot args) : args.data = rf.persister.snapshot := by
  unfold replicateToPeer at sends
  split at sends
  next => cases sends
  next =>
    simp only at sends
    split at sends
    next =>
      cases sends
      rfl
    next => cases sends

/-- A snapshot is sent from the persister of a server. -/
theorem sent_of_step {sender receiver : Fin n} {args : InstallSnapshotArgs C} (next : c.step a = some c')
    (sent : .install sender receiver args ∈ c'.requests) :
    .install sender receiver args ∈ c.requests ∨ ∃ s, args.data = (c.server s).rf.persister.snapshot := by
  cases outcome_of_step next with
  | requestVote | sentAppend =>
    rcases List.mem_append.mp sent with old | new
    · exact .inl old
    · cases List.mem_singleton.mp new
  | sentInstall _ sends =>
    rcases List.mem_append.mp sent with old | new
    · exact .inl old
    · cases List.mem_singleton.mp new
      exact .inr ⟨sender, replicateToPeer_data sends⟩
  | @applyDone _ _ answer => cases answer <;> exact .inl sent
  | _ => exact .inl sent

/-- Every snapshot that a server stores or has sent has a property. -/
structure Contents (P : Blob C → Prop) (c : Cluster n C) : Prop where
  stored : ∀ s, P (c.server s).rf.persister.snapshot
  sent : ∀ {sender receiver args}, .install sender receiver args ∈ c.requests → P args.data

omit [Inhabited C] in
theorem Contents.received (contents : Contents P c) (origin : Origin A c)
    (here : .received (.snapshot data term index) ∈ (c.server s).service) : P data := by
  obtain ⟨_, _, sent, _, rfl, _⟩ := origin.received here
  exact contents.sent sent

theorem contents_init (empty : P ⟨[], []⟩) : Contents P (init n C) :=
  ⟨fun _ => empty, nofun⟩

/-- New snapshots come from the services alone. -/
theorem Contents.step (contents : Contents P c) (accounted : Accounted A c) (next : c.step a = some c')
    (made : ∀ s index bytes, a = .snapshot s index bytes → hasReceived (c.server s).service index = true →
      P ⟨bytes, (c.server s).rf.fullLog.take index.toNat⟩) : Contents P c' where
  stored := by
    intro s
    obtain ⟨t, others, effect⟩ := accounted.rel.affects next
    by_cases here : s = t
    · subst here
      rcases effect.snapshot_cases (accounted.rel.server s).node with same | ⟨index, bytes, act, received, new⟩ |
        ⟨term, index, received⟩
      · exact same ▸ contents.stored s
      · exact new ▸ made s index bytes act received
      · exact contents.received accounted.origin received
    · rw [others s here]
      exact contents.stored s
  sent := by
    intro sender receiver args sent
    rcases sent_of_step next sent with old | ⟨s, same⟩
    · exact contents.sent old
    · rw [same]
      exact contents.stored s

/-- No snapshot takes its service back behind where it stands. -/
def InstallsOnward (c : Cluster n C) (a : Action n C) : Prop :=
  ∀ call ∈ installing c a, (c.server call.1).rf.lastIncludedIndex < call.2 →
    ∀ v ∈ position (c.server call.1).bootIndex (c.server call.1).service, v ≤ call.2

instance (c : Cluster n C) (a : Action n C) : Decidable (InstallsOnward c a) := by
  unfold InstallsOnward
  infer_instance

/-- As long as nothing is disturbed, every service gets its commands in order. -/
theorem Accounted.positioned (accounted : Accounted A c)
    (positioned : ∀ s, Positioned (c.server s).delivery) (calm : Undisturbed c a) (next : c.step a = some c')
    (s : Fin n) : Positioned (c'.server s).delivery := by
  obtain ⟨t, others, effect⟩ := accounted.rel.affects next
  by_cases here : s = t
  · subst here
    exact effect.positioned (positioned s) (accounted.lined s) (accounted.rel.server s).node.baseApplied calm next
  · rw [others s here]
    exact positioned s

/-- An action that brings no service any further. -/
def Action.idles : Action n C → Bool
  | .applySend _ | .snapshot _ _ _ | .condInstall _ _ | .crash _ | .crashInVote _ | .crashInAppend _ => false
  | _ => true

/-- What a service has seen is the same up to snapshots that it has not yet passed back. -/
structure Still (server server' : Server n C) : Prop where
  boot : server'.bootIndex = server.bootIndex
  service : server'.service = server.service ∨
    ∃ data term index, server'.service = server.service ++ [.received (.snapshot data term index)]

omit [Inhabited C] in
theorem Still.refl (server : Server n C) : Still server server := ⟨rfl, .inl rfl⟩

omit [Inhabited C] in
theorem Still.position {server server' : Server n C} (still : Still server server') :
    position server'.bootIndex server'.service = position server.bootIndex server.service := by
  rw [still.boot]
  rcases still.service with same | ⟨data, term, index, new⟩
  · rw [same]
  · rw [new, position_append]
    cases Raft.position server.bootIndex server.service <;> rfl

omit [Inhabited C] in
theorem Still.hasReceived {server server' : Server n C} (still : Still server server')
    (received : hasReceived server'.service index = true) : Raft.hasReceived server.service index = true := by
  rcases still.service with same | ⟨_, _, _, new⟩
  · rwa [same] at received
  · rw [new] at received
    rcases hasReceived_append.mp received with old | ⟨_, _, ⟨⟩⟩
    exact old

omit [Inhabited C] in
theorem still_setServer {server : Server n C} (same : c'.server = (c.setServer s server).server)
    (still : Still (c.server s) server) (t : Fin n) : Still (c.server t) (c'.server t) := by
  rw [same]
  by_cases here : t = s
  · subst here
    rw [setServer_self]
    exact still
  · rw [setServer_others c s server t here]
    exact .refl _

theorem still_of_step (next : c.step a = some c') (idles : a.idles = true) (t : Fin n) :
    Still (c.server t) (c'.server t) := by
  cases outcome_of_step next with
  | applySend | snapshot | condInstall | crash | crashInVote | crashInAppend => cases idles
  | electionTimeout | election | requestVoteFailed | requestVoteReply | counted | elected | heartbeat | broadcast
  | stopped | replicateFailed | installReply | appendReply | appliedAppend | offeredInstall | applyAgain | start
  | kill =>
    refine still_setServer (c := c) rfl ?_ t
    exact ⟨rfl, .inl rfl⟩
  | @requestVote s | @sentInstall s | @sentAppend s | @handleVote s | @answeredAppend s | @answeredInstall s
  | @installDone s =>
    refine still_setServer (c := c) (s := s) rfl ?_ t
    exact ⟨rfl, .inl rfl⟩
  | @applyDone s _ answer =>
    cases answer with
    | none | some =>
      refine still_setServer (c := c) (s := s) rfl ?_ t
      exact ⟨rfl, .inl rfl⟩
  | @sendSnapshot s =>
    refine still_setServer (c := c) (s := s) rfl ?_ t
    exact ⟨rfl, .inr ⟨_, _, _, rfl⟩⟩

/-- The other servers stay as they are, and one service sees a further event. -/
structure Observes (c c' : Cluster n C) (s : Fin n) (event : ServiceEvent C) : Prop where
  others : ∀ t, t ≠ s → c'.server t = c.server t
  boot : (c'.server s).bootIndex = (c.server s).bootIndex
  service : (c'.server s).service = (c.server s).service ++ [event]

omit [Inhabited C] in
theorem observes_setServer {server : Server n C} {event : ServiceEvent C}
    (same : c'.server = (c.setServer s server).server) (boot : server.bootIndex = (c.server s).bootIndex)
    (service : server.service = (c.server s).service ++ [event]) : Observes c c' s event := by
  refine ⟨fun t away => ?_, ?_, ?_⟩
  · rw [same, setServer_others c s server t away]
  · rw [same, setServer_self, boot]
  · rw [same, setServer_self, service]

theorem observes_applySend {msg : ApplyMsg C} {msgs : List (ApplyMsg C)} {lastSent : Int}
    {answer : Option (Nat × AppendEntryReply)} (under : (c.server s).batch = some ⟨msg :: msgs, lastSent, answer⟩)
    (next : c.step (.applySend s) = some c') : Observes c c' s (.received msg) := by
  cases outcome_of_step next with
  | applySend found =>
    rw [under] at found
    cases found
    exact observes_setServer (c := c) (s := s) rfl rfl rfl

theorem observes_condInstall {event : Nat}
    (found : (c.server s).service[event]? = some (.received (.snapshot data term index)))
    (next : c.step (.condInstall s event) = some c') :
    Observes c c' s (.condInstalled index ((c.server s).rf.condInstallSnapshot term index data).2) := by
  cases outcome_of_step next with
  | condInstall here =>
    rw [found] at here
    cases here
    exact observes_setServer rfl rfl rfl

theorem still_snapshot {bytes : List UInt8} (next : c.step (.snapshot s index bytes) = some c') (t : Fin n) :
    Still (c.server t) (c'.server t) := by
  cases outcome_of_step next with
  | snapshot =>
    refine still_setServer (c := c) rfl ?_ t
    exact ⟨rfl, .inl rfl⟩

/-- A committed log up to an index that the service has received is a part of the log of its
server. -/
theorem Accounted.take_eq (accounted : Accounted A c) {log : List (LogEntry C)} {u : Int}
    (committed : Replica.Committed LogEntry.term A u log)
    (received : hasReceived (c.server s).service log.length = true) :
    (c.server s).rf.fullLog.take log.length = log := by
  have node := (accounted.rel.server s).node
  have inside := (accounted.lined s).received log.length received
  change (log.length : Int) ≤ (c.server s).rf.commitIndex at inside
  have within := node.commitLast
  rw [node.shaped.lastIndex_eq] at within
  have part : (c.server s).rf.fullLog.take log.length <+:
      (c.server s).rf.fullLog.take (c.server s).rf.commitIndex.toNat :=
    List.take_prefix_take_left (by omega)
  have length : ((c.server s).rf.fullLog.take log.length).length = log.length :=
    List.length_take_of_le (by omega)
  exact (accounted.rel.inv.committed_isPrefix
    (node.committed.of_isPrefix part) committed length.le).eq_of_length length

end DistSys.Raft
