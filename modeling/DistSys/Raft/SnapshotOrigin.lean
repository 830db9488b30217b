import DistSys.Raft.ApplyOrder

namespace DistSys.Raft

open Replica (Grows Own)

variable {n : Nat} {C : Type} {A B : World n C} {c c' : Cluster n C}
variable {s : Fin n} {a : Action n C} {data : Blob C} {t term index : Int} {k : Nat}

/-- The snapshot came to server `s` with a request of a term that the server has
reached. -/
def Offered (c : Cluster n C) (s : Fin n) (data : Blob C) (term index : Int) : Prop :=
  ∃ sender args, .install sender s args ∈ c.requests ∧ args.term ≤ (c.server s).rf.currentTerm ∧
    args.data = data ∧ args.lastIncludedTerm = term ∧ args.lastIncludedIndex = index

/-- Only leaders send snapshots, and never to themselves; what a handler holds and
what a service has received was sent. -/
structure Origin (A : World n C) (c : Cluster n C) : Prop where
  sender : ∀ {sender receiver args}, .install sender receiver args ∈ c.requests →
    A.chief args.term = some sender ∧ sender ≠ receiver
  pending : ∀ {s install}, install ∈ (c.server s).installs →
    Offered c s install.args.data install.args.lastIncludedTerm install.args.lastIncludedIndex
  received : ∀ {s data term index}, .received (.snapshot data term index) ∈ (c.server s).service →
    Offered c s data term index
  installed : ∀ {s index accepted}, .condInstalled index accepted ∈ (c.server s).service →
    ∃ data term, .received (.snapshot data term index) ∈ (c.server s).service

/-- A leader is never offered a snapshot that covers an entry it wrote itself, as long
as it has not left the term in which it wrote it. -/
theorem Origin.le_of_own [Inhabited C] (origin : Origin A c) (rel : ClusterRel c A) (chief : A.chief t = some s)
    (own : Own LogEntry.term A t k) (here : (c.server s).rf.currentTerm ≤ t)
    (offered : Offered c s data term index) : index ≤ k := by
  obtain ⟨sender, args, sent, reached, rfl, rfl, rfl⟩ := offered
  obtain ⟨elected, away⟩ := origin.sender sent
  have earlier : args.term < t := by
    refine lt_of_le_of_ne (reached.trans here) fun same => away ?_
    rw [same, chief] at elected
    exact (Option.some.inj elected).symm
  obtain ⟨committed, length, _⟩ := rel.requests _ sent
  by_contra beyond
  -- the entry would be one of those that an earlier term has committed
  have inBook := rel.inv.committed_prefix_book committed chief earlier.le
  have bound : k < args.data.covers.length := by omega
  obtain ⟨e, entry, written⟩ := own
  have covered : args.data.covers[k]? = some e := by
    rw [← entry, Replica.getElem?_of_isPrefix inBook (List.getElem?_eq_getElem bound),
      List.getElem?_eq_getElem bound]
  rcases committed with empty | ⟨u, before, m, _, part⟩
  · rw [empty] at bound
    exact absurd bound (Nat.not_lt_zero k)
  · have small := rel.inv.book_bound ((part.trans (List.take_prefix _ _)).mem (List.mem_of_getElem? covered))
    omega

theorem Offered.mono (offered : Offered c s data term index) (requests : c.requests ⊆ c'.requests)
    (later : (c.server s).rf.currentTerm ≤ (c'.server s).rf.currentTerm) : Offered c' s data term index := by
  obtain ⟨sender, args, sent, reached, same⟩ := offered
  exact ⟨sender, args, requests sent, reached.trans later, same⟩

theorem ClusterRel.later [Inhabited C] (rel : ClusterRel c A) (rel' : ClusterRel c' B)
    (grows : Grows A B) (s : Fin n) :
    (c.server s).rf.currentTerm ≤ (c'.server s).rf.currentTerm := by
  rw [← (rel.server s).node.term, ← (rel'.server s).node.term]
  exact grows.term s

theorem NodeRel.replicate_chief [Inhabited C] {rf : Raft n C} {server : Fin n} {args : InstallSnapshotArgs C}
    (rel : NodeRel A s rf) (inv : Replica.Inv LogEntry.term A)
    (sends : rf.replicateToPeer server term = .installSnapshot args) : A.chief args.term = some s := by
  unfold replicateToPeer at sends
  split at sends
  next => cases sends
  next leads =>
    simp only at sends
    split at sends
    next =>
      cases sends
      have leader : (A.peer s).role = .leader := by
        rw [rel.role, not_not.mp (not_or.mp (not_or.mp leads).2).1]
        rfl
      have chief := inv.leader_chief leader
      rwa [rel.term] at chief
    next => cases sends

/-- What is new of the snapshots on their way after an action comes from a leader, from
a request or from a handler. -/
structure Carries (B : World n C) (c c' : Cluster n C) : Prop where
  requests : c.requests ⊆ c'.requests
  sent : ∀ {sender receiver args}, .install sender receiver args ∈ c'.requests →
    .install sender receiver args ∈ c.requests ∨ B.chief args.term = some sender ∧ sender ≠ receiver
  installs : ∀ {s install}, install ∈ (c'.server s).installs →
    (∃ old ∈ (c.server s).installs, old.args = install.args) ∨
      Offered c' s install.args.data install.args.lastIncludedTerm install.args.lastIncludedIndex
  service : ∀ {s event}, event ∈ (c'.server s).service → event ∈ (c.server s).service ∨
    (∀ data term index, event = .received (.snapshot data term index) → Offered c' s data term index) ∧
      ∀ index accepted, event = .condInstalled index accepted →
        ∃ data term, .received (.snapshot data term index) ∈ (c.server s).service
  kept : ∀ s, (c'.server s).service = [] ∨ (c.server s).service ⊆ (c'.server s).service

theorem Origin.carries [Inhabited C] (origin : Origin A c) (rel : ClusterRel c A) (rel' : ClusterRel c' B)
    (grows : Grows A B) (carries : Carries B c c') : Origin B c' where
  sender sent := by
    rcases carries.sent sent with old | new
    · exact ⟨grows.chief _ _ (origin.sender old).1, (origin.sender old).2⟩
    · exact new
  pending := by
    intro s install member
    rcases carries.installs member with ⟨old, held, same⟩ | new
    · rw [← same]
      exact (origin.pending held).mono carries.requests (rel.later rel' grows s)
    · exact new
  received := by
    intro s data term index member
    rcases carries.service member with old | ⟨new, _⟩
    · exact (origin.received old).mono carries.requests (rel.later rel' grows s)
    · exact new data term index rfl
  installed := by
    intro s index accepted member
    rcases carries.kept s with fresh | kept
    · rw [fresh] at member
      cases member
    rcases carries.service member with old | ⟨_, new⟩
    · obtain ⟨data, term, here⟩ := origin.installed old
      exact ⟨data, term, kept here⟩
    · obtain ⟨data, term, here⟩ := new index accepted rfl
      exact ⟨data, term, kept here⟩

section
variable {server : Server n C} (same : c'.server = (c.setServer s server).server)
include same

theorem carries_setServer (requests : c'.requests = c.requests)
    (installs : ∀ {install}, install ∈ server.installs →
      (∃ old ∈ (c.server s).installs, old.args = install.args) ∨
        Offered c' s install.args.data install.args.lastIncludedTerm install.args.lastIncludedIndex)
    (service : ∀ {event}, event ∈ server.service → event ∈ (c.server s).service ∨
      (∀ data term index, event = .received (.snapshot data term index) → Offered c' s data term index) ∧
        ∀ index accepted, event = .condInstalled index accepted →
          ∃ data term, .received (.snapshot data term index) ∈ (c.server s).service)
    (kept : server.service = [] ∨ (c.server s).service ⊆ server.service) : Carries B c c' where
  requests := by rw [requests]; exact List.Subset.refl _
  sent := by rw [requests]; exact .inl
  installs := by
    intro t install member
    rw [same] at member
    by_cases here : t = s
    · subst here
      rw [setServer_self] at member
      exact installs member
    · rw [setServer_others c s server t here] at member
      exact .inl ⟨install, member, rfl⟩
  service := by
    intro t event member
    rw [same] at member
    by_cases here : t = s
    · subst here
      rw [setServer_self] at member
      exact service member
    · rw [setServer_others c s server t here] at member
      exact .inl member
  kept t := by
    rw [same]
    by_cases here : t = s
    · subst here
      rw [setServer_self]
      exact kept
    · rw [setServer_others c s server t here]
      exact .inr (List.Subset.refl _)

/-- An action that the service of the server learns of. -/
theorem carries_event {event : ServiceEvent C} (requests : c'.requests = c.requests)
    (installs : ∀ {install}, install ∈ server.installs →
      (∃ old ∈ (c.server s).installs, old.args = install.args))
    (service : server.service = (c.server s).service ++ [event])
    (received : ∀ data term index, event = .received (.snapshot data term index) → Offered c' s data term index)
    (installed : ∀ index accepted, event = .condInstalled index accepted →
      ∃ data term, .received (.snapshot data term index) ∈ (c.server s).service) : Carries B c c' := by
  refine carries_setServer same requests (fun member => .inl (installs member)) (fun member => ?_) ?_
  · rw [service] at member
    rcases List.mem_append.mp member with old | new
    · exact .inl old
    · rw [List.mem_singleton.mp new]
      exact .inr ⟨received, installed⟩
  · rw [service]
    exact .inr (List.subset_append_left _ _)

/-- An action by which no snapshot gets any further. -/
theorem carries_quiet (requests : c'.requests = c.requests)
    (installs : server.installs = (c.server s).installs) (service : server.service = (c.server s).service) :
    Carries B c c' := by
  refine carries_setServer same requests (fun {install} member => ?_) (fun member => ?_) ?_
  · rw [installs] at member
    exact .inl ⟨install, member, rfl⟩
  · rw [service] at member
    exact .inl member
  · rw [service]
    exact .inr (List.Subset.refl _)

end

theorem Carries.addRequest (carries : Carries B c c') {request : Request n C}
    (leads : ∀ sender receiver args, request = .install sender receiver args →
      B.chief args.term = some sender ∧ sender ≠ receiver) : Carries B c (c'.addRequest request) where
  requests := List.Subset.trans carries.requests (List.subset_append_left _ _)
  sent := by
    intro sender receiver args member
    rcases List.mem_append.mp member with old | new
    · exact carries.sent old
    · exact .inr (leads sender receiver args (List.mem_singleton.mp new).symm)
  installs member := (carries.installs member).imp_right
    fun offered => offered.mono (List.subset_append_left _ _) le_rfl
  service member := (carries.service member).imp_right fun new =>
    ⟨fun data term index is => (new.1 data term index is).mono (List.subset_append_left _ _) le_rfl, new.2⟩
  kept := carries.kept

theorem carries_boot [Inhabited C] (persister : Persister C) : Carries B c (c.setServer s (boot s persister)) :=
  carries_setServer rfl rfl (fun member => nomatch member) (fun member => nomatch member) (.inl rfl)

/-! The actions that move a snapshot -/

theorem carries_sentInstall [Inhabited C] (rel : ClusterRel c A) (grows : Grows A B)
    {r : Replicator n} {server : Server n C}
    {args : InstallSnapshotArgs C} (member : r ∈ (c.server s).replicators)
    (sends : (c.server s).rf.replicateToPeer r.server r.term = .installSnapshot args)
    (installs : server.installs = (c.server s).installs) (service : server.service = (c.server s).service) :
    Carries B c ((c.setServer s server).addRequest (.install s r.server args)) := by
  refine (carries_quiet rfl rfl installs service).addRequest ?_
  rintro sender receiver _ ⟨⟩
  have chief := (rel.server s).node.replicate_chief rel.inv sends
  exact ⟨grows.chief _ _ chief, ((rel.server s).replicators r member).away.symm⟩

theorem carries_offeredInstall [Inhabited C] {call : Nat} {sender : Fin n} {args : InstallSnapshotArgs C}
    (rel : ClusterRel c A) (found : c.requests[call]? = some (.install sender s args))
    (sends : ((c.server s).rf.installSnapshot args).2.2 = true) :
    Carries B c (c.setServer s { c.server s with
      rf := ((c.server s).rf.installSnapshot args).1
      installs := (c.server s).installs ++
        [⟨call, args, ((c.server s).rf.installSnapshot args).2.1, .sending⟩] }) := by
  obtain ⟨_, _, _, _, reached⟩ := (rel.server s).node.installSnapshot rel.inv args
  refine carries_setServer rfl rfl (fun {install} member => ?_) .inl (.inr (List.Subset.refl _))
  rcases List.mem_append.mp member with old | new
  · exact .inl ⟨install, old, rfl⟩
  · rw [List.mem_singleton.mp new]
    refine .inr ⟨sender, args, List.mem_of_getElem? found, ?_, rfl, rfl, rfl⟩
    rw [setServer_self]
    exact reached sends

/-- A handler of `InstallSnapshot` goes on with the same snapshot. -/
theorem mem_setInstall {server : Server n C} {i : Nat} {install other : Install C} {pc : InstallPc}
    (found : server.installs[i]? = some install)
    (member : other ∈ (server.setInstall i { install with pc := pc }).installs) :
    ∃ old ∈ server.installs, old.args = other.args := by
  rcases List.mem_or_eq_of_mem_set member with old | rfl
  · exact ⟨other, old, rfl⟩
  · exact ⟨install, List.mem_of_getElem? found, rfl⟩

theorem Origin.carries_sendSnapshot (origin : Origin A c) {i : Nat} {install : Install C}
    (found : (c.server s).installs[i]? = some install) :
    Carries B c (c.deliver s ((c.server s).setInstall i { install with pc := .sent })
      (.snapshot install.args.data install.args.lastIncludedTerm install.args.lastIncludedIndex)) := by
  refine carries_event (c := c) (s := s) rfl rfl (mem_setInstall found) rfl ?_ nofun
  rintro data term index ⟨⟩
  refine (origin.pending (List.mem_of_getElem? found)).mono (List.Subset.refl _) ?_
  simp only [Cluster.deliver, setServer_self, Server.setInstall, le_refl]

theorem carries_applySend (lined : Lined (c.server s).delivery) {msg : ApplyMsg C} {msgs : List (ApplyMsg C)}
    {lastSent : Int} {answer : Option (Nat × AppendEntryReply)}
    (under : (c.server s).batch = some ⟨msg :: msgs, lastSent, answer⟩) :
    Carries B c (c.deliver s { c.server s with batch := some ⟨msgs, lastSent, answer⟩ } msg) := by
  refine carries_event (c := c) (s := s) rfl rfl (fun {install} member => ⟨install, member, rfl⟩) rfl ?_ nofun
  -- a batch holds commands only
  rintro data term index ⟨⟩
  exact absurd (lined.follows _ under) id

theorem carries_condInstall {event : Nat} {rf : Raft n C} {accepted : Bool}
    (found : (c.server s).service[event]? = some (.received (.snapshot data term index))) :
    Carries B c (c.setServer s { c.server s with
      rf := rf, service := (c.server s).service ++ [.condInstalled index accepted] }) := by
  refine carries_event (c := c) (s := s) rfl rfl (fun {install} member => ⟨install, member, rfl⟩) rfl nofun ?_
  rintro _ _ ⟨⟩
  exact ⟨data, term, List.mem_of_getElem? found⟩

variable [Inhabited C]

/-- Every action carries the snapshots on as it should. -/
theorem Origin.carries_of_step (origin : Origin A c) (rel : ClusterRel c A) (grows : Grows A B)
    (lined : ∀ s, Lined (c.server s).delivery) (next : c.step a = some c') : Carries B c c' := by
  cases outcome_of_step next with
  | electionTimeout | election | requestVoteFailed | requestVoteReply | counted | elected | heartbeat | broadcast
  | stopped | replicateFailed | installReply | appendReply | handleVote | answeredAppend | appliedAppend
  | answeredInstall | applyAgain | start | snapshot | kill => exact carries_quiet rfl rfl rfl rfl
  | requestVote | sentAppend =>
    refine Carries.addRequest ?_ ?_
    · exact carries_quiet rfl rfl rfl rfl
    · nofun
  | sentInstall found sends =>
    exact carries_sentInstall rel grows (List.mem_of_getElem? found) sends rfl rfl
  | offeredInstall found sends => exact carries_offeredInstall rel found sends
  | sendSnapshot found => exact origin.carries_sendSnapshot found
  | installDone found =>
    exact carries_setServer rfl rfl (fun member => .inl (mem_setInstall found member)) .inl
      (.inr (List.Subset.refl _))
  | applySend under => exact carries_applySend (lined _) under
  | @applyDone _ _ answer => cases answer <;> exact carries_quiet rfl rfl rfl rfl
  | condInstall found => exact carries_condInstall found
  | crash | crashInVote | crashInAppend => exact carries_boot _

/-- Everything that the service above a peer relies on. -/
structure Accounted (A : World n C) (c : Cluster n C) : Prop where
  rel : ClusterRel c A
  origin : Origin A c
  lined : ∀ s, Lined (c.server s).delivery

theorem accounted_init : Accounted (Replica.State.initial (Fin n) (LogEntry C) (0 : Int)) (init n C) where
  rel := ClusterRel.initial
  origin := ⟨nofun, nofun, nofun, nofun⟩
  lined s := lined_boot s makePersister

theorem Accounted.step (accounted : Accounted A c) (next : c.step a = some c') :
    ∃ B, Grows A B ∧ Accounted B c' := by
  obtain ⟨rel, origin, lined⟩ := accounted
  obtain ⟨_, B, moved, rel'⟩ := rel.step next
  have grows := (moved.inv_grows rel.inv).2
  refine ⟨B, grows, rel', origin.carries rel rel' grows (origin.carries_of_step rel grows lined next), fun s => ?_⟩
  obtain ⟨t, others, effect⟩ := rel.affects next
  by_cases here : s = t
  · subst here
    exact effect.lined (lined s)
  · rw [others s here]
    exact lined s

/-- The entry of a successful `Start` is one that the leader of the term wrote. -/
theorem Accounted.own_start (accounted : Accounted A c) (accounted' : Accounted B c') {command : C}
    (leads : (c.server s).rf.state = .leader) (next : c.step (.start s command) = some c') :
    B.chief (c.server s).rf.currentTerm = some s ∧
      Own LogEntry.term B (c.server s).rf.currentTerm (c.server s).rf.lastIndex.toNat := by
  have node := (accounted.rel.server s).node
  have node' := (accounted'.rel.server s).node
  have after : (c'.server s).rf = persist { (c.server s).rf with
      logs := (c.server s).rf.logs ++ [⟨command, (c.server s).rf.currentTerm⟩] } := by
    simp only [Cluster.step, Cluster.start, Option.some.injEq] at next
    rw [← next, setServer_self]
    simp only [start, leads, ne_eq, not_true_eq_false, if_false]
  rw [after] at node'
  have leader : (B.peer s).role = .leader := by
    rw [node'.role]
    exact congrArg Stat.role leads
  have term : (B.peer s).term = (c.server s).rf.currentTerm := node'.term
  have chief := accounted'.rel.inv.leader_chief leader
  have book := accounted'.rel.inv.leader_book leader
  rw [term] at chief book
  refine ⟨chief, ⟨command, (c.server s).rf.currentTerm⟩, ?_, rfl⟩
  rw [book, node'.log, node.shaped.fullLog_concat, node.shaped.lastIndex_eq, Int.toNat_natCast,
    List.getElem?_concat_length]

theorem Accounted.term_nonneg (accounted : Accounted A c) (s : Fin n) : 0 ≤ (c.server s).rf.currentTerm := by
  have node := (accounted.rel.server s).node
  rw [← node.term, ← node.origin]
  exact accounted.rel.inv.origin_term s

/-- What the service of a peer has received lies within the log of the peer. -/
theorem Accounted.received_le (accounted : Accounted A c) (received : hasReceived (c.server s).service index = true) :
    index ≤ (c.server s).rf.lastIndex :=
  ((accounted.lined s).received index received).trans (accounted.rel.server s).node.commitLast

/-- A service loses what it has seen only in a crash. -/
theorem Accounted.service_subset (accounted : Accounted A c) (stays : a.crashes = false)
    (next : c.step a = some c') (s : Fin n) : (c.server s).service ⊆ (c'.server s).service := by
  obtain ⟨t, others, effect⟩ := accounted.rel.affects next
  by_cases here : s = t
  · subst here
    generalize before : (c.server s).delivery = d at effect
    generalize after : (c'.server s).delivery = d' at effect
    have grows : d.service ⊆ d'.service := by
      cases effect with
      | quiet | advance | resume | compact => exact List.Subset.refl _
      | offer | apply | install => exact List.subset_append_left _ _
      | reboot crashes =>
        rw [stays] at crashes
        cases crashes
    rw [← before, ← after] at grows
    exact grows
  · rw [others s here]
    exact List.Subset.refl _

end DistSys.Raft
