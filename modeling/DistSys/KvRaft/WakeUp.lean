import DistSys.KvRaft.Channels
import DistSys.Raft.SnapshotOrigin

namespace DistSys.KvRaft

open Raft (Cluster World LogEntry Accounted)
open Replica (Grows Own)

namespace Host

variable {host host' : Host} {h : Nat} {op : Op} {old new : Handler}

/-- A step by which no handler begins to wait, nothing is computed and no trimming begins. -/
structure Calm (host host' : Host) : Prop where
  awaits : ∀ {k : Nat} {handler : Handler} {p}, host'.server.handlers[k]? = some handler →
    handler.state.awaits = some p →
    ∃ old : Handler, host.server.handlers[k]? = some old ∧ old.state.awaits = some p
  results : host'.results = host.results
  trimming : ∀ {index}, host'.server.applier = .trimming index → host.server.applier = .trimming index

theorem calm_handlers (handlers : host'.server.handlers = host.server.handlers)
    (results : host'.results = host.results)
    (trimming : ∀ {index}, host'.server.applier = .trimming index → host.server.applier = .trimming index) :
    Calm host host' := by
  refine ⟨fun {k handler p} here awaits => ⟨handler, ?_, awaits⟩, results, trimming⟩
  rw [← handlers]
  exact here

theorem calm_set (found : host.server.handlers[h]? = some old)
    (handlers : host'.server.handlers = host.server.handlers.set h new)
    (goes : ∀ p, new.state.awaits = some p → old.state.awaits = some p)
    (results : host'.results = host.results) (applier : host'.server.applier = host.server.applier) :
    Calm host host' := by
  refine ⟨fun {k handler p} here awaits => ?_, results, fun is => by rwa [applier] at is⟩
  rw [handlers] at here
  by_cases same : h = k
  · subst same
    rw [List.getElem?_set_self (List.getElem?_eq_some_iff.mp found).1] at here
    cases here
    exact ⟨old, found, goes p awaits⟩
  · rw [List.getElem?_set_ne same] at here
    exact ⟨handler, here, awaits⟩

theorem applier_of_idle (idle : host.idle = true) : host.server.applier = .idle := by
  unfold Host.idle at idle
  split at idle
  next is _ => exact is
  next => cases idle

theorem serve_some {step : KVServer → Option KVServer} (next : host.serve step = some host') :
    ∃ server, step host.server = some server ∧ host' = { host with server := server } := by
  obtain ⟨server, found, rfl⟩ := Option.map_eq_some_iff.mp next
  exact ⟨server, found, rfl⟩

theorem moves_handle (op : Op) : Move host .none (host.handle op) ∧ Calm host (host.handle op) := by
  refine ⟨.handle op, fun {k handler p} here awaits => ?_, rfl, fun is => is⟩
  rcases getElem?_concat_cases here with before | ⟨_, rfl⟩
  · exact ⟨handler, before, awaits⟩
  · cases awaits

theorem moves_register (next : host.serve (fun server => server.register h) = some host') :
    Move host .none host' ∧ Calm host host' := by
  obtain ⟨server, found, rfl⟩ := serve_some next
  unfold KVServer.register at found
  split at found
  next op index term here =>
    simp only [KVServer.getNotifyCh] at found
    split at found
    next channel there =>
      cases found
      exact ⟨.found here there, calm_set here rfl (fun _ awaits => awaits) rfl rfl⟩
    next absent =>
      cases found
      exact ⟨.made here absent, calm_set here rfl (fun _ awaits => awaits) rfl rfl⟩
  next => cases found

theorem moves_receive (next : host.serve (fun server => server.receive h) = some host') :
    Move host (some h) host' ∧ Calm host host' := by
  obtain ⟨server, found, rfl⟩ := serve_some next
  unfold KVServer.receive at found
  split at found
  next op index term channel here =>
    split at found
    next res full =>
      cases found
      exact ⟨.take here full, calm_set here rfl nofun rfl rfl⟩
    next => cases found
  next => cases found

theorem moves_timeout {curTerm : Nat} {stillLeader : Bool}
    (next : host.serve (fun server => server.timeout h curTerm stillLeader) = some host') :
    Move host .none host' ∧ Calm host host' := by
  obtain ⟨server, found, rfl⟩ := serve_some next
  unfold KVServer.timeout at found
  split at found
  next op index term channel here =>
    split at found
    next =>
      cases found
      exact ⟨.timeout here, calm_set here rfl nofun rfl rfl⟩
    next =>
      cases found
      exact ⟨.none, calm_handlers rfl rfl fun is => is⟩
  next => cases found

theorem moves_leave (next : host.serve (fun server => (server.leave h).map fun left => left.1) = some host') :
    Move host (some h) host' ∧ Calm host host' := by
  obtain ⟨server, found, rfl⟩ := serve_some next
  obtain ⟨⟨left, answer⟩, found, rfl⟩ := Option.map_eq_some_iff.mp found
  unfold KVServer.leave at found
  split at found
  next op index reply here =>
    cases found
    exact ⟨.leave here, calm_set here rfl nofun rfl rfl⟩
  next => cases found

theorem moves_notify (next : host.serve (fun server => server.sendNotification) = some host') :
    Move host .none host' ∧ Calm host host' := by
  obtain ⟨server, found, rfl⟩ := serve_some next
  unfold KVServer.sendNotification at found
  split at found
  next channel res is =>
    split at found
    next empty =>
      cases found
      exact ⟨.notify is empty, calm_handlers rfl rfl nofun⟩
    next full =>
      cases found
      exact ⟨.dropped is full, calm_handlers rfl rfl nofun⟩
  next => cases found

theorem moves_trim (next : host.serve (fun server => server.trim) = some host') :
    Move host .none host' ∧ Calm host host' := by
  obtain ⟨server, found, rfl⟩ := serve_some next
  unfold KVServer.trim at found
  split at found
  next index is =>
    cases found
    exact ⟨.trim is, calm_handlers rfl rfl nofun⟩
  next => cases found

end Host

variable {n : Nat} {codec : Codec} {d d' : Deployment n} {s : Fin n} {A B : World n Op} {e : Event n}
variable {c' : Cluster n Op} {a : Raft.Action n Op} {i t : Nat} {mover : Option Nat}

namespace Deployment

/-- What a step of server `s` does to it, with what Raft does at the same time. -/
inductive Turn (d : Deployment n) (s : Fin n) : Option Nat → Cluster n Op → Host → Prop
  | calm {mover : Option Nat} {c' : Cluster n Op} {host : Host} :
      (c' = d.cluster ∨ ∃ a, a.crashes = false ∧ d.cluster.step a = some c') →
      (d.host s).Move mover host → (d.host s).Calm host → Turn d s mover c' host
  | start {c' : Cluster n Op} {h : Nat} {op : Op} :
      (d.host s).server.handlers[h]? = some ⟨op, .calling⟩ → (d.rf s).state = .leader →
      d.cluster.step (.start s op) = some c' →
      Turn d s .none c' { d.host s with
        server := (d.host s).server.setHandler h
          ⟨op, .registering ((d.rf s).lastIndex + 1).toNat (d.rf s).currentTerm.toNat⟩ }
  | command {c' : Cluster n Op} {op : Op} {index term : Int} {msgs : List (Raft.ApplyMsg Op)} {lastSent : Int}
      {answer : Option (Nat × Raft.AppendEntryReply)} : (d.host s).server.applier = .idle →
      (d.cluster.server s).batch = some ⟨.command op index term :: msgs, lastSent, answer⟩ →
      d.cluster.step (.applySend s) = some c' → Turn d s .none c' ((d.host s).applyCommand op index.toNat)
  | install {c' : Cluster n Op} {event : Nat} {data : Raft.Blob Op} {term index : Int} {kv : KVState} :
      (d.host s).server.applier = .idle →
      (d.cluster.server s).service[event]? = some (.received (.snapshot data term index)) →
      d.cluster.step (.condInstall s event) = some c' →
      Turn d s .none c' { d.host s with
        server := { (d.host s).server with kv := kv, applied := index.toNat, applier := .trimming index.toNat }
        installing := none }

/-- A step of Raft alone, after which a crashed server has started again. -/
inductive Reset (codec : Codec) (d : Deployment n) : Deployment n → Prop
  | none {a : Raft.Action n Op} {c' : Cluster n Op} : a.crashes = false → d.cluster.step a = some c' →
      Reset codec d { d with cluster := c' }
  | crash {a : Raft.Action n Op} {c' : Cluster n Op} {s : Fin n} {data : List UInt8} :
      d.cluster.step a = some c' → (∀ t, t ≠ s → c'.server t = d.cluster.server t) →
      Reset codec d ⟨c', Function.update d.host s (.start codec data)⟩

theorem move_some {host : Option Host} {cluster : Option (Cluster n Op)}
    (next : d.move s host cluster = some d') :
    ∃ host' c', host = some host' ∧ cluster = some c' ∧ d' = ⟨c', Function.update d.host s host'⟩ := by
  unfold move at next
  split at next
  next host' c' =>
    cases next
    exact ⟨host', c', rfl, rfl, rfl⟩
  next => cases next

/-- A server moves on its own. -/
theorem turn_of_move {host : Option Host} {mover : Option Nat}
    (next : d.move s host (some d.cluster) = some d')
    (moves : ∀ host', host = some host' → (d.host s).Move mover host' ∧ (d.host s).Calm host') :
    ∃ host', d' = ⟨d'.cluster, Function.update d.host s host'⟩ ∧ Turn d s mover d'.cluster host' := by
  obtain ⟨host', c', is, same, rfl⟩ := move_some next
  cases same
  obtain ⟨move, calm⟩ := moves host' is
  exact ⟨host', rfl, .calm (.inl rfl) move calm⟩

theorem start_answer (rf : Raft n Op) (op : Op) :
    (rf.state = .leader ∧ (rf.start op).2 = (rf.lastIndex + 1, rf.currentTerm, true)) ∨
      (rf.start op).2.2.2 = false := by
  unfold Raft.start
  split
  next => exact .inr rfl
  next leads =>
    refine .inl ⟨not_not.mp leads, ?_⟩
    simp only [Raft.persist, Raft.lastIndex, List.length_append, List.length_singleton]
    refine Prod.ext ?_ rfl
    simp only
    omega

theorem turn_callStart {h : Nat} (next : d.callStart s h = some d') :
    ∃ host', d' = ⟨d'.cluster, Function.update d.host s host'⟩ ∧ Turn d s none d'.cluster host' := by
  unfold callStart at next
  simp only at next
  split at next
  next op found =>
    obtain ⟨host', c', called, started, rfl⟩ := move_some next
    obtain ⟨server, answered, rfl⟩ := Host.serve_some called
    unfold KVServer.callStart at answered
    rw [found] at answered
    refine ⟨_, rfl, ?_⟩
    rcases start_answer (d.rf s) op with ⟨leads, answer⟩ | refused
    · simp only [answer, if_true, Option.some.injEq] at answered
      rw [← answered]
      exact .start found leads started
    · simp only [refused, Bool.false_eq_true, if_false, Option.some.injEq] at answered
      rw [← answered]
      exact .calm (.inr ⟨_, rfl, started⟩) (.refused found) (Host.calm_set found rfl nofun rfl rfl)
  next => cases next

theorem turn_command (next : d.command s = some d') :
    ∃ host', d' = ⟨d'.cluster, Function.update d.host s host'⟩ ∧ Turn d s none d'.cluster host' := by
  unfold command at next
  split at next
  next idle under =>
    obtain ⟨_, c', ⟨⟩, sent, rfl⟩ := move_some next
    exact ⟨_, rfl, .command (Host.applier_of_idle idle) under sent⟩
  next => cases next

theorem turn_maybeSnapshot (next : d.maybeSnapshot codec s = some d') :
    ∃ host', d' = ⟨d'.cluster, Function.update d.host s host'⟩ ∧ Turn d s none d'.cluster host' := by
  unfold maybeSnapshot at next
  simp only at next
  split at next
  next =>
    obtain ⟨_, c', ⟨⟩, saved, rfl⟩ := move_some next
    exact ⟨_, rfl, .calm (.inr ⟨_, rfl, saved⟩) .none (Host.calm_handlers rfl rfl fun is => is)⟩
  next => cases next

theorem turn_snapshot {install : Nat} (next : d.snapshot s install = some d') :
    ∃ host', d' = ⟨d'.cluster, Function.update d.host s host'⟩ ∧ Turn d s none d'.cluster host' := by
  unfold snapshot at next
  simp only at next
  split at next
  next =>
    obtain ⟨_, c', ⟨⟩, sent, rfl⟩ := move_some next
    exact ⟨_, rfl, .calm (.inr ⟨_, rfl, sent⟩) (.installing _) (Host.calm_handlers rfl rfl fun is => is)⟩
  next => cases next

theorem turn_condInstall (next : d.condInstall codec s = some d') :
    ∃ host', d' = ⟨d'.cluster, Function.update d.host s host'⟩ ∧ Turn d s none d'.cluster host' := by
  unfold condInstall at next
  simp only at next
  split at next
  next event idle _ =>
    split at next
    next data term index received =>
      obtain ⟨_, c', ⟨⟩, installed, rfl⟩ := move_some next
      refine ⟨_, rfl, ?_⟩
      unfold Host.applySnapshot
      simp only
      split
      next => exact .install idle received installed
      next =>
        exact .calm (.inr ⟨_, rfl, installed⟩) (.installing _) (Host.calm_handlers rfl rfl fun is => is)
    next => cases next
  next => cases next

theorem crashed_cases {c : Cluster n Op} (next : c.step a = some c') :
    a.crashes = false ∧ crashed c a = none ∨
      ∃ s persister, crashed c a = some s ∧ c' = c.setServer s (Raft.boot s persister) := by
  cases Raft.outcome_of_step next with
  | @crash s => exact .inr ⟨s, _, rfl, rfl⟩
  | @crashInVote s _ _ _ found | @crashInAppend s _ _ _ found =>
    exact .inr ⟨s, _, by simp only [crashed, found], rfl⟩
  | _ => exact .inl ⟨rfl, rfl⟩

theorem reset_raft (next : d.raft codec a = some d') : Reset codec d d' := by
  unfold raft at next
  split at next
  next => cases next
  next =>
    obtain ⟨c', stepped, rfl⟩ := Option.map_eq_some_iff.mp next
    rcases crashed_cases stepped with ⟨stays, nobody⟩ | ⟨s, persister, down, rfl⟩
    · rw [nobody]
      exact .none stays stepped
    · rw [down]
      exact .crash stepped (Raft.setServer_others d.cluster s _)

/-- The server and the handler that takes a result or returns. -/
def Event.taker : Event n → Option (Fin n × Nat)
  | .take s h | .leave s h => some (s, h)
  | _ => none

/-- A step is one of Raft alone or the turn of one server. -/
theorem turn_of_step (next : d.step codec e = some d') :
    Reset codec d d' ∨ ∃ s host' mover, d' = ⟨d'.cluster, Function.update d.host s host'⟩ ∧
      Turn d s mover d'.cluster host' ∧ ∀ h ∈ mover, Event.taker e = some (s, h) := by
  cases e with
  | raft a => exact .inl (reset_raft next)
  | handle s op =>
    have next : d.move s (some ((d.host s).handle op)) (some d.cluster) = some d' := next
    obtain ⟨host', same, turn⟩ := turn_of_move next (by
      rintro _ ⟨⟩
      exact Host.moves_handle op)
    exact .inr ⟨s, host', none, same, turn, nofun⟩
  | start s h =>
    obtain ⟨host', same, turn⟩ := turn_callStart next
    exact .inr ⟨s, host', none, same, turn, nofun⟩
  | register s h =>
    obtain ⟨host', same, turn⟩ := turn_of_move next fun _ => Host.moves_register
    exact .inr ⟨s, host', none, same, turn, nofun⟩
  | take s h =>
    obtain ⟨host', same, turn⟩ := turn_of_move next fun _ => Host.moves_receive
    exact .inr ⟨s, host', some h, same, turn, by rintro _ ⟨⟩; rfl⟩
  | timeout s h =>
    obtain ⟨host', same, turn⟩ := turn_of_move next fun _ => Host.moves_timeout
    exact .inr ⟨s, host', none, same, turn, nofun⟩
  | leave s h =>
    obtain ⟨host', same, turn⟩ := turn_of_move next fun _ => Host.moves_leave
    exact .inr ⟨s, host', some h, same, turn, by rintro _ ⟨⟩; rfl⟩
  | command s =>
    obtain ⟨host', same, turn⟩ := turn_command next
    exact .inr ⟨s, host', none, same, turn, nofun⟩
  | notify s =>
    obtain ⟨host', same, turn⟩ := turn_of_move next fun _ => Host.moves_notify
    exact .inr ⟨s, host', none, same, turn, nofun⟩
  | maybeSnapshot s =>
    obtain ⟨host', same, turn⟩ := turn_maybeSnapshot next
    exact .inr ⟨s, host', none, same, turn, nofun⟩
  | snapshot s install =>
    obtain ⟨host', same, turn⟩ := turn_snapshot next
    exact .inr ⟨s, host', none, same, turn, nofun⟩
  | condInstall s =>
    obtain ⟨host', same, turn⟩ := turn_condInstall next
    exact .inr ⟨s, host', none, same, turn, nofun⟩
  | trim s =>
    obtain ⟨host', same, turn⟩ := turn_of_move next fun _ => Host.moves_trim
    exact .inr ⟨s, host', none, same, turn, nofun⟩

theorem Turn.move {host : Host} (turn : Turn d s mover c' host) : (d.host s).Move mover host := by
  cases turn with
  | calm _ move _ => exact move
  | start found => exact .start found
  | command idle => exact .command _ _ idle
  | install idle => exact .install _ _ idle

/-- Server `s` led term `t` and wrote the entry at index `i` in it. -/
structure Owns (A : World n Op) (s : Fin n) (i t : Nat) : Prop where
  chief : A.chief t = some s
  positive : 0 < i
  own : Own LogEntry.term A t (i - 1)

theorem Owns.grows (owns : Owns A s i t) (grows : Grows A B) : Owns B s i t :=
  ⟨grows.chief _ _ owns.chief, owns.positive, owns.own.grows grows⟩

/-- What Raft guarantees to the server above it: whoever waits for an index has written
its entry, and whatever was computed or is being trimmed came on `applyCh`. -/
structure Backed (A : World n Op) (c : Cluster n Op) (s : Fin n) (host : Host) : Prop where
  owns : ∀ {handler i t}, handler ∈ host.server.handlers → handler.state.awaits = some (i, t) → Owns A s i t
  computed : ∀ {i}, host.Computed i →
    ∃ index, Raft.hasReceived (c.server s).service index = true ∧ i = index.toNat
  trimming : ∀ {i}, host.server.applier = .trimming i →
    ∃ data term index, .received (.snapshot data term index) ∈ (c.server s).service ∧ i = index.toNat
  tied : ∃ owner, host.Tied owner

structure Supported (A : World n Op) (d : Deployment n) : Prop where
  accounted : Accounted A d.cluster
  backed : ∀ s, Backed A d.cluster s (d.host s)

theorem backed_start (codec : Codec) (data : List UInt8) (A : World n Op) (c : Cluster n Op) (s : Fin n) :
    Backed A c s (.start codec data) := by
  refine ⟨nofun, ?_, nofun, id, Host.tied_start codec data⟩
  rintro i ⟨res, member⟩
  cases member

theorem supported_initial (codec : Codec) (n : Nat) :
    Supported (Replica.State.initial (Fin n) (LogEntry Op) (0 : Int)) (initial codec n) :=
  ⟨Raft.accounted_init, backed_start codec [] _ _⟩

section
variable {c : Cluster n Op} {host host' : Host} (backed : Backed A c s host) (grows : Grows A B)
  (service : (c.server s).service ⊆ (c'.server s).service)
include backed grows service

theorem Backed.mono : Backed B c' s host := by
  refine ⟨fun member is => (backed.owns member is).grows grows, fun {i} is => ?_, fun {i} is => ?_, backed.tied⟩
  · obtain ⟨index, received, same⟩ := backed.computed is
    obtain ⟨event, member, this⟩ := List.any_eq_true.mp received
    exact ⟨index, List.any_eq_true.mpr ⟨event, service member, this⟩, same⟩
  · obtain ⟨data, term, index, received, same⟩ := backed.trimming is
    exact ⟨data, term, index, service received, same⟩

/-- The server moves, and what is new is backed too. -/
theorem Backed.move (move : host.Move mover host')
    (awaits : ∀ {k : Nat} {handler i t}, host'.server.handlers[k]? = some handler →
      handler.state.awaits = some (i, t) →
      (∃ old : Handler, host.server.handlers[k]? = some old ∧ old.state.awaits = some (i, t)) ∨ Owns B s i t)
    (computed : ∀ {i}, host'.Computed i → host.Computed i ∨
      ∃ index, Raft.hasReceived (c'.server s).service index = true ∧ i = index.toNat)
    (trimming : ∀ {i}, host'.server.applier = .trimming i → host.server.applier = .trimming i ∨
      ∃ data term index, .received (.snapshot data term index) ∈ (c'.server s).service ∧ i = index.toNat) :
    Backed B c' s host' := by
  have later : Backed B c' s host := backed.mono grows service
  refine ⟨fun member is => ?_, fun is => ?_, fun is => ?_, ?_⟩
  · obtain ⟨k, here⟩ := List.getElem?_of_mem member
    rcases awaits here is with ⟨old, before, same⟩ | new
    · exact later.owns (List.mem_of_getElem? before) same
    · exact new
  · exact (computed is).elim later.computed id
  · exact (trimming is).elim later.trimming id
  · obtain ⟨owner, tied⟩ := backed.tied
    exact tied.move move

end

/-- Raft moves with the server or not at all. -/
theorem Supported.cluster {host : Host} (supported : Supported A d) (turn : Turn d s mover c' host) :
    ∃ B, Grows A B ∧ Accounted B c' ∧ ∀ t, (d.cluster.server t).service ⊆ (c'.server t).service := by
  have accounted := supported.accounted
  have steps {a : Raft.Action n Op} (stays : a.crashes = false) (next : d.cluster.step a = some c') :
      ∃ B, Grows A B ∧ Accounted B c' ∧ ∀ t, (d.cluster.server t).service ⊆ (c'.server t).service := by
    obtain ⟨B, grows, accounted'⟩ := accounted.step next
    exact ⟨B, grows, accounted', accounted.service_subset stays next⟩
  cases turn with
  | calm together _ _ =>
    rcases together with rfl | ⟨a, stays, next⟩
    · exact ⟨A, .refl A, accounted, fun t => List.Subset.refl _⟩
    · exact steps stays next
  | start _ _ next => exact steps rfl next
  | command _ _ next => exact steps rfl next
  | install _ _ next => exact steps rfl next

/-- Whoever has just called `Start` has written the entry. -/
theorem owns_start {c : Cluster n Op} {op : Op} (accounted : Accounted A c) (accounted' : Accounted B c')
    (leads : (c.server s).rf.state = .leader) (next : c.step (.start s op) = some c') :
    Owns B s ((c.server s).rf.lastIndex + 1).toNat (c.server s).rf.currentTerm.toNat := by
  obtain ⟨chief, own⟩ := accounted.own_start accounted' leads next
  have term : ((c.server s).rf.currentTerm.toNat : Int) = (c.server s).rf.currentTerm :=
    Int.toNat_of_nonneg (accounted.term_nonneg s)
  have last := (accounted.rel.server s).node.shaped.lastIndex_eq
  have before : ((c.server s).rf.lastIndex + 1).toNat - 1 = (c.server s).rf.lastIndex.toNat := by omega
  refine ⟨by rwa [term], by omega, ?_⟩
  rw [term, before]
  exact own

theorem hasReceived_applySend {c : Cluster n Op} {op : Op} {index term : Int} {msgs : List (Raft.ApplyMsg Op)}
    {lastSent : Int} {answer : Option (Nat × Raft.AppendEntryReply)}
    (under : (c.server s).batch = some ⟨.command op index term :: msgs, lastSent, answer⟩)
    (next : c.step (.applySend s) = some c') : Raft.hasReceived (c'.server s).service index = true := by
  simp only [Cluster.step, Cluster.applySend, under, Option.some.injEq] at next
  rw [← next]
  simp only [Cluster.deliver, Raft.setServer_self]
  exact Raft.hasReceived_append.mpr (.inr ⟨op, term, rfl⟩)

theorem Supported.turn {host : Host} (supported : Supported A d) (turn : Turn d s mover c' host) (grows : Grows A B)
    (accounted : Accounted B c') (service : (d.cluster.server s).service ⊆ (c'.server s).service) :
    Backed B c' s host := by
  have backed := supported.backed s
  have move := turn.move
  cases turn with
  | calm _ _ calm =>
    refine backed.move grows service move (fun here is => .inl (calm.awaits here is)) (fun is => .inl ?_)
      fun is => .inl (calm.trimming is)
    rwa [Host.Computed, calm.results] at is
  | start found leads next =>
    refine backed.move grows service move (fun {k handler i t} here is => ?_) .inl .inl
    rcases Host.getElem?_set_cases here with rfl | ⟨_, before⟩
    · cases is
      exact .inr (owns_start supported.accounted accounted leads next)
    · exact .inl ⟨handler, before, is⟩
  | @command _ op index _ _ _ _ idle under next =>
    refine backed.move grows service move (fun {k handler i t} here is => .inl ⟨handler, here, is⟩)
      (fun is => ?_) (fun is => ?_)
    · refine (Host.computed_applyCommand.mp is).imp_right fun same => ?_
      exact ⟨index, hasReceived_applySend under next, same⟩
    · simp only [Host.applyCommand] at is
      split at is <;> cases is
  | install idle received next =>
    refine backed.move grows service move (fun {k handler i t} here is => .inl ⟨handler, here, is⟩) .inl ?_
    rintro _ ⟨⟩
    exact .inr ⟨_, _, _, service (List.mem_of_getElem? received), rfl⟩

theorem Supported.step (supported : Supported A d) (next : d.step codec e = some d') :
    ∃ B, Grows A B ∧ Supported B d' := by
  rcases turn_of_step next with reset | ⟨s, host, mover, same, turn, _⟩
  · cases reset with
    | none stays stepped =>
      obtain ⟨B, grows, accounted⟩ := supported.accounted.step stepped
      refine ⟨B, grows, accounted, fun t => ?_⟩
      exact (supported.backed t).mono grows (supported.accounted.service_subset stays stepped t)
    | @crash _ c' s data stepped others =>
      obtain ⟨B, grows, accounted⟩ := supported.accounted.step stepped
      refine ⟨B, grows, accounted, fun t => ?_⟩
      by_cases here : t = s
      · subst here
        simp only [Function.update_self]
        exact backed_start codec data B c' t
      · simp only [Function.update_of_ne here]
        refine (supported.backed t).mono grows ?_
        rw [others t here]
        exact List.Subset.refl _
  · obtain ⟨B, grows, accounted, service⟩ := supported.cluster turn
    rw [same]
    refine ⟨B, grows, accounted, fun t => ?_⟩
    by_cases here : t = s
    · subst here
      simp only [Function.update_self]
      exact supported.turn turn grows accounted (service t)
    · simp only [Function.update_of_ne here]
      exact (supported.backed t).mono grows (service t)

/-- Nothing that was offered to a server covers an index that it waits for in the term it
is in. -/
theorem Supported.below (supported : Supported A d) {handler : Handler} {index : Nat}
    (is : (d.host s).server.applier = .trimming index) (member : handler ∈ (d.host s).server.handlers)
    (awaits : handler.state.awaits = some (i, t)) (alive : (d.rf s).currentTerm ≤ t) : index < i := by
  obtain ⟨data, term, received, there, rfl⟩ := (supported.backed s).trimming is
  obtain ⟨chief, positive, own⟩ := (supported.backed s).owns member awaits
  have offered := supported.accounted.origin.received there
  have small := supported.accounted.origin.le_of_own supported.accounted.rel chief own alive offered
  omega

/-- `Start` gives an index for which nothing has been computed yet. -/
theorem Supported.fresh (supported : Supported A d) {host : Host} (turn : Turn d s mover c' host) {h : Nat} {op : Op}
    (before : (d.host s).server.handlers[h]? = some ⟨op, .calling⟩)
    (after : host.server.handlers[h]? = some ⟨op, .registering i t⟩) : ¬ (d.host s).Computed i := by
  cases turn with
  | calm _ _ calm =>
    obtain ⟨old, here, awaits⟩ := calm.awaits after rfl
    rw [before] at here
    cases here
    cases awaits
  | start found leads next =>
    rcases Host.getElem?_set_cases after with new | ⟨_, here⟩
    · cases new
      intro computed
      obtain ⟨index, received, same⟩ := (supported.backed s).computed computed
      have inside := supported.accounted.received_le received
      have last := (supported.accounted.rel.server s).node.shaped.lastIndex_eq
      unfold rf at same
      omega
    · rw [before] at here
      cases here
  | command =>
    have same : (d.host s).server.handlers[h]? = some ⟨op, .registering i t⟩ := after
    rw [before] at same
    cases same
  | install =>
    have same : (d.host s).server.handlers[h]? = some ⟨op, .registering i t⟩ := after
    rw [before] at same
    cases same

/-- The handlers of an index at a server are prompt, as far as their term is not over. -/
def Prompt (d : Deployment n) (s : Fin n) (i : Nat) : Prop :=
  (d.host s).Prompt (fun t => (d.rf s).currentTerm ≤ t) i

/-- No handler of server `s` takes from another one the result of index `i` that it waits for
in the present term. -/
def Spared (s : Fin n) (i : Nat) (d : Deployment n) (e : Event n) : Prop :=
  ∀ taker ∈ Event.taker e, taker.1 = s → (d.host s).Spares (fun t => (d.rf s).currentTerm ≤ t) i taker.2

instance (s : Fin n) (i : Nat) (d : Deployment n) (e : Event n) : Decidable (Spared s i d e) := by
  unfold Spared
  infer_instance

theorem Prompt.step (prompt : Prompt d s i) (supported : Supported A d) (spared : Spared s i d e)
    (next : d.step codec e = some d') : Prompt d' s i := by
  obtain ⟨B, grows, supported'⟩ := supported.step next
  have later : (d.rf s).currentTerm ≤ (d'.rf s).currentTerm :=
    supported.accounted.rel.later supported'.accounted.rel grows s
  have stays : (d.host s).Prompt (fun t => (d'.rf s).currentTerm ≤ t) i :=
    Host.Prompt.mono prompt fun t alive => later.trans alive
  rcases turn_of_step next with reset | ⟨t, host, mover, same, turn, moves⟩
  · cases reset with
    | none => exact stays
    | @crash _ c' t data _ _ =>
      unfold Prompt
      by_cases here : s = t
      · subst here
        simp only [Function.update_self]
        exact Host.prompt_start codec data
      · simp only [Function.update_of_ne here]
        exact stays
  · unfold Prompt
    by_cases here : s = t
    · subst here
      obtain ⟨owner, tied⟩ := (supported.backed s).tied
      have moved : host.Prompt (fun t => (d.rf s).currentTerm ≤ t) i :=
        Host.Prompt.move prompt tied turn.move (fun h is => spared (s, h) (moves h is) rfl)
          (supported.fresh turn) supported.below
      rw [same]
      simp only [Function.update_self]
      rw [same] at later
      exact moved.mono fun t alive => later.trans alive
    · rw [same]
      simp only [Function.update_of_ne here]
      rw [same] at stays
      exact stays

/-- The applier of server `s` is done with index `i`, which came as a command or was
covered by a snapshot that Raft accepted. -/
def Processed (d : Deployment n) (s : Fin n) (i : Nat) : Prop :=
  ((∃ res, (i, res) ∈ (d.host s).results) ∧
    ∀ channel res, (d.host s).server.applier = .notifying channel res → (d.host s).server.applied ≠ i) ∨
  ∃ index : Int, i ≤ index ∧ .condInstalled index true ∈ (d.cluster.server s).service

/-- If no handler takes from another one the result that it waits for, a handler that waits
for its index while its server leads in its term finds the result in its channel once the
applier has processed the index. -/
theorem wake_up {es : List (Event n)} (run : after codec es = some d)
    (spared : Along (step codec) (initial codec n) es (Spared s i)) {h channel : Nat} {op : Op}
    (waiting : (d.host s).server.handlers[h]? = some ⟨op, .waiting i t channel⟩)
    (leads : (d.rf s).getState = ((t : Int), true)) (processed : Processed d s i) :
    ∃ res, (i, res) ∈ (d.host s).results ∧ (d.host s).server.channels[channel]? = some (some res) := by
  have invariant : (∃ A, Supported A d) ∧ Prompt d s i := by
    refine exec_along (P := fun _ u => (∃ A, Supported A u) ∧ Prompt u s i)
      ⟨⟨_, supported_initial codec n⟩, Host.prompt_start codec []⟩ ?_ spared run
    rintro _ u e v _ ⟨⟨A, supported⟩, prompt⟩ spared next
    obtain ⟨B, _, supported'⟩ := supported.step next
    exact ⟨⟨B, supported'⟩, prompt.step supported spared next⟩
  obtain ⟨⟨A, supported⟩, prompt⟩ := invariant
  have member := List.mem_of_getElem? waiting
  have alive : (d.rf s).currentTerm ≤ t := (congrArg Prod.fst leads).le
  obtain ⟨owner, tied⟩ := (supported.backed s).tied
  rcases processed with ⟨computed, done⟩ | ⟨index, covers, installed⟩
  · exact prompt.result tied member alive computed done
  · -- no snapshot covers an index of the term in which the server leads
    obtain ⟨chief, positive, own⟩ := (supported.backed s).owns member rfl
    obtain ⟨data, term, received⟩ := supported.accounted.origin.installed installed
    have offered := supported.accounted.origin.received received
    have small := supported.accounted.origin.le_of_own supported.accounted.rel chief own alive offered
    omega

/-- The runs on fixed inputs take no snapshots. -/
def noSnapshots : Codec := ⟨fun _ => [], fun _ => .empty⟩

def putBy (client : Int) : Op := ⟨.put, [97], [1], client, 1⟩

/-- A server wins an election with the vote of one peer. -/
def wins (s peer : Fin 3) (ballot call : Nat) : List (Event 3) :=
  [.raft (.electionTimeout s), .raft (.election s), .raft (.requestVote s ballot peer), .raft (.handleVote call),
    .raft (.requestVoteReply s ballot peer call), .raft (.countVote s ballot peer)]

/-- A write of client 1 is stored by server 1, committed and applied. -/
def writeRun : List (Event 3) :=
  wins 0 1 0 0 ++ [.handle 0 (putBy 1), .start 0 0, .register 0 0, .raft (.broadcast 0), .raft (.replicate 0 0),
    .raft (.handleAppend 1), .raft (.appendReply 0 0 1), .command 0, .notify 0]

/-- Server 0 leads term 1 and two handlers wait for the indices 1 and 2. Server 1, which
leads term 2, replaces both entries by one. Server 0 leads again in term 3, and a third
handler gets index 2 and with it the channel of the second. -/
def overwriteRun : List (Event 3) :=
  wins 0 1 0 0 ++ [.handle 0 (putBy 1), .handle 0 (putBy 2), .start 0 0, .register 0 0, .start 0 1, .register 0 1] ++
  wins 1 2 0 1 ++ [.handle 1 (putBy 3), .start 1 0, .raft (.broadcast 1), .raft (.replicate 1 0),
    .raft (.handleAppend 2)] ++
  wins 0 2 1 3 ++ [.handle 0 (putBy 4), .start 0 2, .register 0 2]

/-- The entry of the third handler is stored by server 1 and committed. -/
def commitRun : List (Event 3) :=
  [.raft (.broadcast 0), .raft (.replicate 0 0), .raft (.handleAppend 4), .raft (.appendReply 0 0 4)]

/-- The second handler keeps off the channel, and returns only when it has the result for
the third. -/
def sparedRun : List (Event 3) :=
  overwriteRun ++ commitRun ++ [.command 0, .notify 0, .command 0, .notify 0, .timeout 0 1, .leave 0 1]

theorem sparedRun_runs : (after noSnapshots sparedRun).isSome = true := by decide +kernel

theorem wake_up_shared : ∃ d, after noSnapshots sparedRun = some d ∧
    (d.host 0).server.handlers[2]? = some ⟨putBy 4, .waiting 2 3 1⟩ ∧
    ∃ res, (2, res) ∈ (d.host 0).results ∧ (d.host 0).server.channels[1]? = some (some res) := by
  have spared : Along (step noSnapshots) (initial noSnapshots 3) sparedRun (Spared 0 2) := by decide +kernel
  refine ⟨_, after_final noSnapshots sparedRun sparedRun_runs, rfl, ?_⟩
  exact wake_up (after_final noSnapshots sparedRun sparedRun_runs) spared (h := 2) rfl (by decide)
    (.inl ⟨⟨⟨putBy 4, []⟩, by decide⟩, nofun⟩)

/-- The old handlers time out and take the channel of index 2 out of `notify`. -/
def removedRun : List (Event 3) :=
  overwriteRun ++ [.timeout 0 0, .leave 0 0, .timeout 0 1, .leave 0 1] ++ commitRun ++ [.command 0, .command 0]

/-- The second handler takes the result that is meant for the third. -/
def takenRun : List (Event 3) :=
  overwriteRun ++ commitRun ++ [.command 0, .notify 0, .command 0, .notify 0, .take 0 1]

theorem removedRun_runs : (after noSnapshots removedRun).isSome = true := by decide +kernel

theorem takenRun_runs : (after noSnapshots takenRun).isSome = true := by decide +kernel

/-- Handlers that share an index lose each other's results: the third handler waits on an
empty channel although its server leads in its term and has applied its index. -/
theorem wake_up_lost :
    (∃ d, after noSnapshots removedRun = some d ∧
      (d.host 0).server.handlers[2]? = some ⟨putBy 4, .waiting 2 3 1⟩ ∧ (d.rf 0).getState = (3, true) ∧
      Processed d 0 2 ∧ (d.host 0).server.channels[1]? = some none ∧ (d.host 0).server.notify 2 = none) ∧
    ∃ d, after noSnapshots takenRun = some d ∧
      (d.host 0).server.handlers[2]? = some ⟨putBy 4, .waiting 2 3 1⟩ ∧ (d.rf 0).getState = (3, true) ∧
      Processed d 0 2 ∧ (d.host 0).server.channels[1]? = some none := by
  have result : (2, (⟨putBy 4, []⟩ : ApplyResult)) ∈ [(1, ⟨putBy 3, []⟩), (2, ⟨putBy 4, []⟩)] := by decide
  refine ⟨⟨_, after_final noSnapshots removedRun removedRun_runs, rfl, by decide, ?_, rfl, rfl⟩,
    _, after_final noSnapshots takenRun takenRun_runs, rfl, by decide, ?_, rfl⟩
  · exact .inl ⟨⟨_, result⟩, nofun⟩
  · exact .inl ⟨⟨_, result⟩, nofun⟩

end Deployment

end DistSys.KvRaft
