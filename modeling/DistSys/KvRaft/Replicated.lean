import DistSys.KvRaft.Steps
import DistSys.KvRaft.Results
import Mathlib.Data.Set.Countable

namespace DistSys.KvRaft

open Raft (Cluster World LogEntry Accounted Blob Positioned)
open Replica (Grows Committed)

/-- labgob restores the states that it has encoded, and encodes none of them as nothing. -/
structure Codec.Lawful (codec : Codec) : Prop where
  decode : ∀ log, codec.decode (codec.encode (KVState.replay log)) = KVState.replay log
  nonempty : ∀ log, codec.encode (KVState.replay log) ≠ []

def commands (log : List (LogEntry Op)) : List Op := log.map LogEntry.command

theorem commands_concat (log : List (LogEntry Op)) (entry : LogEntry Op) :
    commands (log ++ [entry]) = commands log ++ [entry.command] :=
  List.map_append

theorem length_commands (log : List (LogEntry Op)) : (commands log).length = log.length :=
  List.length_map _

/-- A snapshot is empty, or it holds the state after the entries that it covers. -/
def Holds (codec : Codec) (data : Blob Op) : Prop :=
  data.bytes = [] ∧ data.covers = [] ∨
    data.bytes ≠ [] ∧ codec.decode data.bytes = KVState.replay (commands data.covers)

section
variable {codec : Codec} {data : Blob Op}

theorem Holds.restore_empty (holds : Holds codec data) :
    codec.restore KVState.empty data.bytes = KVState.replay (commands data.covers) := by
  unfold Codec.restore
  rcases holds with ⟨none, nothing⟩ | ⟨some, decoded⟩
  · rw [if_pos none, nothing]
    rfl
  · rw [if_neg some, decoded]

theorem Holds.restore (holds : Holds codec data) (covers : data.covers ≠ []) (kv : KVState) :
    codec.restore kv data.bytes = KVState.replay (commands data.covers) := by
  rcases holds with ⟨_, nothing⟩ | ⟨some, decoded⟩
  · exact absurd nothing covers
  · rw [Codec.restore, if_neg some, decoded]

theorem Codec.Lawful.holds (lawful : codec.Lawful) (log : List (LogEntry Op)) :
    Holds codec ⟨codec.encode (KVState.replay (commands log)), log⟩ :=
  .inr ⟨lawful.nonempty _, lawful.decode _⟩

end

/-- The result at index `i` is the one of the log. -/
def Computes (log : List Op) (i : Nat) (result : ApplyResult) : Prop :=
  ∃ before op, before ++ [op] <+: log ∧ i = before.length + 1 ∧ result = ((KVState.replay before).applyOp op).2

theorem Computes.mono {log longer : List Op} {i : Nat} {result : ApplyResult} (computes : Computes log i result)
    (part : log <+: longer) : Computes longer i result := by
  obtain ⟨before, op, inside, place, value⟩ := computes
  exact ⟨before, op, inside.trans part, place, value⟩

variable {n : Nat} {codec : Codec} {d d' : Deployment n} {s t : Fin n} {A B : World n Op} {e : Event n}
variable {c c' : Cluster n Op} {a : Raft.Action n Op}

namespace Deployment

/-- What Raft guarantees to the servers as long as nothing is disturbed. -/
structure Underlying (codec : Codec) (A : World n Op) (c : Cluster n Op) : Prop where
  accounted : Accounted A c
  positioned : ∀ s, Positioned (c.server s).delivery
  contents : Raft.Contents (Holds codec) c

theorem underlying_init (codec : Codec) (n : Nat) :
    Underlying codec (Replica.State.initial (Fin n) (LogEntry Op) (0 : Int)) (Raft.init n Op) where
  accounted := Raft.accounted_init
  positioned s := Raft.positioned_boot s Raft.makePersister
  contents := Raft.contents_init (.inl ⟨rfl, rfl⟩)

theorem Underlying.step (underlying : Underlying codec A c) (calm : Raft.Undisturbed c a)
    (next : c.step a = some c')
    (made : ∀ s index bytes, a = .snapshot s index bytes → Raft.hasReceived (c.server s).service index = true →
      Holds codec ⟨bytes, (c.server s).rf.fullLog.take index.toNat⟩) :
    ∃ B, Grows A B ∧ Underlying codec B c' := by
  obtain ⟨B, grows, accounted'⟩ := underlying.accounted.step next
  exact ⟨B, grows, accounted', underlying.accounted.positioned underlying.positioned calm next,
    underlying.contents.step underlying.accounted next made⟩

/-- The server has applied the log, which ends where it stands. -/
structure Applies (server : Raft.Server n Op) (host : Host) (log : List (LogEntry Op)) : Prop where
  position : Raft.position server.bootIndex server.service = some (log.length : Int)
  kv : host.server.kv = KVState.replay (commands log)
  applied : Raft.hasReceived server.service host.server.applied = true → host.server.applied = log.length
  results : ∀ i result, (i, result) ∈ host.results → Computes (commands log) i result

section
variable {server server' : Raft.Server n Op} {host host' : Host} {log longer : List (LogEntry Op)}

theorem Applies.still (applies : Applies server host log) (still : Raft.Still server server')
    (keeps : host.Keeps host') : Applies server' host' log where
  position := still.position.trans applies.position
  kv := keeps.server.kv.trans applies.kv
  applied received := by
    rw [keeps.server.applied] at received ⊢
    exact applies.applied (still.hasReceived received)
  results := by
    rw [keeps.results]
    exact applies.results

/-- The log with one more entry, if the entry is the next one. -/
theorem Applies.next_log (applies : Applies server host log) {op : Op} {index term : Int}
    (boot : server'.bootIndex = server.bootIndex)
    (service : server'.service = server.service ++ [.received (.command op index term)])
    (ordered : Raft.position server'.bootIndex server'.service ≠ none) : index = log.length + 1 := by
  rw [boot, service, Raft.position_append, applies.position] at ordered
  by_contra other
  refine ordered ?_
  simp only [Option.bind_some, Raft.position, if_neg other]

theorem Applies.command (applies : Applies server host log) (entry : LogEntry Op) {index term : Int}
    (boot : server'.bootIndex = server.bootIndex)
    (service : server'.service = server.service ++ [.received (.command entry.command index term)])
    (next : index = log.length + 1) :
    Applies server' (host.applyCommand entry.command index.toNat) (log ++ [entry]) where
  position := by
    rw [boot, service, Raft.position_append, applies.position]
    simp only [Option.bind_some, Raft.position, next, List.length_append, List.length_singleton]
    rfl
  kv := by
    rw [commands_concat, KVState.replay_concat, ← applies.kv]
    rfl
  applied _ := by
    change index.toNat = _
    rw [List.length_append, List.length_singleton]
    omega
  results i result member := by
    rw [commands_concat]
    rcases List.mem_append.mp member with old | new
    · exact (applies.results i result old).mono (List.prefix_append _ _)
    · cases List.mem_singleton.mp new
      refine ⟨commands log, entry.command, List.prefix_rfl, ?_, ?_⟩
      · rw [length_commands]
        omega
      · rw [applies.kv]

theorem Applies.refused (applies : Applies server host log) {index : Int} {data : List UInt8} {place : Nat}
    (boot : server'.bootIndex = server.bootIndex)
    (service : server'.service = server.service ++ [.condInstalled index false]) :
    Applies server' (host.applySnapshot codec false data place) log where
  position := by
    rw [boot, service, Raft.position_append, applies.position]
    rfl
  kv := applies.kv
  applied received := by
    rw [service] at received
    rcases Raft.hasReceived_append.mp received with old | ⟨_, _, ⟨⟩⟩
    exact applies.applied old
  results := applies.results

theorem Applies.install (applies : Applies server host log) {data : Blob Op} (holds : Holds codec data)
    (some : data.covers ≠ []) (further : log <+: data.covers) (boot : server'.bootIndex = server.bootIndex)
    (service : server'.service = server.service ++ [.condInstalled data.covers.length true]) :
    Applies server' (host.applySnapshot codec true data.bytes data.covers.length) data.covers where
  position := by
    rw [boot, service, Raft.position_append, applies.position]
    rfl
  kv := holds.restore some host.server.kv
  applied _ := rfl
  results i result member := (applies.results i result member).mono (further.map _)

theorem applies_start {data : Blob Op} (holds : Holds codec data) (boot : server.bootIndex = data.covers.length)
    (service : server.service = []) : Applies server (.start codec data.bytes) data.covers where
  position := by
    rw [service, boot]
    rfl
  kv := holds.restore_empty
  applied received := by
    rw [service] at received
    cases received
  results := nofun

end

/-- Every server has applied a committed log. -/
structure Replicated (codec : Codec) (A : World n Op) (d : Deployment n) : Prop where
  underlying : Underlying codec A d.cluster
  applies : ∀ s, ∃ log term, Committed LogEntry.term A term log ∧ Applies (d.cluster.server s) (d.host s) log

theorem replicated_initial (codec : Codec) (n : Nat) :
    Replicated codec (Replica.State.initial (Fin n) (LogEntry Op) (0 : Int)) (initial codec n) where
  underlying := underlying_init codec n
  applies s := by
    have holds : Holds codec ⟨[], []⟩ := .inl ⟨rfl, rfl⟩
    exact ⟨[], 0, .inl rfl, applies_start holds rfl rfl⟩

/-- The servers that do not act keep what they have. -/
theorem Replicated.others (replicated : Replicated codec A d) (grows : Grows A B) {host' : Host}
    (others : ∀ t, t ≠ s → c'.server t = d.cluster.server t)
    (acts : ∃ log term, Committed LogEntry.term B term log ∧ Applies (c'.server s) host' log) (t : Fin n) :
    ∃ log term, Committed LogEntry.term B term log ∧
      Applies (c'.server t) (Function.update d.host s host' t) log := by
  by_cases here : t = s
  · subst here
    rwa [Function.update_self]
  · obtain ⟨log, term, committed, applies⟩ := replicated.applies t
    rw [Function.update_of_ne here, others t here]
    exact ⟨log, term, committed.grows grows, applies⟩

/-- The servers do nothing, or only what leaves their states alone. -/
theorem Replicated.still (replicated : Replicated codec A d) (grows : Grows A B)
    (still : ∀ t, Raft.Still (d.cluster.server t) (d'.cluster.server t)) (keeps : ∀ t, (d.host t).Keeps (d'.host t))
    (t : Fin n) :
    ∃ log term, Committed LogEntry.term B term log ∧ Applies (d'.cluster.server t) (d'.host t) log := by
  obtain ⟨log, term, committed, applies⟩ := replicated.applies t
  exact ⟨log, term, committed.grows grows, applies.still (still t) (keeps t)⟩

theorem Replicated.step_command (replicated : Replicated codec A d) {op : Op} {index term : Int}
    {msgs : List (Raft.ApplyMsg Op)} {lastSent : Int} {answer : Option (Nat × Raft.AppendEntryReply)}
    (under : (d.cluster.server s).batch = some ⟨.command op index term :: msgs, lastSent, answer⟩)
    (next : d.cluster.step (.applySend s) = some c') (grows : Grows A B) (underlying : Underlying codec B c') :
    ∃ log term, Committed LogEntry.term B term log ∧
      Applies (c'.server s) ((d.host s).applyCommand op index.toNat) log := by
  obtain ⟨log, t, committed, applies⟩ := replicated.applies s
  have rel := replicated.underlying.accounted.rel
  have observes := Raft.observes_applySend under next
  have following := applies.next_log observes.boot observes.service (underlying.positioned s).ne_none
  obtain ⟨longer, settled, length, last⟩ := ((rel.server s).batch _ under).msgs _ (List.mem_cons_self ..)
  -- the message is the next entry of the log that the server has applied
  have part : log <+: longer := rel.inv.committed_isPrefix committed settled (by omega)
  obtain ⟨rest, rfl⟩ := part
  rw [List.length_append] at length
  obtain ⟨entry, rfl⟩ := List.length_eq_one_iff.mp (show rest.length = 1 by omega)
  rw [List.getLast?_concat, Option.some.injEq] at last
  subst last
  exact ⟨log ++ [⟨op, term⟩], _, settled.grows grows,
    applies.command ⟨op, term⟩ observes.boot observes.service following⟩

theorem Replicated.step_install (replicated : Replicated codec A d) {event : Nat} {data : Blob Op} {term index : Int}
    (found : (d.cluster.server s).service[event]? = some (.received (.snapshot data term index)))
    (onward : Raft.InstallsOnward d.cluster (.condInstall s event))
    (next : d.cluster.step (.condInstall s event) = some c') (grows : Grows A B) :
    ∃ log term', Committed LogEntry.term B term' log ∧ Applies (c'.server s) ((d.host s).applySnapshot codec
      ((d.rf s).condInstallSnapshot term index data).2 data.bytes index.toNat) log := by
  obtain ⟨log, t, committed, applies⟩ := replicated.applies s
  have accounted := replicated.underlying.accounted
  have observes := Raft.observes_condInstall found next
  have service := observes.service
  unfold rf
  rcases Raft.condInstallSnapshot_cases (d.cluster.server s).rf term index data with ⟨_, refused⟩ | ⟨above, accepted⟩
  · rw [refused] at service ⊢
    exact ⟨log, t, committed.grows grows, applies.refused observes.boot service⟩
  · rw [accepted] at service ⊢
    have member := List.mem_of_getElem? found
    obtain ⟨settled, rfl, _⟩ := (accounted.rel.server s).service data term index member
    have base := (accounted.rel.server s).node.shaped.base_nonneg
    have some : data.covers ≠ [] := by
      rintro empty
      rw [empty] at above
      simp only [List.length_nil] at above
      omega
    -- the snapshot is not behind the server
    have reached := onward (s, (data.covers.length : Int)) (Raft.installing_eq found) above _ applies.position
    have part : log <+: data.covers := accounted.rel.inv.committed_isPrefix committed settled (by omega)
    have holds := replicated.underlying.contents.received accounted.origin member
    rw [Int.toNat_natCast]
    exact ⟨data.covers, _, settled.grows grows, applies.install holds some part observes.boot service⟩

/-- What a server encodes after a command that it has received is the state of the log of
its peer up to this command. -/
theorem Replicated.made (replicated : Replicated codec A d) (lawful : codec.Lawful)
    (received : Raft.hasReceived (d.cluster.server s).service (d.host s).server.applied = true) :
    Holds codec ⟨codec.encode (d.host s).server.kv,
      (d.cluster.server s).rf.fullLog.take (d.host s).server.applied⟩ := by
  obtain ⟨log, term, committed, applies⟩ := replicated.applies s
  have applied := applies.applied received
  rw [applied] at received ⊢
  rw [replicated.underlying.accounted.take_eq committed received, applies.kv]
  exact lawful.holds log

theorem Replicated.step (replicated : Replicated codec A d) (lawful : codec.Lawful)
    (calm : ∀ a ∈ d.action codec e, Raft.Undisturbed d.cluster a ∧ Raft.InstallsOnward d.cluster a)
    (next : d.step codec e = some d') : ∃ B, Grows A B ∧ Replicated codec B d' := by
  have goes := goes_of_step next
  generalize d.action codec e = act at calm goes
  cases goes with
  | alone same keeps =>
    refine ⟨A, .refl A, same ▸ replicated.underlying, replicated.still (.refl A) (fun t => ?_) keeps⟩
    rw [same]
    exact .refl _
  | idles idle stepped keeps =>
    obtain ⟨B, grows, underlying⟩ := replicated.underlying.step (calm _ rfl).1 stepped (by
      rintro _ _ _ rfl
      cases idle)
    exact ⟨B, grows, underlying, replicated.still grows (Raft.still_of_step stepped idle) keeps⟩
  | command under stepped =>
    obtain ⟨B, grows, underlying⟩ := replicated.underlying.step (calm _ rfl).1 stepped nofun
    have acts := replicated.step_command under stepped grows underlying
    exact ⟨B, grows, underlying, replicated.others grows (Raft.observes_applySend under stepped).others acts⟩
  | save stepped =>
    obtain ⟨B, grows, underlying⟩ := replicated.underlying.step (calm _ rfl).1 stepped (by
      rintro _ _ _ ⟨⟩ received
      exact replicated.made lawful received)
    exact ⟨B, grows, underlying, replicated.still grows (Raft.still_snapshot stepped) fun t => .refl _⟩
  | install found stepped =>
    obtain ⟨B, grows, underlying⟩ := replicated.underlying.step (calm _ rfl).1 stepped nofun
    have acts := replicated.step_install found (calm _ rfl).2 stepped grows
    exact ⟨B, grows, underlying, replicated.others grows (Raft.observes_condInstall found stepped).others acts⟩
  | @crash s a persister c' down stepped same =>
    obtain ⟨B, grows, underlying⟩ := replicated.underlying.step (calm _ rfl).1 stepped (by
      rintro _ _ _ rfl
      cases down)
    have started : c'.server s = Raft.boot s persister := by
      rw [same, Raft.setServer_self]
    obtain ⟨settled, length, _⟩ := (underlying.accounted.rel.server s).node.snapshotRel
    refine ⟨B, grows, underlying, replicated.others grows (fun t away => ?_) ⟨_, _, settled, ?_⟩⟩
    · rw [same, Raft.setServer_others d.cluster s _ t away]
    · refine applies_start (underlying.contents.stored s) ?_ ?_
      · rw [length, started]
        rfl
      · rw [started]
        rfl

/-- If snapshots can be decoded, Raft is never disturbed and no snapshot takes a server back,
there is one log of which every server has applied the part up to where it stands,
whatever it has received as commands, installed as snapshots or read back after a crash.
All results of all servers are those of this log. -/
theorem servers_replay_one_log {es : List (Event n)} (lawful : codec.Lawful) (run : after codec es = some d)
    (calm : Along (step codec) (initial codec n) es fun u e =>
      ∀ a ∈ u.action codec e, Raft.Undisturbed u.cluster a ∧ Raft.InstallsOnward u.cluster a) :
    ∃ log : List Op, ∀ s, ∃ k ≤ log.length,
      Raft.position (d.cluster.server s).bootIndex (d.cluster.server s).service = some (k : Int) ∧
      (d.host s).server.kv = KVState.replay (log.take k) ∧
      ∀ i result, (i, result) ∈ (d.host s).results → i ≤ k ∧ Computes log i result := by
  have invariant : ∃ A, Replicated codec A d := by
    refine exec_along (P := fun _ u => ∃ A, Replicated codec A u) ⟨_, replicated_initial codec n⟩ ?_ calm run
    rintro _ u e v _ ⟨A, replicated⟩ undisturbed next
    obtain ⟨B, _, later⟩ := replicated.step lawful undisturbed next
    exact ⟨B, later⟩
  obtain ⟨A, replicated⟩ := invariant
  choose logs terms committed applies using replicated.applies
  obtain ⟨common, parts⟩ :=
    replicated.underlying.accounted.rel.inv.exists_common_log fun s => ⟨terms s, committed s⟩
  refine ⟨commands common, fun s => ⟨(logs s).length, ?_, (applies s).position, ?_, fun i result member => ?_⟩⟩
  · rw [length_commands]
    exact (parts s).length_le
  · rw [(applies s).kv, commands, commands, ← List.map_take, ← List.prefix_iff_eq_take.mp (parts s)]
  · have computes := (applies s).results i result member
    refine ⟨?_, computes.mono ((parts s).map _)⟩
    obtain ⟨before, op, inside, rfl, _⟩ := computes
    have bound := inside.length_le
    rwa [List.length_append, List.length_singleton, length_commands] at bound

instance : Countable OpType :=
  Function.Injective.countable (f := fun opType => opType.ctorIdx) fun first second same => by
    cases first <;> cases second <;> first | rfl | cases same

instance : Countable Op := by
  have bytes : Countable UInt8 := Function.Injective.countable (f := UInt8.toNat) fun _ _ => UInt8.toNat_inj.mp
  have text : Countable GoString := inferInstanceAs (Countable (List UInt8))
  refine Function.Injective.countable (f := fun op : Op =>
    (op.opType, op.key, op.value, op.clientID, op.requestID)) ?_
  rintro ⟨_, _, _, _, _⟩ ⟨_, _, _, _, _⟩ same
  cases same
  rfl

/-- Only countably many states have to be encoded. -/
theorem exists_lawful : ∃ codec : Codec, codec.Lawful := by
  have inhabited : Nonempty KVState := ⟨.empty⟩
  obtain ⟨number, injective⟩ := Set.countable_iff_exists_injOn.mp (Set.countable_range KVState.replay)
  refine ⟨⟨fun kv => List.replicate (number kv + 1) 0,
    fun bytes => Function.invFunOn number (Set.range KVState.replay) (bytes.length - 1)⟩, ?_, ?_⟩
  · intro log
    have length : (List.replicate (number (KVState.replay log) + 1) (0 : UInt8)).length - 1 =
        number (KVState.replay log) := by
      rw [List.length_replicate, Nat.add_sub_cancel]
    change Function.invFunOn number _ ((List.replicate _ (0 : UInt8)).length - 1) = _
    rw [length]
    exact injective.leftInvOn_invFunOn ⟨log, rfl⟩
  · intro log
    exact List.replicate_succ_ne_nil

noncomputable def labgob : Codec := exists_lawful.choose

/-- The server that has applied the write takes a snapshot. -/
def savedRun : List (Event 3) := writeRun ++ [.maybeSnapshot 0]

theorem savedRun_runs : (after labgob savedRun).isSome = true := by decide +kernel

theorem savedRun_calm : Along (step labgob) (initial labgob 3) savedRun fun u e =>
    ∀ a ∈ u.action labgob e, Raft.Undisturbed u.cluster a ∧ Raft.InstallsOnward u.cluster a := by decide +kernel

theorem servers_replay_one_log_saved : ∃ d, after labgob savedRun = some d ∧ (d.rf 0).lastIncludedIndex = 1 ∧
    ∃ log : List Op, ∀ s, ∃ k ≤ log.length,
      Raft.position (d.cluster.server s).bootIndex (d.cluster.server s).service = some (k : Int) ∧
      (d.host s).server.kv = KVState.replay (log.take k) ∧
      ∀ i result, (i, result) ∈ (d.host s).results → i ≤ k ∧ Computes log i result :=
  ⟨_, after_final labgob savedRun savedRun_runs, by decide +kernel,
    servers_replay_one_log exists_lawful.choose_spec (after_final labgob savedRun savedRun_runs) savedRun_calm⟩

end Deployment

end DistSys.KvRaft
