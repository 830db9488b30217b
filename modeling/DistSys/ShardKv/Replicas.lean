import DistSys.ShardKv.Apply

namespace DistSys.ShardKv

open Shardctrler (NShards Config)

/-- The orders in which the three loops of `applyInsertShards` visit the maps they
range over. -/
structure Orders where
  shards : List (Fin NShards)
  data : Fin NShards → List GoString
  operations : List Int

/-- The orders are orders of the maps of this message. -/
structure Orders.Of (orders : Orders) (info : ShardOperationResponse) : Prop where
  shards : Enumerates orders.shards info.shards
  data : ∀ i shardData, info.shards i = some shardData → Enumerates (orders.data i) shardData
  operations : Enumerates orders.operations info.lastOperations

/-- What a snapshot encodes. -/
structure Snapshot where
  stateMachines : Fin NShards → Shard
  lastOperations : Operations
  currentConfig : Config
  lastConfig : Config

namespace ShardKV

def insertLoop (orders : Orders) (info : ShardOperationResponse) (kv : ShardKV) : ShardKV :=
  orders.shards.foldl (fun kv shardID =>
    match info.shards shardID with
    | some shardData =>
      if (kv.stateMachines shardID).status = .pulling then
        kv.setShard shardID ⟨copyMap (orders.data shardID) shardData, .gcing⟩
      else kv
    | none => kv) kv

def operationsLoop (orders : Orders) (info : ShardOperationResponse) (kv : ShardKV) : ShardKV :=
  orders.operations.foldl (fun kv clientId =>
    match info.lastOperations clientId with
    | some opCtx =>
      match kv.lastOperations clientId with
      | some lastOp =>
        if lastOp.maxAppliedCommandId < opCtx.maxAppliedCommandId then kv.setOperation clientId opCtx else kv
      | none => kv.setOperation clientId opCtx
    | none => kv) kv

/-- `applyInsertShards` with its loops, which visit the maps in some order. -/
def insertShardsIn (orders : Orders) (kv : ShardKV) (info : ShardOperationResponse) :
    ShardKV × CommandResponse :=
  if info.configNum = kv.currentConfig.num then
    (operationsLoop orders info (insertLoop orders info kv), ⟨.ok, []⟩)
  else (kv, ⟨.ok, []⟩)

/-- The switch of the applier, with the orders its loops happen to take. -/
def applyIn (orders : Orders) (kv : ShardKV) : Command → ShardKV × CommandResponse
  | .insertShards info => kv.insertShardsIn orders info
  | command => kv.apply command

/-- The encoding half of `takeSnapshot`. -/
def encodeSnapshot (kv : ShardKV) : Snapshot :=
  ⟨kv.stateMachines, kv.lastOperations, kv.currentConfig, kv.lastConfig⟩

/-- An empty snapshot is not decoded. -/
def restoreSnapshot (kv : ShardKV) : Option Snapshot → ShardKV
  | none => kv
  | some snapshot =>
    { kv with
      stateMachines := snapshot.stateMachines
      lastOperations := snapshot.lastOperations
      currentConfig := snapshot.currentConfig
      lastConfig := snapshot.lastConfig }

end ShardKV

/-- The orders fit the command that is applied in them. -/
def Orders.For (orders : Orders) : Command → Prop
  | .insertShards info => orders.Of info
  | _ => True

/-- One incarnation of a server with what its persister holds: the snapshot and the
index up to which Raft has discarded the log for it. -/
structure Replica where
  kv : ShardKV
  lastApplied : Nat
  lastIncludedIndex : Nat
  snapshot : Option Snapshot

namespace Replica

/-- The index up to which the log has gone into the state. After a restart
`lastApplied` is 0, and Raft goes on after its snapshot. -/
def applied (replica : Replica) : Nat :=
  max replica.lastApplied replica.lastIncludedIndex

/-- The applier on a command message. -/
def receive (orders : Orders) (replica : Replica) (index : Nat) (command : Command) : Replica :=
  if index ≤ replica.lastApplied then replica
  else { replica with kv := (replica.kv.applyIn orders command).1, lastApplied := index }

/-- `takeSnapshot` after the last command; Raft ignores it at an index it has discarded
already. -/
def takeSnapshot (replica : Replica) : Replica :=
  if replica.lastApplied ≤ replica.lastIncludedIndex then replica
  else
    { replica with
      lastIncludedIndex := replica.lastApplied
      snapshot := some replica.kv.encodeSnapshot }

/-- The applier on a snapshot message, with `CondInstallSnapshot`. -/
def installSnapshot (replica : Replica) (index : Nat) (snapshot : Snapshot) : Replica :=
  if index ≤ replica.lastIncludedIndex then replica
  else
    { kv := replica.kv.restoreSnapshot (some snapshot)
      lastApplied := index
      lastIncludedIndex := index
      snapshot := some snapshot }

/-- `StartServer` over the same persister. -/
def restart (gid : Int) (replica : Replica) : Replica :=
  { replica with kv := (startServer gid).restoreSnapshot replica.snapshot, lastApplied := 0 }

def start (gid : Int) : Replica :=
  ⟨startServer gid, 0, 0, none⟩

end Replica

/-- The replicas of a group, and every snapshot that a leader among them has ever sent,
with its index. -/
structure Replicas where
  replica : Nat → Replica
  sent : List (Nat × Snapshot)

def Replicas.set (group : Replicas) (r : Nat) (replica : Replica) : Replicas :=
  { group with replica := Function.update group.replica r replica }

/-- What can happen to the replicas that apply one log: a command comes that is next or
was applied before, a snapshot is taken, sent from the persister of a replica, or
comes, however late and often, and a server restarts. -/
inductive Replicas.Step (gid : Int) (log : List Command) (group : Replicas) : Replicas → Prop
  | command {r index : Nat} {orders : Orders} {command : Command} : 0 < index →
      log[index - 1]? = some command →
      (index ≤ (group.replica r).lastApplied ∨ index = (group.replica r).applied + 1) →
      orders.For command →
      Step gid log group (group.set r ((group.replica r).receive orders index command))
  | takeSnapshot {r : Nat} : Step gid log group (group.set r (group.replica r).takeSnapshot)
  | send {r : Nat} {snapshot : Snapshot} : (group.replica r).snapshot = some snapshot →
      Step gid log group
        { group with sent := group.sent ++ [((group.replica r).lastIncludedIndex, snapshot)] }
  | install {r index : Nat} {snapshot : Snapshot} : (index, snapshot) ∈ group.sent →
      Step gid log group (group.set r ((group.replica r).installSnapshot index snapshot))
  | restart {r : Nat} : Step gid log group (group.set r ((group.replica r).restart gid))

/-- What the replicas of a group can be after any number of steps. -/
inductive Replicas.Reached (gid : Int) (log : List Command) : Replicas → Prop
  | start : Reached gid log ⟨fun _ => .start gid, []⟩
  | step {group next : Replicas} : Reached gid log group → Step gid log group next → Reached gid log next

/-! The order of the loops -/

namespace ShardKV

variable {orders : Orders} {info : ShardOperationResponse} {kv : ShardKV}

/-- In any order the first loop gives every shard the data that came for it. -/
theorem insertLoop_eq (orderly : orders.Of info) :
    insertLoop orders info kv =
      { kv with stateMachines := fun i => (kv.stateMachines i).insert (info.shards i) } := by
  have hom : insertLoop orders info kv = { kv with
      stateMachines := orders.shards.foldl
        (fun shards i => Function.update shards i ((shards i).insert (info.shards i))) kv.stateMachines } := by
    refine List.foldl_hom (fun shards => { kv with stateMachines := shards }) fun shards i => ?_
    cases arrives : info.shards i with
    | none => simp only [Shard.insert, Function.update_eq_self]
    | some shardData =>
      simp only [Shard.insert, copyMap_eq (orderly.data i shardData arrives)]
      split
      next => rfl
      next => rw [Function.update_eq_self]
  rw [hom, foldl_update (fun i (shard : Shard) => shard.insert (info.shards i)) orderly.shards.nodup]
  congr 1
  funext i
  split
  next => rfl
  next absent => rw [orderly.shards.eq_none absent, Shard.insert]

/-- In any order the second loop merges the two tables. -/
theorem operationsLoop_eq (orderly : orders.Of info) :
    operationsLoop orders info kv =
      { kv with lastOperations := fun clientId =>
          mergeContext (kv.lastOperations clientId) (info.lastOperations clientId) } := by
  have hom : operationsLoop orders info kv = { kv with
      lastOperations := orders.operations.foldl
        (fun table clientId => Function.update table clientId
          (mergeContext (table clientId) (info.lastOperations clientId))) kv.lastOperations } := by
    refine List.foldl_hom (fun table => { kv with lastOperations := table }) fun table clientId => ?_
    cases info.lastOperations clientId with
    | none => simp only [mergeContext, Function.update_eq_self]
    | some opCtx =>
      cases mine : table clientId with
      | none => simp only [mine, mergeContext, setOperation]
      | some lastOp =>
        simp only [mine, mergeContext, setOperation]
        split
        next => rfl
        next => rw [← mine, Function.update_eq_self]
  rw [hom, foldl_update (fun clientId mine => mergeContext mine (info.lastOperations clientId))
    orderly.operations.nodup]
  congr 1
  funext clientId
  split
  next => rfl
  next absent => rw [orderly.operations.eq_none absent, mergeContext]

/-- What a command does is independent of the orders of the loops. -/
theorem applyIn_eq {command : Command} (orderly : orders.For command) :
    kv.applyIn orders command = kv.apply command := by
  cases command with
  | insertShards info =>
    rw [applyIn, apply, insertShardsIn, applyInsertShards, insertLoop_eq orderly, operationsLoop_eq orderly]
  | operation => rfl
  | configuration => rfl
  | deleteShards => rfl
  | emptyEntry => rfl

theorem restoreSnapshot_encodeSnapshot {kv' : ShardKV} (gid : kv.gid = kv'.gid) :
    kv.restoreSnapshot (some kv'.encodeSnapshot) = kv' := by
  cases kv'
  simp only at gid
  rw [restoreSnapshot, gid]
  rfl

end ShardKV

/-! Agreement -/

variable {gid : Int} {log : List Command} {group next : Replicas}

/-- The state after the first `k` commands. -/
def stateAt (gid : Int) (log : List Command) (k : Nat) : ShardKV :=
  (startServer gid).replay (log.take k)

theorem stateAt_gid (gid : Int) (log : List Command) (k : Nat) : (stateAt gid log k).gid = gid :=
  ShardKV.replay_gid _ _

theorem stateAt_succ {k : Nat} {command : Command} (entry : log[k]? = some command) :
    stateAt gid log (k + 1) = ((stateAt gid log k).apply command).1 := by
  rw [stateAt, List.take_add_one, entry, Option.toList_some, ShardKV.replay_concat, stateAt]

/-- A replica has the state of its applied index, and its persister that of the index
it has discarded the log for. -/
structure Replica.Faithful (gid : Int) (log : List Command) (replica : Replica) : Prop where
  kv : replica.kv = stateAt gid log replica.applied
  unsaved : replica.snapshot = none → replica.lastIncludedIndex = 0
  saved : ∀ snapshot, replica.snapshot = some snapshot →
    snapshot = (stateAt gid log replica.lastIncludedIndex).encodeSnapshot

namespace Replica

variable {replica : Replica} {orders : Orders} {index : Nat} {command : Command}

theorem Faithful.receive (faithful : Faithful gid log replica) (entry : log[index - 1]? = some command)
    (order : index ≤ replica.lastApplied ∨ index = replica.applied + 1)
    (orderly : orders.For command) : Faithful gid log (replica.receive orders index command) := by
  unfold Replica.receive
  split
  next => exact faithful
  next fresh =>
    have last := order.resolve_left fresh
    have here : log[replica.applied]? = some command := by rwa [last] at entry
    have applied : max index replica.lastIncludedIndex = index := by
      unfold Replica.applied at last
      omega
    refine ⟨?_, faithful.unsaved, faithful.saved⟩
    calc (replica.kv.applyIn orders command).1
        = stateAt gid log (replica.applied + 1) := by
          rw [stateAt_succ here, ShardKV.applyIn_eq orderly, ← faithful.kv]
      _ = stateAt gid log (max index replica.lastIncludedIndex) := by rw [applied, last]

theorem Faithful.takeSnapshot (faithful : Faithful gid log replica) :
    Faithful gid log replica.takeSnapshot := by
  unfold Replica.takeSnapshot
  split
  next => exact faithful
  next ahead =>
    have applied : replica.applied = replica.lastApplied := max_eq_left (by omega)
    refine ⟨?_, nofun, ?_⟩
    · rw [Replica.applied, max_self, ← applied]
      exact faithful.kv
    · rintro snapshot ⟨⟩
      rw [← applied, ← faithful.kv]

theorem Faithful.installSnapshot (faithful : Faithful gid log replica) {snapshot : Snapshot}
    (right : snapshot = (stateAt gid log index).encodeSnapshot) :
    Faithful gid log (replica.installSnapshot index snapshot) := by
  unfold Replica.installSnapshot
  split
  next => exact faithful
  next =>
    refine ⟨?_, nofun, ?_⟩
    · rw [Replica.applied, max_self, right]
      refine ShardKV.restoreSnapshot_encodeSnapshot ?_
      rw [faithful.kv, stateAt_gid, stateAt_gid]
    · rintro _ ⟨⟩
      exact right

theorem Faithful.restart (faithful : Faithful gid log replica) : Faithful gid log (replica.restart gid) := by
  refine ⟨?_, faithful.unsaved, faithful.saved⟩
  have applied : (replica.restart gid).applied = replica.lastIncludedIndex := Nat.zero_max _
  rw [applied, Replica.restart]
  cases held : replica.snapshot with
  | none =>
    rw [faithful.unsaved held]
    rfl
  | some snapshot =>
    rw [faithful.saved snapshot held]
    exact ShardKV.restoreSnapshot_encodeSnapshot (stateAt_gid gid log _).symm

end Replica

/-- Every replica is faithful to the log, and so is every snapshot on its way. -/
structure Replicas.Faithful (gid : Int) (log : List Command) (group : Replicas) : Prop where
  replica : ∀ r, (group.replica r).Faithful gid log
  sent : ∀ index snapshot, (index, snapshot) ∈ group.sent →
    snapshot = (stateAt gid log index).encodeSnapshot

namespace Replicas

theorem Faithful.set (faithful : Faithful gid log group) (r : Nat) {replica : Replica}
    (right : replica.Faithful gid log) : Faithful gid log (group.set r replica) := by
  refine ⟨fun r' => ?_, faithful.sent⟩
  unfold Replicas.set
  dsimp only
  rw [Function.update_apply]
  split
  next => exact right
  next => exact faithful.replica r'

theorem Faithful.step (faithful : Faithful gid log group) (step : Step gid log group next) :
    Faithful gid log next := by
  cases step with
  | @command r _ _ _ _ entry order orderly =>
    exact faithful.set r ((faithful.replica r).receive entry order orderly)
  | @takeSnapshot r => exact faithful.set r (faithful.replica r).takeSnapshot
  | @send r snapshot held =>
    refine ⟨faithful.replica, fun index other here => ?_⟩
    rcases List.mem_append.mp here with old | new
    · exact faithful.sent index other old
    · obtain ⟨rfl, rfl⟩ := Prod.mk.inj (List.mem_singleton.mp new)
      exact (faithful.replica r).saved _ held
  | @install r index snapshot here =>
    exact faithful.set r ((faithful.replica r).installSnapshot (faithful.sent index snapshot here))
  | @restart r => exact faithful.set r (faithful.replica r).restart

theorem Reached.faithful (reached : Reached gid log group) : Faithful gid log group := by
  induction reached with
  | start => exact ⟨fun _ => ⟨rfl, fun _ => rfl, nofun⟩, fun _ _ here => nomatch here⟩
  | step _ step ih => exact ih.step step

/-- Replicas of one log that have applied it up to the same index hold the same state,
whatever snapshots, restarts and repeated messages brought them there, and give the
same response to the next command, in whatever orders their loops run. -/
theorem replicas_agree (reached : Reached gid log group) {r r' : Nat}
    (same : (group.replica r).applied = (group.replica r').applied) :
    (group.replica r).kv.stateMachines = (group.replica r').kv.stateMachines ∧
      (group.replica r).kv.lastOperations = (group.replica r').kv.lastOperations ∧
      (group.replica r).kv.currentConfig = (group.replica r').kv.currentConfig ∧
      (group.replica r).kv.lastConfig = (group.replica r').kv.lastConfig ∧
      ∀ command orders orders', Orders.For orders command → Orders.For orders' command →
        ((group.replica r).kv.applyIn orders command).2 =
          ((group.replica r').kv.applyIn orders' command).2 := by
  have kv : (group.replica r).kv = (group.replica r').kv := by
    rw [(reached.faithful.replica r).kv, same, ← (reached.faithful.replica r').kv]
  refine ⟨by rw [kv], by rw [kv], by rw [kv], by rw [kv], fun command orders orders' orderly orderly' => ?_⟩
  rw [ShardKV.applyIn_eq orderly, ShardKV.applyIn_eq orderly', kv]

def joinThenPut : List Command :=
  [.configuration ⟨1, fun _ => 100, ∅⟩, .operation ⟨[97], [1], .put, 7, 1⟩]

/-- Replica 0 applies both commands, one by one. -/
def applyNext (group : Replicas) : Replicas :=
  let replica := group.replica 0
  group.set 0 (replica.receive ⟨[], fun _ => [], []⟩ (replica.applied + 1)
    ((joinThenPut[replica.applied]?).getD .emptyEntry))

/-- After that it takes a snapshot, which reaches replica 1 that has applied nothing,
and restarts. -/
def caughtUp : Replicas :=
  let ahead := applyNext (applyNext ⟨fun _ => .start 100, []⟩)
  let saved := ahead.set 0 (ahead.replica 0).takeSnapshot
  let sent := { saved with sent := [(2, (ahead.replica 0).kv.encodeSnapshot)] }
  let installed := sent.set 1 ((sent.replica 1).installSnapshot 2 (ahead.replica 0).kv.encodeSnapshot)
  installed.set 0 ((installed.replica 0).restart 100)

theorem caughtUp_reached : Reached 100 joinThenPut caughtUp := by
  have first : Reached 100 joinThenPut (applyNext ⟨fun _ => .start 100, []⟩) :=
    .step .start (.command (by decide) rfl (.inr rfl) trivial)
  have second : Reached 100 joinThenPut (applyNext (applyNext ⟨fun _ => .start 100, []⟩)) :=
    .step first (.command (by decide) rfl (.inr rfl) trivial)
  exact .step (.step (.step (.step second (.takeSnapshot (r := 0))) (.send (r := 0) rfl))
    (.install (r := 1) (List.mem_singleton.mpr rfl))) (.restart (r := 0))

theorem replicas_agree_caughtUp :
    (caughtUp.replica 0).lastApplied = 0 ∧ (caughtUp.replica 1).lastApplied = 2 ∧
      ((caughtUp.replica 1).kv.stateMachines 7).kv [97] = some [1] ∧
      (caughtUp.replica 0).kv.stateMachines = (caughtUp.replica 1).kv.stateMachines ∧
      (caughtUp.replica 0).kv.lastOperations = (caughtUp.replica 1).kv.lastOperations := by
  have agree := @replicas_agree _ _ _ caughtUp_reached 0 1 rfl
  exact ⟨rfl, rfl, rfl, agree.1, agree.2.1⟩

end Replicas

end DistSys.ShardKv
