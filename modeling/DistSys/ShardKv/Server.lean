import DistSys.Shardctrler.Server

namespace DistSys.ShardKv

open Shardctrler (NShards Config defaultConfig readConfig)

inductive Err
  | ok
  | noKey
  | wrongGroup
  | wrongLeader
  | outDated
  | notReady
  deriving DecidableEq

inductive OperationOp
  | get
  | put
  | append
  deriving DecidableEq

structure CommandRequest where
  key : GoString
  value : GoString
  op : OperationOp
  clientId : Int
  commandId : Int
  deriving DecidableEq

structure CommandResponse where
  err : Err
  value : GoString
  deriving DecidableEq

structure OperationContext where
  maxAppliedCommandId : Int
  lastResponse : CommandResponse
  deriving DecidableEq

/-- A Go map from keys to values. -/
abbrev KV := GoString → Option GoString

/-- A Go map from client ids to what was last executed for them. -/
abbrev Operations := Int → Option OperationContext

structure ShardOperationRequest where
  configNum : Int
  shardIDs : List (Fin NShards)
  deriving DecidableEq

structure ShardOperationResponse where
  err : Err
  configNum : Int
  shards : Fin NShards → Option KV
  lastOperations : Operations

inductive Command
  | operation (request : CommandRequest)
  | configuration (config : Config)
  | insertShards (info : ShardOperationResponse)
  | deleteShards (info : ShardOperationRequest)
  | emptyEntry

inductive ShardStatus
  | serving
  | pulling
  | bePulling
  | gcing
  deriving DecidableEq

def key2shard (key : GoString) : Fin NShards :=
  match key with
  | [] => ⟨0, by decide⟩
  | first :: _ => ⟨first.toNat % NShards, Nat.mod_lt _ (by decide)⟩

structure Shard where
  kv : KV
  status : ShardStatus

def emptyKV : KV := fun _ => none

def newShard : Shard := ⟨emptyKV, .serving⟩

def Shard.get (shard : Shard) (key : GoString) : CommandResponse :=
  match shard.kv key with
  | some value => ⟨.ok, value⟩
  | none => ⟨.noKey, []⟩

def Shard.put (shard : Shard) (key value : GoString) : Shard :=
  { shard with kv := Function.update shard.kv key (some value) }

/-- A missing key reads as the empty string. -/
def Shard.append (shard : Shard) (key value : GoString) : Shard :=
  { shard with kv := Function.update shard.kv key (some ((shard.kv key).getD [] ++ value)) }

/-- What a new configuration does to a shard of group `gid`, given its owners in
the last and in the new configuration. -/
def Shard.configure (shard : Shard) (gid last current : Int) : Shard :=
  let shard :=
    if current = gid ∧ last ≠ gid then
      if last = 0 then { shard with status := .serving } else { shard with status := .pulling }
    else shard
  if last = gid ∧ current ≠ gid then
    if current = 0 then ⟨emptyKV, .serving⟩ else { shard with status := .bePulling }
  else shard

/-- Data that arrives is used only by a shard that is being pulled. -/
def Shard.insert (shard : Shard) : Option KV → Shard
  | some data => if shard.status = .pulling then ⟨data, .gcing⟩ else shard
  | none => shard

def Shard.delete (shard : Shard) : Shard :=
  match shard.status with
  | .gcing => { shard with status := .serving }
  | .bePulling => ⟨emptyKV, .serving⟩
  | .serving => shard
  | .pulling => shard

/-- The replicated state of a group. -/
structure ShardKV where
  gid : Int
  lastConfig : Config
  currentConfig : Config
  stateMachines : Fin NShards → Shard
  lastOperations : Operations

def startServer (gid : Int) : ShardKV where
  gid := gid
  lastConfig := defaultConfig
  currentConfig := defaultConfig
  stateMachines _ := newShard
  lastOperations _ := none

namespace ShardKV

variable (kv : ShardKV)

def isDuplicateRequest (clientId commandId : Int) : Bool :=
  match kv.lastOperations clientId with
  | some context => commandId ≤ context.maxAppliedCommandId
  | none => false

def canServe (shardID : Fin NShards) : Prop :=
  kv.currentConfig.shards shardID = kv.gid ∧
    ((kv.stateMachines shardID).status = .serving ∨ (kv.stateMachines shardID).status = .gcing)

instance (shardID : Fin NShards) : Decidable (kv.canServe shardID) :=
  inferInstanceAs (Decidable (_ ∧ _))

def setShard (shardID : Fin NShards) (shard : Shard) : ShardKV :=
  { kv with stateMachines := Function.update kv.stateMachines shardID shard }

def setOperation (clientId : Int) (context : OperationContext) : ShardKV :=
  { kv with lastOperations := Function.update kv.lastOperations clientId (some context) }

def applyLogToStateMachines (operation : CommandRequest) (shardID : Fin NShards) :
    ShardKV × CommandResponse :=
  let shard := kv.stateMachines shardID
  match operation.op with
  | .put => (kv.setShard shardID (shard.put operation.key operation.value), ⟨.ok, []⟩)
  | .append => (kv.setShard shardID (shard.append operation.key operation.value), ⟨.ok, []⟩)
  | .get => (kv, shard.get operation.key)

/-- The stored response of a client; only read for clients in the map. -/
def lastResponse (clientId : Int) : CommandResponse :=
  match kv.lastOperations clientId with
  | some context => context.lastResponse
  | none => ⟨.ok, []⟩

def applyOperation (operation : CommandRequest) : ShardKV × CommandResponse :=
  let shardID := key2shard operation.key
  if kv.canServe shardID then
    if operation.op ≠ .get ∧ kv.isDuplicateRequest operation.clientId operation.commandId then
      (kv, kv.lastResponse operation.clientId)
    else
      let result := kv.applyLogToStateMachines operation shardID
      if operation.op ≠ .get then
        (result.1.setOperation operation.clientId ⟨operation.commandId, result.2⟩, result.2)
      else result
  else (kv, ⟨.wrongGroup, []⟩)

def applyConfiguration (nextConfig : Config) : ShardKV × CommandResponse :=
  if nextConfig.num = kv.currentConfig.num + 1 then
    ({ kv with
        lastConfig := kv.currentConfig
        currentConfig := nextConfig
        stateMachines := fun i => (kv.stateMachines i).configure kv.gid (kv.currentConfig.shards i)
          (nextConfig.shards i) }, ⟨.ok, []⟩)
  else (kv, ⟨.ok, []⟩)

/-- The entry of one client after another group's table has been merged in. -/
def mergeContext (mine theirs : Option OperationContext) : Option OperationContext :=
  match theirs, mine with
  | none, mine => mine
  | some context, none => some context
  | some context, some last =>
    if last.maxAppliedCommandId < context.maxAppliedCommandId then some context else some last

def applyInsertShards (info : ShardOperationResponse) : ShardKV × CommandResponse :=
  if info.configNum = kv.currentConfig.num then
    ({ kv with
        stateMachines := fun i => (kv.stateMachines i).insert (info.shards i)
        lastOperations := fun clientId =>
          mergeContext (kv.lastOperations clientId) (info.lastOperations clientId) }, ⟨.ok, []⟩)
  else (kv, ⟨.ok, []⟩)

def applyDeleteShards (info : ShardOperationRequest) : ShardKV × CommandResponse :=
  if info.configNum = kv.currentConfig.num then
    (info.shardIDs.foldl (fun kv i => kv.setShard i (kv.stateMachines i).delete) kv, ⟨.ok, []⟩)
  else (kv, ⟨.ok, []⟩)

/-- The switch of the applier loop. -/
def apply : Command → ShardKV × CommandResponse
  | .operation operation => kv.applyOperation operation
  | .configuration nextConfig => kv.applyConfiguration nextConfig
  | .insertShards info => kv.applyInsertShards info
  | .deleteShards info => kv.applyDeleteShards info
  | .emptyEntry => (kv, ⟨.ok, []⟩)

/-- The state that a replica reaches by applying a log. -/
def replay (log : List Command) : ShardKV :=
  log.foldl (fun kv command => (kv.apply command).1) kv

def allServing : Prop := ∀ i, (kv.stateMachines i).status = .serving

instance : Decidable kv.allServing := inferInstanceAs (Decidable (∀ _, _))

/-- `configureAction` up to its proposal. `configs` is what the controller knows
when it answers the query. -/
def configureAction (configs : List Config) : Option Command :=
  if kv.allServing then
    match readConfig configs (kv.currentConfig.num + 1) with
    | some nextConfig =>
      if nextConfig.num = kv.currentConfig.num + 1 then some (.configuration nextConfig) else none
    | none => none
  else none

/-- The shards of one status whose previous owner is `prevGID`, as
`migrationAction` and `gcAction` collect them. -/
def shardsFrom (status : ShardStatus) (prevGID : Int) : List (Fin NShards) :=
  (List.finRange NShards).filter fun i =>
    (kv.stateMachines i).status = status ∧ kv.lastConfig.shards i = prevGID

/-- `GetShardsData` on a replica that believes to lead. -/
def getShardsData (request : ShardOperationRequest) : ShardOperationResponse :=
  if request.configNum ≠ kv.currentConfig.num then ⟨.notReady, 0, fun _ => none, fun _ => none⟩
  else
    { err := .ok
      configNum := request.configNum
      shards := fun i =>
        if i ∈ request.shardIDs ∧ ((kv.stateMachines i).status = .bePulling ∨
            (kv.stateMachines i).status = .gcing) then
          some (kv.stateMachines i).kv
        else none
      lastOperations := kv.lastOperations }

/-- What `DeleteShardsData` does on a replica that believes to lead. It never
looks at the response that `Execute` fills in. -/
inductive DeleteOutcome
  | answer (err : Err)
  | execute (command : Command)

def deleteShardsData (request : ShardOperationRequest) : DeleteOutcome :=
  if request.configNum < kv.currentConfig.num then .answer .ok
  else if request.configNum > kv.currentConfig.num then .answer .notReady
  else .execute (.deleteShards request)

/-- What `Command` does with a client request: answer at once, or propose it. -/
inductive CommandOutcome
  | answer (response : CommandResponse)
  | execute (command : Command)

def command (request : CommandRequest) : CommandOutcome :=
  if request.op ≠ .get ∧ kv.isDuplicateRequest request.clientId request.commandId then
    .answer (kv.lastResponse request.clientId)
  else if ¬ kv.canServe (key2shard request.key) then .answer ⟨.wrongGroup, []⟩
  else .execute (.operation request)

end ShardKV

end DistSys.ShardKv
