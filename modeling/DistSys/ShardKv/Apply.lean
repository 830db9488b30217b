import DistSys.ShardKv.Server

namespace DistSys.ShardKv

open Shardctrler (NShards Config defaultConfig readConfig)

variable {kv : ShardKV} {request : CommandRequest} {config : Config} {i : Fin NShards}
variable {log : List Command}

/-- The data of a shard after an operation on it. -/
def CommandRequest.write (request : CommandRequest) (data : KV) : KV :=
  match request.op with
  | .get => data
  | .put => Function.update data request.key (some request.value)
  | .append => Function.update data request.key (some ((data request.key).getD [] ++ request.value))

/-- The table of executed operations after an operation. -/
def CommandRequest.record (request : CommandRequest) (table : Operations) : Operations :=
  if request.op = .get then table
  else Function.update table request.clientId (some ⟨request.commandId, ⟨.ok, []⟩⟩)

/-- How the status of a shard changes within one configuration. -/
def ShardStatus.Advances (before after : ShardStatus) : Prop :=
  after = before ∨ before = .pulling ∧ after = .gcing ∨
    (before = .gcing ∨ before = .bePulling) ∧ after = .serving

theorem ShardStatus.Advances.refl (status : ShardStatus) : status.Advances status := Or.inl rfl

theorem ShardStatus.Advances.of_serving {after : ShardStatus}
    (advances : ShardStatus.Advances .serving after) : after = .serving := by
  rcases advances with same | ⟨is, _⟩ | ⟨_, is⟩
  · exact same
  · cases is
  · exact is

theorem ShardStatus.Advances.to_bePulling {before : ShardStatus}
    (advances : before.Advances .bePulling) : before = .bePulling := by
  rcases advances with same | ⟨_, is⟩ | ⟨_, is⟩
  · exact same.symm
  · cases is
  · cases is

theorem Shard.insert_of_ne {shard : Shard} (other : shard.status ≠ .pulling) (arrives : Option KV) :
    shard.insert arrives = shard := by
  cases arrives with
  | none => rfl
  | some data => rw [Shard.insert, if_neg other]

theorem Shard.insert_advances (shard : Shard) (arrives : Option KV) :
    shard.status.Advances (shard.insert arrives).status := by
  cases arrives with
  | none => exact .refl _
  | some data =>
    rw [Shard.insert]
    split
    next pulling => exact Or.inr (Or.inl ⟨pulling, rfl⟩)
    next => exact .refl _

theorem Shard.delete_advances (shard : Shard) : shard.status.Advances shard.delete.status := by
  obtain ⟨data, status⟩ := shard
  cases status with
  | serving => exact .refl _
  | pulling => exact .refl _
  | bePulling => exact Or.inr (Or.inr ⟨Or.inr rfl, rfl⟩)
  | gcing => exact Or.inr (Or.inr ⟨Or.inl rfl, rfl⟩)

theorem Shard.delete_delete (shard : Shard) : shard.delete.delete = shard.delete := by
  obtain ⟨data, status⟩ := shard
  cases status <;> rfl

namespace ShardKV

/-- The operation reaches the state machine: its shard is served here, and it
is not a write that was executed before. -/
def executes (kv : ShardKV) (request : CommandRequest) : Prop :=
  kv.canServe (key2shard request.key) ∧
    (request.op = .get ∨ kv.isDuplicateRequest request.clientId request.commandId = false)

instance (kv : ShardKV) (request : CommandRequest) : Decidable (kv.executes request) :=
  inferInstanceAs (Decidable (_ ∧ _))

theorem applyOperation_of_not_executes (skipped : ¬ kv.executes request) :
    (kv.applyOperation request).1 = kv := by
  unfold applyOperation
  simp only
  split
  next serves =>
    split
    next => rfl
    next fresh =>
      refine absurd ⟨serves, ?_⟩ skipped
      by_cases read : request.op = .get
      · exact Or.inl read
      · exact Or.inr (by simpa [read] using fresh)
  next => rfl

theorem applyOperation_get (executed : kv.executes request) (read : request.op = .get) :
    kv.applyOperation request = (kv, (kv.stateMachines (key2shard request.key)).get request.key) := by
  unfold applyOperation applyLogToStateMachines
  simp only [read, ne_eq, not_true, false_and, if_false]
  rw [if_pos executed.1]

/-- An executed operation writes its shard and its entry in the table, and
nothing else. -/
theorem applyOperation_of_executes (executed : kv.executes request) :
    (kv.applyOperation request).1 = { kv with
      stateMachines := Function.update kv.stateMachines (key2shard request.key)
        { kv.stateMachines (key2shard request.key) with
          kv := request.write (kv.stateMachines (key2shard request.key)).kv }
      lastOperations := request.record kv.lastOperations } := by
  by_cases read : request.op = .get
  · rw [applyOperation_get executed read]
    have same : request.write = id := by
      funext data
      simp only [CommandRequest.write, read, id_eq]
    simp only [same, id_eq, CommandRequest.record, read, if_true, Function.update_eq_self]
  · have fresh := executed.2.resolve_left read
    unfold applyOperation applyLogToStateMachines CommandRequest.write CommandRequest.record
    simp only
    rw [if_pos executed.1, if_neg (by rw [fresh]; simp), if_pos read]
    simp only [read, if_false]
    cases op : request.op with
    | get => exact absurd op read
    | put => rfl
    | append => rfl

theorem applyConfiguration_of_next (next : config.num = kv.currentConfig.num + 1) :
    (kv.applyConfiguration config).1 = { kv with
      lastConfig := kv.currentConfig
      currentConfig := config
      stateMachines := fun i => (kv.stateMachines i).configure kv.gid (kv.currentConfig.shards i)
        (config.shards i) } := by
  rw [applyConfiguration, if_pos next]

theorem applyConfiguration_of_ne (other : config.num ≠ kv.currentConfig.num + 1) :
    (kv.applyConfiguration config).1 = kv := by
  rw [applyConfiguration, if_neg other]

theorem applyInsertShards_of_eq {info : ShardOperationResponse}
    (now : info.configNum = kv.currentConfig.num) :
    (kv.applyInsertShards info).1 = { kv with
      stateMachines := fun i => (kv.stateMachines i).insert (info.shards i)
      lastOperations := fun clientId =>
        mergeContext (kv.lastOperations clientId) (info.lastOperations clientId) } := by
  rw [applyInsertShards, if_pos now]

theorem applyInsertShards_of_ne {info : ShardOperationResponse}
    (other : info.configNum ≠ kv.currentConfig.num) : (kv.applyInsertShards info).1 = kv := by
  rw [applyInsertShards, if_neg other]

theorem applyDeleteShards_of_ne {info : ShardOperationRequest}
    (other : info.configNum ≠ kv.currentConfig.num) : (kv.applyDeleteShards info).1 = kv := by
  rw [applyDeleteShards, if_neg other]

/-- Deleting a shard twice in one command changes nothing more. -/
theorem applyDeleteShards_of_eq {info : ShardOperationRequest}
    (now : info.configNum = kv.currentConfig.num) :
    (kv.applyDeleteShards info).1 = { kv with
      stateMachines := fun i =>
        if i ∈ info.shardIDs then (kv.stateMachines i).delete else kv.stateMachines i } := by
  rw [applyDeleteShards, if_pos now]
  simp only
  clear now
  induction info.shardIDs generalizing kv with
  | nil => simp
  | cons shardID shardIDs ih =>
    rw [List.foldl_cons, ih]
    simp only [setShard, ShardKV.mk.injEq, true_and, and_true]
    funext i
    by_cases here : i = shardID
    · subst here
      simp [Shard.delete_delete]
    · simp [here]

/-- What a command does to the state of a group, if it does anything. -/
inductive Applies (kv : ShardKV) : Command → ShardKV → Prop
  | skipped (command : Command) : Applies kv command kv
  | operation {request : CommandRequest} (executed : kv.executes request) :
      Applies kv (.operation request) { kv with
        stateMachines := Function.update kv.stateMachines (key2shard request.key)
          { kv.stateMachines (key2shard request.key) with
            kv := request.write (kv.stateMachines (key2shard request.key)).kv }
        lastOperations := request.record kv.lastOperations }
  | configuration {config : Config} (next : config.num = kv.currentConfig.num + 1) :
      Applies kv (.configuration config) { kv with
        lastConfig := kv.currentConfig
        currentConfig := config
        stateMachines := fun i => (kv.stateMachines i).configure kv.gid (kv.currentConfig.shards i)
          (config.shards i) }
  | insertShards {info : ShardOperationResponse} (now : info.configNum = kv.currentConfig.num) :
      Applies kv (.insertShards info) { kv with
        stateMachines := fun i => (kv.stateMachines i).insert (info.shards i)
        lastOperations := fun clientId =>
          mergeContext (kv.lastOperations clientId) (info.lastOperations clientId) }
  | deleteShards {info : ShardOperationRequest} (now : info.configNum = kv.currentConfig.num) :
      Applies kv (.deleteShards info) { kv with
        stateMachines := fun i =>
          if i ∈ info.shardIDs then (kv.stateMachines i).delete else kv.stateMachines i }

theorem applies_apply (kv : ShardKV) (command : Command) :
    kv.Applies command (kv.apply command).1 := by
  cases command with
  | operation request =>
    by_cases executed : kv.executes request
    · rw [apply, applyOperation_of_executes executed]
      exact .operation executed
    · rw [apply, applyOperation_of_not_executes executed]
      exact .skipped _
  | configuration config =>
    by_cases next : config.num = kv.currentConfig.num + 1
    · rw [apply, applyConfiguration_of_next next]
      exact .configuration next
    · rw [apply, applyConfiguration_of_ne next]
      exact .skipped _
  | insertShards info =>
    by_cases now : info.configNum = kv.currentConfig.num
    · rw [apply, applyInsertShards_of_eq now]
      exact .insertShards now
    · rw [apply, applyInsertShards_of_ne now]
      exact .skipped _
  | deleteShards info =>
    by_cases now : info.configNum = kv.currentConfig.num
    · rw [apply, applyDeleteShards_of_eq now]
      exact .deleteShards now
    · rw [apply, applyDeleteShards_of_ne now]
      exact .skipped _
  | emptyEntry => exact .skipped _

theorem Applies.gid {command : Command} {kv' : ShardKV} (applies : kv.Applies command kv') :
    kv'.gid = kv.gid := by
  cases applies <;> rfl

/-- A command is an effective configuration, or leaves the configurations alone
and moves every shard on within them. -/
theorem apply_cases (kv : ShardKV) (command : Command) :
    (∃ config, command = .configuration config ∧ config.num = kv.currentConfig.num + 1) ∨
      (kv.apply command).1.currentConfig = kv.currentConfig ∧
      (kv.apply command).1.lastConfig = kv.lastConfig ∧
      ∀ i, (kv.stateMachines i).status.Advances ((kv.apply command).1.stateMachines i).status := by
  have applies := kv.applies_apply command
  generalize (kv.apply command).1 = kv' at applies ⊢
  cases applies with
  | skipped => exact Or.inr ⟨rfl, rfl, fun i => .refl _⟩
  | @operation request executed =>
    refine Or.inr ⟨rfl, rfl, fun i => Or.inl ?_⟩
    by_cases here : i = key2shard request.key
    · subst here
      simp
    · simp [here]
  | configuration next => exact Or.inl ⟨_, rfl, next⟩
  | insertShards => exact Or.inr ⟨rfl, rfl, fun i => Shard.insert_advances _ _⟩
  | deleteShards =>
    refine Or.inr ⟨rfl, rfl, fun i => ?_⟩
    simp only
    split
    next => exact Shard.delete_advances _
    next => exact .refl _

theorem apply_num_le (kv : ShardKV) (command : Command) :
    kv.currentConfig.num ≤ (kv.apply command).1.currentConfig.num := by
  rcases kv.apply_cases command with ⟨config, rfl, next⟩ | ⟨same, _⟩
  · rw [apply, applyConfiguration_of_next next, next]
    omega
  · rw [same]

theorem replay_append (kv : ShardKV) (first rest : List Command) :
    kv.replay (first ++ rest) = (kv.replay first).replay rest :=
  List.foldl_append

theorem replay_concat (kv : ShardKV) (log : List Command) (command : Command) :
    kv.replay (log ++ [command]) = ((kv.replay log).apply command).1 :=
  replay_append kv log [command]

theorem replay_gid (kv : ShardKV) (log : List Command) : (kv.replay log).gid = kv.gid := by
  induction log using List.reverseRecOn with
  | nil => rfl
  | append_singleton log command ih => rw [replay_concat, (applies_apply _ command).gid, ih]

theorem replay_num_le (kv : ShardKV) (log : List Command) :
    kv.currentConfig.num ≤ (kv.replay log).currentConfig.num := by
  induction log using List.reverseRecOn with
  | nil => exact le_rfl
  | append_singleton log command ih =>
    rw [replay_concat]
    exact ih.trans (apply_num_le _ command)

/-- Once all shards are served, they stay so until the next configuration. -/
theorem replay_allServing (serving : kv.allServing)
    (same : (kv.replay log).currentConfig.num = kv.currentConfig.num) : (kv.replay log).allServing := by
  induction log using List.reverseRecOn with
  | nil => exact serving
  | append_singleton log command ih =>
    have lower := kv.replay_num_le log
    rw [replay_concat] at same ⊢
    rcases (kv.replay log).apply_cases command with ⟨config, rfl, next⟩ | ⟨config, _, advances⟩
    · rw [apply, applyConfiguration_of_next next] at same
      simp only at same
      omega
    · rw [config] at same
      intro i
      have before := advances i
      rw [ih same i] at before
      exact before.of_serving

end ShardKV

end DistSys.ShardKv
