import DistSys.ShardKv.Orderly
import DistSys.Core.Handoff

namespace DistSys.ShardKv

open Shardctrler (NShards Config)
open Handoff (Phase Step)

/-- Every client has got at least as far in `more` as in `table`. -/
def Covers (table more : Operations) : Prop :=
  ∀ clientId context, table clientId = some context →
    ∃ later, more clientId = some later ∧ context.maxAppliedCommandId ≤ later.maxAppliedCommandId

theorem Covers.refl (table : Operations) : Covers table table :=
  fun _ context found => ⟨context, found, le_rfl⟩

theorem Covers.trans {first second third : Operations} (left : Covers first second)
    (right : Covers second third) : Covers first third := by
  intro clientId context found
  obtain ⟨next, there, le⟩ := left clientId context found
  obtain ⟨last, beyond, le'⟩ := right clientId next there
  exact ⟨last, beyond, le.trans le'⟩

theorem covers_none (table : Operations) : Covers (fun _ => none) table :=
  fun _ _ found => by cases found

theorem covers_merge_left (mine theirs : Operations) :
    Covers mine fun clientId => ShardKV.mergeContext (mine clientId) (theirs clientId) := by
  intro clientId context found
  simp only [found, ShardKV.mergeContext]
  cases theirs clientId with
  | none => exact ⟨context, rfl, le_rfl⟩
  | some other =>
    simp only
    split
    next less => exact ⟨other, rfl, less.le⟩
    next => exact ⟨context, rfl, le_rfl⟩

theorem covers_merge_right (mine theirs : Operations) :
    Covers theirs fun clientId => ShardKV.mergeContext (mine clientId) (theirs clientId) := by
  intro clientId context found
  simp only [found, ShardKV.mergeContext]
  cases mine clientId with
  | none => exact ⟨context, rfl, le_rfl⟩
  | some last =>
    simp only
    split
    next => exact ⟨context, rfl, le_rfl⟩
    next less => exact ⟨last, rfl, not_lt.mp less⟩

/-- An operation that is not a duplicate only moves its client forward. -/
theorem covers_record {kv : ShardKV} {request : CommandRequest} (executed : kv.executes request) :
    Covers kv.lastOperations (request.record kv.lastOperations) := by
  unfold CommandRequest.record
  split
  next => exact Covers.refl _
  next writes =>
    have new := executed.2.resolve_left writes
    intro clientId context found
    by_cases mine : clientId = request.clientId
    · subst mine
      simp only [ShardKV.isDuplicateRequest, found, decide_eq_false_iff_not] at new
      rw [Function.update_self]
      exact ⟨_, rfl, (not_le.mp new).le⟩
    · rw [Function.update_of_ne mine]
      exact ⟨context, found, le_rfl⟩

/-- What a group has of a shard: the data, and the table that protects it. -/
structure Holding where
  kv : KV
  table : Operations

/-- More of a shard is the same data under a table that has got further. -/
instance : Preorder Holding where
  le less more := less.kv = more.kv ∧ Covers less.table more.table
  le_refl _ := ⟨rfl, Covers.refl _⟩
  le_trans _ _ _ left right := ⟨left.1.trans right.1, left.2.trans right.2⟩

def Holding.fresh : Holding := ⟨emptyKV, fun _ => none⟩

theorem fresh_le (table : Operations) : Holding.fresh ≤ ⟨emptyKV, table⟩ :=
  ⟨rfl, covers_none table⟩

def ShardStatus.phase : ShardStatus → Phase
  | .serving => .steady
  | .pulling => .awaiting
  | .bePulling => .held
  | .gcing => .settling

theorem ShardStatus.phase_injective : Function.Injective ShardStatus.phase := by
  intro first second same
  cases first <;> cases second <;> first | rfl | cases same

/-- The group that owns a shard in a configuration, if any. -/
def Setting.owner (setting : Setting) (s : Fin NShards) (n : Nat) : Option Int :=
  match setting.configs[n]? with
  | some config => if config.shards s = 0 then none else some (config.shards s)
  | none => none

section
variable {setting : Setting} {n : Nat} {config : Config} {s : Fin NShards} {g : Int}

theorem owner_eq_some_iff (found : setting.configs[n]? = some config) (nonzero : g ≠ 0) :
    setting.owner s n = some g ↔ config.shards s = g := by
  simp only [Setting.owner, found]
  split
  next zero => rw [zero]; simp [nonzero.symm]
  next => simp

theorem owner_eq_none_iff (found : setting.configs[n]? = some config) :
    setting.owner s n = none ↔ config.shards s = 0 := by
  simp only [Setting.owner, found]
  split <;> simp_all

theorem owner_ne_zero (mine : setting.owner s n = some g) : g ≠ 0 := by
  unfold Setting.owner at mine
  split at mine
  next => 
    split at mine
    next => cases mine
    next nonzero => cases mine; exact nonzero
  next => cases mine

end

namespace ShardKV

def epoch (kv : ShardKV) : Nat := kv.currentConfig.num.toNat

def phase (kv : ShardKV) (s : Fin NShards) : Phase := (kv.stateMachines s).status.phase

def holding (kv : ShardKV) (s : Fin NShards) : Holding :=
  ⟨(kv.stateMachines s).kv, kv.lastOperations⟩

/-- The configuration whose owner of `s` has had the shard last, after a command
of one group. -/
def turnAfter (kv : ShardKV) (s : Fin NShards) (turn : Nat) : Command → Nat
  | .configuration config =>
    if config.num = kv.currentConfig.num + 1 ∧ config.shards s = kv.gid ∧
        (kv.currentConfig.shards s = kv.gid ∨ kv.currentConfig.shards s = 0) then
      kv.epoch + 1
    else turn
  | .insertShards info =>
    if info.configNum = kv.currentConfig.num ∧ (kv.stateMachines s).status = .pulling ∧
        (info.shards s).isSome then
      kv.epoch
    else turn
  | _ => turn

/-- What its owner knows of the shard `s`, after a command of one group. -/
def valueAfter (kv : ShardKV) (s : Fin NShards) (value : Holding) : Command → Holding
  | .operation request =>
    if kv.executes request ∧ key2shard request.key = s then
      ⟨request.write (kv.stateMachines s).kv, request.record kv.lastOperations⟩
    else value
  | .configuration config =>
    if config.num = kv.currentConfig.num + 1 ∧ config.shards s = kv.gid ∧
        kv.currentConfig.shards s = 0 then
      Holding.fresh
    else value
  | _ => value

end ShardKV

/-- The abstract state after group `g` has come to the state `kv`. -/
def follow (a : Handoff.State Int Holding) (s : Fin NShards) (g : Int) (kv : ShardKV) (turn : Nat)
    (value : Holding) : Handoff.State Int Holding :=
  { a.become g kv.epoch (kv.phase s) (kv.holding s) with turn := turn, value := value }

/-- The abstract state shows what a group has of a shard. -/
structure Mirrors (a : Handoff.State Int Holding) (s : Fin NShards) (kv : ShardKV) : Prop where
  epoch : a.epoch kv.gid = kv.epoch
  phase : a.phase kv.gid = kv.phase s
  data : a.data kv.gid = kv.holding s

section
variable {setting : Setting} {s : Fin NShards} {kv kv' : ShardKV} {request : CommandRequest}
variable {config : Config} {a : Handoff.State Int Holding}

theorem World.Placed.found (placed : World.Placed setting kv) :
    setting.configs[kv.epoch]? = some kv.currentConfig ∧ kv.currentConfig.num = kv.epoch := by
  obtain ⟨n, num, found⟩ := placed.current
  have epoch : kv.epoch = n := by
    rw [ShardKV.epoch, num, Int.toNat_natCast]
  rw [epoch]
  exact ⟨found, num⟩

/-- It is enough to know what the new state shows of the shard. -/
theorem step_follow {g : Int} {n turn : Nat} {p : Phase} {d value : Holding}
    (step : Step (setting.owner s) Holding.fresh g a
      { a.become g n p d with turn := turn, value := value })
    (epoch : kv.epoch = n) (phase : kv.phase s = p) (data : kv.holding s = d) :
    Step (setting.owner s) Holding.fresh g a (follow a s g kv turn value) := by
  subst epoch phase data
  exact step

theorem Mirrors.grow (mirrors : Mirrors a s kv) (epoch : kv'.epoch = kv.epoch)
    (phase : kv'.phase s = kv.phase s) (more : kv.holding s ≤ kv'.holding s) :
    Step (setting.owner s) Holding.fresh kv.gid a (follow a s kv.gid kv' a.turn a.value) := by
  rw [← mirrors.data] at more
  exact step_follow (Step.grow more) (epoch.trans mirrors.epoch.symm)
    (phase.trans mirrors.phase.symm) rfl

theorem Mirrors.operation (mirrors : Mirrors a s kv) (placed : World.Placed setting kv)
    (nonzero : kv.gid ≠ 0) (request : CommandRequest) :
    Step (setting.owner s) Holding.fresh kv.gid a (follow a s kv.gid (kv.applyOperation request).1
      a.turn (kv.valueAfter s a.value (.operation request))) := by
  by_cases executed : kv.executes request
  · rw [ShardKV.applyOperation_of_executes executed]
    by_cases here : key2shard request.key = s
    · subst here
      rw [ShardKV.valueAfter, if_pos ⟨executed, rfl⟩]
      have has : a.phase kv.gid = .steady ∨ a.phase kv.gid = .settling := by
        rw [mirrors.phase, ShardKV.phase]
        exact executed.1.2.imp (fun is => by rw [is]; rfl) (fun is => by rw [is]; rfl)
      have mine : setting.owner (key2shard request.key) (a.epoch kv.gid) = some kv.gid := by
        rw [mirrors.epoch]
        exact (owner_eq_some_iff placed.found.1 nonzero).mpr executed.1.1
      refine step_follow (Step.write has mine) mirrors.epoch.symm ?_ ?_
      · simp only [mirrors.phase, ShardKV.phase, Function.update_self]
      · simp only [ShardKV.holding, Function.update_self]
    · rw [ShardKV.valueAfter, if_neg fun both => here both.2]
      refine mirrors.grow rfl ?_ ?_
      · simp only [ShardKV.phase, Function.update_of_ne (Ne.symm here)]
      · simp only [ShardKV.holding, Function.update_of_ne (Ne.symm here)]
        exact ⟨rfl, covers_record executed⟩
  · rw [ShardKV.applyOperation_of_not_executes executed, ShardKV.valueAfter,
      if_neg fun both => executed both.1]
    exact mirrors.grow rfl rfl le_rfl

/-- A group that does not get the shard from itself or from nobody leaves the
turn and the value alone. -/
theorem configuration_quiet (quiet : config.shards s = kv.gid → kv.currentConfig.shards s ≠ kv.gid ∧
      kv.currentConfig.shards s ≠ 0) (turn : Nat) (value : Holding) :
    kv.turnAfter s turn (.configuration config) = turn ∧
      kv.valueAfter s value (.configuration config) = value := by
  constructor
  · rw [ShardKV.turnAfter, if_neg fun all => all.2.2.elim (quiet all.2.1).1 (quiet all.2.1).2]
  · rw [ShardKV.valueAfter, if_neg fun all => (quiet all.2.1).2 all.2.2]

/-- The six ways in which a group enters the next configuration. -/
theorem Mirrors.configuration_next (mirrors : Mirrors a s kv) (placed : World.Placed setting kv)
    (nonzero : kv.gid ≠ 0) (next : config.num = kv.currentConfig.num + 1)
    (serving : (kv.stateMachines s).status = .serving)
    (found : setting.configs[kv.epoch + 1]? = some config) :
    Step (setting.owner s) Holding.fresh kv.gid a
      (follow a s kv.gid (kv.applyConfiguration config).1
        (kv.turnAfter s a.turn (.configuration config))
        (kv.valueAfter s a.value (.configuration config))) := by
  obtain ⟨now, num⟩ := placed.found
  rw [← mirrors.epoch] at now found
  have steady : a.phase kv.gid = .steady := by
    rw [mirrors.phase, ShardKV.phase, serving]
    rfl
  rw [ShardKV.applyConfiguration_of_next next]
  have later : config.num.toNat = a.epoch kv.gid + 1 := by
    rw [mirrors.epoch]
    omega
  by_cases owned : kv.currentConfig.shards s = kv.gid
  · have before := (owner_eq_some_iff now nonzero).mpr owned
    by_cases stays : config.shards s = kv.gid
    · have after := (owner_eq_some_iff found nonzero).mpr stays
      have turn : kv.turnAfter s a.turn (.configuration config) = a.epoch kv.gid + 1 := by
        rw [ShardKV.turnAfter, if_pos ⟨next, stays, Or.inl owned⟩, mirrors.epoch]
      have value : kv.valueAfter s a.value (.configuration config) = a.value := by
        rw [ShardKV.valueAfter, if_neg fun all => nonzero (owned.symm.trans all.2.2)]
      rw [turn, value]
      refine step_follow (Step.keep steady before after) later ?_ ?_
      · simp [ShardKV.phase, Shard.configure, owned, stays, serving, ShardStatus.phase]
      · simp [mirrors.data, ShardKV.holding, Shard.configure, owned, stays]
    · obtain ⟨turn, value⟩ :=
        configuration_quiet (fun comes => absurd comes stays) a.turn a.value
      rw [turn, value]
      by_cases gone : config.shards s = 0
      · have after := (owner_eq_none_iff found).mpr gone
        refine step_follow (Step.drop steady before after (fresh_le kv.lastOperations)) later ?_ ?_
        · simp [ShardKV.phase, Shard.configure, owned, gone, nonzero.symm, ShardStatus.phase]
        · simp [ShardKV.holding, Shard.configure, owned, gone, nonzero.symm]
      · have after := (owner_eq_some_iff found gone).mpr rfl
        refine step_follow (Step.hold steady before after stays) later ?_ ?_
        · simp [ShardKV.phase, Shard.configure, owned, stays, gone, ShardStatus.phase]
        · simp [mirrors.data, ShardKV.holding, Shard.configure, owned, stays, gone]
  · have before := mt (owner_eq_some_iff now nonzero).mp owned
    by_cases comes : config.shards s = kv.gid
    · have after := (owner_eq_some_iff found nonzero).mpr comes
      by_cases free : kv.currentConfig.shards s = 0
      · have before := (owner_eq_none_iff now).mpr free
        have turn : kv.turnAfter s a.turn (.configuration config) = a.epoch kv.gid + 1 := by
          rw [ShardKV.turnAfter, if_pos ⟨next, comes, Or.inr free⟩, mirrors.epoch]
        have value : kv.valueAfter s a.value (.configuration config) = Holding.fresh := by
          rw [ShardKV.valueAfter, if_pos ⟨next, comes, free⟩]
        rw [turn, value]
        refine step_follow (Step.take steady before after) later ?_ ?_
        · simp [ShardKV.phase, Shard.configure, comes, free, nonzero.symm, ShardStatus.phase]
        · simp [mirrors.data, ShardKV.holding, Shard.configure, comes, free, nonzero.symm]
      · obtain ⟨turn, value⟩ := configuration_quiet (fun _ => ⟨owned, free⟩) a.turn a.value
        rw [turn, value]
        have other := (owner_eq_some_iff now free).mpr rfl
        refine step_follow (Step.await steady other owned after) later ?_ ?_
        · simp [ShardKV.phase, Shard.configure, comes, free, owned, ShardStatus.phase]
        · simp [mirrors.data, ShardKV.holding, Shard.configure, comes, free, owned]
    · have after := mt (owner_eq_some_iff found nonzero).mp comes
      obtain ⟨turn, value⟩ :=
        configuration_quiet (fun given => absurd given comes) a.turn a.value
      rw [turn, value]
      refine step_follow (Step.pass steady before after) later ?_ ?_
      · simp [ShardKV.phase, Shard.configure, comes, owned, serving, ShardStatus.phase]
      · simp [mirrors.data, ShardKV.holding, Shard.configure, comes, owned]

theorem Mirrors.configuration (mirrors : Mirrors a s kv) (placed : World.Placed setting kv)
    (nonzero : kv.gid ≠ 0) (effective : config.num = kv.currentConfig.num + 1 →
      kv.allServing ∧ ∃ n : Nat, config.num = n ∧ setting.configs[n]? = some config) :
    Step (setting.owner s) Holding.fresh kv.gid a
      (follow a s kv.gid (kv.applyConfiguration config).1
        (kv.turnAfter s a.turn (.configuration config))
        (kv.valueAfter s a.value (.configuration config))) := by
  by_cases next : config.num = kv.currentConfig.num + 1
  · obtain ⟨serving, n, num, found⟩ := effective next
    have after : n = kv.epoch + 1 := by
      have now := placed.found.2
      omega
    subst after
    exact mirrors.configuration_next placed nonzero next (serving s) found
  · rw [ShardKV.applyConfiguration_of_ne next, ShardKV.turnAfter, ShardKV.valueAfter,
      if_neg fun both => next both.1, if_neg fun both => next both.1]
    exact mirrors.grow rfl rfl le_rfl

theorem Mirrors.insertShards {info : ShardOperationResponse} (mirrors : Mirrors a s kv)
    (offered : info.configNum = kv.currentConfig.num → ∀ data, info.shards s = some data →
      a.offered kv.epoch ⟨data, info.lastOperations⟩) :
    Step (setting.owner s) Holding.fresh kv.gid a
      (follow a s kv.gid (kv.applyInsertShards info).1 (kv.turnAfter s a.turn (.insertShards info))
        a.value) := by
  by_cases now : info.configNum = kv.currentConfig.num
  · rw [ShardKV.applyInsertShards_of_eq now, ShardKV.turnAfter]
    by_cases used : (kv.stateMachines s).status = .pulling ∧ (info.shards s).isSome = true
    · obtain ⟨pulling, some⟩ := used
      obtain ⟨data, arrives⟩ := Option.isSome_iff_exists.mp some
      have waits : a.phase kv.gid = .awaiting := by
        rw [mirrors.phase, ShardKV.phase, pulling]
        rfl
      have copy := offered now data arrives
      rw [← mirrors.epoch] at copy
      rw [if_pos ⟨now, pulling, some⟩, ← mirrors.epoch]
      have more : (⟨data, info.lastOperations⟩ : Holding) ≤ ⟨data, fun clientId =>
          ShardKV.mergeContext (kv.lastOperations clientId) (info.lastOperations clientId)⟩ :=
        ⟨rfl, covers_merge_right kv.lastOperations info.lastOperations⟩
      refine step_follow (Step.install waits copy more) mirrors.epoch.symm ?_ ?_
      · simp [ShardKV.phase, arrives, Shard.insert, pulling, ShardStatus.phase]
      · simp [ShardKV.holding, arrives, Shard.insert, pulling]
    · rw [if_neg fun all => used all.2]
      have same : (kv.stateMachines s).insert (info.shards s) = kv.stateMachines s := by
        cases arrives : info.shards s with
        | none => rfl
        | some data => exact Shard.insert_of_ne (fun pulling => used ⟨pulling, by rw [arrives]; rfl⟩) _
      refine mirrors.grow rfl ?_ ?_
      · simp only [ShardKV.phase, same]
      · simp only [ShardKV.holding, same]
        exact ⟨rfl, covers_merge_left kv.lastOperations info.lastOperations⟩
  · rw [ShardKV.applyInsertShards_of_ne now, ShardKV.turnAfter, if_neg fun all => now all.1]
    exact mirrors.grow rfl rfl le_rfl

theorem Mirrors.deleteShards {info : ShardOperationRequest} (mirrors : Mirrors a s kv)
    (claimed : info.configNum = kv.currentConfig.num → s ∈ info.shardIDs → a.claimed kv.epoch) :
    Step (setting.owner s) Holding.fresh kv.gid a
      (follow a s kv.gid (kv.applyDeleteShards info).1 a.turn a.value) := by
  by_cases now : info.configNum = kv.currentConfig.num
  · rw [ShardKV.applyDeleteShards_of_eq now]
    by_cases listed : s ∈ info.shardIDs
    · cases status : (kv.stateMachines s).status with
      | serving | pulling =>
        refine mirrors.grow rfl ?_ (le_of_eq ?_)
        · simp [ShardKV.phase, listed, Shard.delete, status]
        · simp [ShardKV.holding, listed, Shard.delete, status]
      | bePulling =>
        have held : a.phase kv.gid = .held := by
          rw [mirrors.phase, ShardKV.phase, status]
          rfl
        have others := claimed now listed
        rw [← mirrors.epoch] at others
        refine step_follow (Step.discard held others (fresh_le kv.lastOperations))
          mirrors.epoch.symm ?_ ?_
        · simp [ShardKV.phase, listed, Shard.delete, status, ShardStatus.phase]
        · simp [ShardKV.holding, listed, Shard.delete, status]
      | gcing =>
        have settles : a.phase kv.gid = .settling := by
          rw [mirrors.phase, ShardKV.phase, status]
          rfl
        refine step_follow (Step.finish settles) mirrors.epoch.symm ?_ ?_
        · simp [ShardKV.phase, listed, Shard.delete, status, ShardStatus.phase]
        · simp [mirrors.data, ShardKV.holding, listed, Shard.delete, status]
    · refine mirrors.grow rfl ?_ (le_of_eq ?_)
      · simp only [ShardKV.phase, if_neg listed]
      · simp only [ShardKV.holding, if_neg listed]
  · rw [ShardKV.applyDeleteShards_of_ne now]
    exact mirrors.grow rfl rfl le_rfl

end

end DistSys.ShardKv
