import DistSys.ShardKv.Simulation

namespace DistSys.ShardKv

open Shardctrler (NShards Config)

/-- How the statuses of a group fit its last and its current configuration. -/
structure StatusInvariant (kv : ShardKV) : Prop where
  receives : ∀ s, (kv.stateMachines s).status = .pulling ∨ (kv.stateMachines s).status = .gcing →
    kv.currentConfig.shards s = kv.gid ∧ kv.lastConfig.shards s ≠ kv.gid ∧
      kv.lastConfig.shards s ≠ 0
  sends : ∀ s, (kv.stateMachines s).status = .bePulling →
    kv.lastConfig.shards s = kv.gid ∧ kv.currentConfig.shards s ≠ kv.gid ∧
      kv.currentConfig.shards s ≠ 0
  empties : ∀ s, (kv.stateMachines s).status = .serving → kv.currentConfig.shards s ≠ kv.gid →
    (kv.stateMachines s).kv = emptyKV
  successive : 0 < kv.currentConfig.num → kv.lastConfig.num = kv.currentConfig.num - 1

namespace World

variable {w : World} {setting : Setting} {as : List Action} {s : Fin NShards} {n : Nat} {h : Int}
variable {kv : ShardKV}

/-- The schedule, read in the configurations that a group has. -/
theorem Placed.owner_current (placed : Placed setting kv) :
    setting.owner s kv.epoch = some h ↔ h ≠ 0 ∧ kv.currentConfig.shards s = h := by
  constructor
  · intro owned
    have nonzero := owner_ne_zero owned
    exact ⟨nonzero, (owner_eq_some_iff placed.found.1 nonzero).mp owned⟩
  · rintro ⟨nonzero, owned⟩
    exact (owner_eq_some_iff placed.found.1 nonzero).mpr owned

theorem Placed.found_last (placed : Placed setting kv) (positive : 0 < kv.epoch) :
    setting.configs[kv.epoch - 1]? = some kv.lastConfig := by
  have num := placed.found.2
  exact placed.last (kv.epoch - 1) (by omega)

theorem Placed.owner_last (placed : Placed setting kv) (positive : 0 < kv.epoch)
    (owned : setting.owner s (kv.epoch - 1) = some h) : h ≠ 0 ∧ kv.lastConfig.shards s = h := by
  have nonzero := owner_ne_zero owned
  exact ⟨nonzero, (owner_eq_some_iff (placed.found_last positive) nonzero).mp owned⟩

/-- The shape of every shard gives the statuses. -/
theorem Steady.status (steady : Steady setting w) (numbered : setting.Numbered) (g : Int) :
    StatusInvariant (w.state g) := by
  have placed := steady.orderly.placed_state numbered g
  have gid := w.state_gid g
  refine ⟨fun s receiving => ?_, fun s sending => ?_, fun s serving away => ?_, fun positive => ?_⟩
  · have waits : (w.state g).phase s = .awaiting ∨ (w.state g).phase s = .settling :=
      receiving.imp (fun is => by rw [ShardKV.phase, is]; rfl) phase_eq_settling
    obtain ⟨positive, mine, h, other, theirs⟩ := (steady.shaped.state s g).awaiting waits
    obtain ⟨nonzero, last⟩ := placed.owner_last positive theirs
    rw [gid, last]
    exact ⟨(placed.owner_current.mp mine).2, other, nonzero⟩
  · obtain ⟨positive, mine, h, other, theirs⟩ := (steady.shaped.state s g).held (phase_eq_held sending)
    obtain ⟨nonzero, current⟩ := placed.owner_current.mp theirs
    rw [gid, current]
    exact ⟨(placed.owner_last positive mine).2, other, nonzero⟩
  · have idle : (w.state g).phase s = .steady := by
      rw [ShardKV.phase, serving]
      rfl
    have none : setting.owner s (w.state g).epoch ≠ some g := fun owned =>
      away ((placed.owner_current.mp owned).2.trans gid.symm)
    exact ((steady.shaped.state s g).idle idle none).1.symm
  · have num := placed.found.2
    have before := numbered.num (placed.found_last (by omega))
    omega

/-- Every committed state of every group satisfies the status invariant. -/
theorem shard_status_invariant (controlled : setting.Controlled)
    (run : World.after setting as = some w) (g : Int) : StatusInvariant (w.state g) :=
  (steady_after controlled.numbered run).status controlled.numbered g

theorem shard_status_invariant_bePulling :
    (((World.final twoJoins twoReconfigurations (by decide)).state 1).stateMachines
        ⟨0, by decide⟩).status = .bePulling ∧
      StatusInvariant ((World.final twoJoins twoReconfigurations (by decide)).state 1) :=
  ⟨by decide, shard_status_invariant controlled_twoJoins (World.after_final _ _ _) 1⟩

end World

end DistSys.ShardKv
