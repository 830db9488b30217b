import DistSys.ShardKv.Trace

namespace DistSys.ShardKv

open Shardctrler (NShards Config defaultConfig)

theorem Setting.Controlled.numbered {setting : Setting} (controlled : setting.Controlled) :
    setting.Numbered := by
  obtain ⟨requests, run⟩ := controlled
  exact Shardctrler.numbered_exec run

namespace World

variable {w w' : World} {setting : Setting} {g h : Int} {k n : Nat} {a : Action} {s : Fin NShards}
variable {as : List Action}

/-- Whenever a configuration takes effect, it is the next one of the history and
nothing is under way. -/
def Orderly (setting : Setting) (w : World) : Prop :=
  ∀ (g : Int) (p : Nat) (config : Config), (w.group g).log[p]? = some (.configuration config) →
    config.num = (w.stateAt g p).currentConfig.num + 1 →
    (w.stateAt g p).allServing ∧ ∃ n : Nat, config.num = n ∧ setting.configs[n]? = some config

/-- The proposer saw all shards served in some prefix with the same
configuration, and they stay served until the configuration changes. -/
theorem Sourced.orderly {config : Config} (sourced : Sourced setting w g (.configuration config))
    (effective : config.num = (w.state g).currentConfig.num + 1) :
    (w.state g).allServing ∧ ∃ n : Nat, config.num = n ∧ setting.configs[n]? = some config := by
  obtain ⟨k, _, serving, next, found⟩ := sourced
  refine ⟨?_, found⟩
  have same : (w.state g).currentConfig.num = (w.stateAt g k).currentConfig.num := by omega
  rw [w.state_eq_replay g k] at same ⊢
  exact ShardKV.replay_allServing serving same

theorem Orderly.follows (orderly : Orderly setting w) (follows : Follows setting w w') :
    Orderly setting w' := by
  intro g p config here next
  rw [follows.log] at here
  have applied : w.applied g p := (List.getElem?_eq_some_iff.mp here).1.le
  rw [follows.grows.stateAt applied] at next ⊢
  exact orderly g p config here next

theorem Orderly.commit {i : Nat} (orderly : Orderly setting w) (traced : Traced setting w)
    (next : w.commit g i = some w') : Orderly setting w' := by
  have grows := grows_commit next
  obtain ⟨_, command, found, rfl⟩ := commit_cases next
  intro h p config here effective
  have old : ∀ {q}, (w.group h).log[p]? = some q → w.applied h p := fun inside =>
    (List.getElem?_eq_some_iff.mp inside).1.le
  by_cases acting : h = g
  · subst acting
    rw [setGroup_log_self] at here
    rcases getElem?_concat_cases here with inside | ⟨rfl, rfl⟩
    · rw [grows.stateAt (old inside)] at effective ⊢
      exact orderly h p config inside effective
    · have applied : w.applied h (w.group h).log.length := Nat.le_refl _
      rw [grows.stateAt applied, stateAt_length] at effective ⊢
      exact (traced.proposed h _ (List.mem_of_getElem? found)).orderly effective
  · rw [setGroup_group_of_ne _ _ acting] at here
    rw [grows.stateAt (old here)] at effective ⊢
    exact orderly h p config here effective

theorem Orderly.step (numbered : setting.Numbered) (orderly : Orderly setting w)
    (traced : Traced setting w) (next : w.step setting a = some w') : Orderly setting w' := by
  rcases step_cases numbered next with follows | ⟨g, i, _, commit⟩
  · exact orderly.follows follows
  · exact orderly.commit traced commit

theorem orderly_initial (setting : Setting) : Orderly setting World.initial := by
  intro g p config here
  cases here

theorem traced_orderly_after (numbered : setting.Numbered) (run : World.after setting as = some w) :
    Traced setting w ∧ Orderly setting w :=
  exec_invariant (P := fun w => Traced setting w ∧ Orderly setting w)
    ⟨traced_initial setting, orderly_initial setting⟩
    (fun _ _ _ old next => ⟨old.1.step numbered next, old.2.step numbered old.1 next⟩) run

/-- The configurations of a group are two successive ones of the history. -/
structure Placed (setting : Setting) (kv : ShardKV) : Prop where
  current : ∃ n : Nat, kv.currentConfig.num = n ∧ setting.configs[n]? = some kv.currentConfig
  last : ∀ n : Nat, kv.currentConfig.num = n + 1 → setting.configs[n]? = some kv.lastConfig

theorem placed_start (numbered : setting.Numbered) (g : Int) : Placed setting (startServer g) where
  current := ⟨0, rfl, numbered.first⟩
  last n next := by
    have zero : (startServer g).currentConfig.num = 0 := rfl
    omega

theorem Placed.apply {kv : ShardKV} {command : Command} (placed : Placed setting kv)
    (effective : ∀ config : Config, command = .configuration config →
      config.num = kv.currentConfig.num + 1 →
      ∃ n : Nat, config.num = n ∧ setting.configs[n]? = some config) :
    Placed setting (kv.apply command).1 := by
  rcases kv.apply_cases command with ⟨config, rfl, next⟩ | ⟨current, last, _⟩
  · rw [ShardKV.apply, ShardKV.applyConfiguration_of_next next]
    refine ⟨effective config rfl next, fun n number => ?_⟩
    obtain ⟨m, now, found⟩ := placed.current
    have same : m = n := by
      simp only at number
      omega
    rwa [← same]
  · refine ⟨by rw [current]; exact placed.current, ?_⟩
    rw [current, last]
    exact placed.last

/-- Every replica is placed, however little of the log it has applied. -/
theorem Orderly.placed (orderly : Orderly setting w) (numbered : setting.Numbered) (g : Int) (k : Nat) :
    Placed setting (w.stateAt g k) := by
  induction k with
  | zero => exact placed_start numbered g
  | succ k ih =>
    cases here : (w.group g).log[k]? with
    | some command =>
      rw [stateAt_succ here]
      refine ih.apply fun config is next => ?_
      subst is
      exact (orderly g k config here next).2
    | none =>
      rw [stateAt, List.take_add_one, here, Option.toList_none, List.append_nil]
      exact ih

theorem Orderly.placed_state (orderly : Orderly setting w) (numbered : setting.Numbered) (g : Int) :
    Placed setting (w.state g) := by
  rw [← stateAt_length]
  exact orderly.placed numbered g _

/-- Reconfigurations happen one at a time: whenever a configuration takes effect
in the log of a group, all shards of that group are being served just before. -/
theorem one_reconfiguration_at_a_time (controlled : setting.Controlled)
    (run : World.after setting as = some w) {p : Nat} {config : Config}
    (here : (w.group g).log[p]? = some (.configuration config))
    (effective : config.num = (w.stateAt g p).currentConfig.num + 1) :
    ∀ i, ((w.stateAt g p).stateMachines i).status = .serving :=
  ((traced_orderly_after controlled.numbered run).2 g p config here effective).1

/-- Each group has one server, whose name is the group's number. -/
def namedServer : GoString → Int
  | [name] => name.toNat
  | _ => 0

/-- Group 1 joins, and then group 2. -/
def twoJoins : Setting :=
  .ofRequests [.join (Shardctrler.groupsOf [(1, [[1]])]), .join (Shardctrler.groupsOf [(2, [[2]])])]
    namedServer

theorem controlled_twoJoins : twoJoins.Controlled :=
  Setting.controlled_ofRequests (by decide)

/-- Group 1 goes through both configurations, and keeps some shards for group 2. -/
def twoReconfigurations : List Action :=
  [.configure 1 0 3, .commit 1 0, .configure 1 1 3, .commit 1 1]

theorem one_reconfiguration_at_a_time_second :
    (((World.final twoJoins twoReconfigurations (by decide)).state 1).stateMachines
        ⟨0, by decide⟩).status = .bePulling ∧
      ∀ i, (((World.final twoJoins twoReconfigurations (by decide)).stateAt 1 1).stateMachines
        i).status = .serving := by
  have here : ((World.final twoJoins twoReconfigurations (by decide)).group 1).log[1]? =
      some (.configuration ((twoJoins.configs[2]?).getD defaultConfig)) := rfl
  exact ⟨by decide,
    one_reconfiguration_at_a_time controlled_twoJoins (World.after_final _ _ _) here rfl⟩

end World

end DistSys.ShardKv
