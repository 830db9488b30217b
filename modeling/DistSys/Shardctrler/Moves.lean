import DistSys.Shardctrler.Balance
import DistSys.Shardctrler.Numbered

namespace DistSys.Shardctrler

variable {prev config : Config} {configs : List Config} {request : Request} {shard gid : Int}

/-- A change that the controller's users may ask for: joining gids are not the
reserved gid 0, and a move names a shard and a group of the latest configuration. -/
def Request.Sensible (configs : List Config) : Request → Prop
  | .join servers => 0 ∉ servers
  | .leave _ => True
  | .move shard gid => 0 ≤ shard ∧ shard < NShards ∧ gid ∈ (latest configs).groups
  | .query _ => False

instance decidableSensible (configs : List Config) :
    (request : Request) → Decidable (request.Sensible configs)
  | .join servers => inferInstanceAs (Decidable (0 ∉ servers))
  | .leave _ => inferInstanceAs (Decidable True)
  | .move shard gid =>
    inferInstanceAs (Decidable (0 ≤ shard ∧ shard < NShards ∧ gid ∈ (latest configs).groups))
  | .query _ => inferInstanceAs (Decidable False)

theorem sortedGIDs_eq_nil {groups : Groups} : sortedGIDs groups = [] ↔ groups = ∅ := by
  constructor
  · intro empty
    refine AList.ext (List.eq_nil_iff_forall_not_mem.mpr fun entry member => ?_)
    exact not_mem_of_empty empty entry.1 (List.mem_keys_of_mem member)
  · rintro rfl
    rfl

/-- A move to a present group takes one shard from its owner, so all shards stay
housed, however uneven the groups become. -/
theorem Housed.move (housed : Housed prev) (present : gid ∈ prev.groups)
    (moved : prev.move shard gid = some config) : Housed config := by
  have nonempty : sortedGIDs prev.groups ≠ [] := List.ne_nil_of_mem (mem_sortedGIDs.mpr present)
  unfold Config.move at moved
  split at moved
  next inside =>
    cases moved
    refine ⟨housed.zero, fun empty => absurd empty nonempty, fun _ i => ?_⟩
    by_cases here : i = ⟨shard.toNat, inside.2⟩
    · subst here
      simp only [Function.update_self]
      exact present
    · simp only [Function.update_of_ne here]
      exact housed.member nonempty i
  next => cases moved

theorem move_isSome (prev : Config) (gid : Int) (lower : 0 ≤ shard) (upper : shard < NShards) :
    ∃ config, prev.move shard gid = some config := by
  have inside : 0 ≤ shard ∧ shard.toNat < NShards := ⟨lower, by omega⟩
  unfold Config.move
  rw [dif_pos inside]
  exact ⟨_, rfl⟩

/-- One sensible change appends one configuration in which all shards are housed. -/
theorem change_housed (sensible : request.Sensible configs) (housed : Housed (latest configs)) :
    ∃ next, change configs request = some (configs ++ [next]) ∧ Housed next := by
  cases request with
  | join servers => exact ⟨_, rfl, housed.join sensible⟩
  | leave gids => exact ⟨_, rfl, housed.leave gids⟩
  | move shard gid =>
    obtain ⟨lower, upper, present⟩ := sensible
    obtain ⟨config, moved⟩ := move_isSome (latest configs) gid lower upper
    refine ⟨config, ?_, housed.move present moved⟩
    rw [change, applyMove, moved]
    rfl
  | query num => exact absurd sensible id

theorem latest_concat (configs : List Config) (config : Config) :
    latest (configs ++ [config]) = config := by
  rw [latest, List.getLast?_concat, Option.getD_some]

theorem housed_exec {requests : List Request}
    (sensible : Along change [defaultConfig] requests fun configs request => request.Sensible configs) :
    ∃ configs, exec change [defaultConfig] requests = some configs ∧
      configs.length = requests.length + 1 ∧ Housed (latest configs) ∧
      ∀ config ∈ configs, Housed config := by
  refine exec_along_exists (P := fun requests configs => configs.length = requests.length + 1 ∧
    Housed (latest configs) ∧ ∀ config ∈ configs, Housed config) ?_ ?_ sensible
  · refine ⟨rfl, housed_default, fun config member => ?_⟩
    rw [List.mem_singleton.mp member]
    exact housed_default
  · intro requests configs request _ ⟨length, last, all⟩ valid
    obtain ⟨next, changed, housed⟩ := change_housed valid last
    refine ⟨configs ++ [next], changed, by simp [length], ?_, fun config member => ?_⟩
    · rwa [latest_concat]
    · rcases List.mem_append.mp member with old | new
      · exact all config old
      · rw [List.mem_singleton.mp new]
        exact housed

/-- No shard is ever orphaned: after any joins, leaves and moves, every
configuration of the history gives every shard to one of its groups, or all
shards to nobody when it has no group, and carries its position as number. -/
theorem no_orphan_shards (requests : List Request)
    (sensible : Along change [defaultConfig] requests fun configs request => request.Sensible configs) :
    ∃ configs, exec change [defaultConfig] requests = some configs ∧
      configs.length = requests.length + 1 ∧
      ∀ (i : Nat) config, configs[i]? = some config → config.num = i ∧
        (config.groups ≠ ∅ → ∀ s, config.shards s ∈ config.groups) ∧
        (config.groups = ∅ → ∀ s, config.shards s = 0) := by
  obtain ⟨configs, run, length, _, all⟩ := housed_exec sensible
  refine ⟨configs, run, length, fun i config here => ?_⟩
  have housed := all config (List.mem_of_getElem? here)
  refine ⟨(numbered_exec run).num here, fun nonempty => ?_, fun empty => ?_⟩
  · exact housed.member fun none => nonempty (sortedGIDs_eq_nil.mp none)
  · exact housed.empty (sortedGIDs_eq_nil.mpr empty)

/-- Three groups join, all but one shard of the first are moved to the second, and
the second leaves; then everybody leaves. -/
def moveHistory : List Request :=
  [.join (groupsOf [(1, []), (2, []), (3, [])]), .move 0 2, .move 1 2, .move 2 2, .leave [2],
    .leave [1, 3]]

theorem no_orphan_shards_uneven :
    (Along change [defaultConfig] moveHistory fun configs request => request.Sensible configs) ∧
      ∃ configs, exec change [defaultConfig] moveHistory = some configs ∧ configs.length = 7 := by
  have sensible : Along change [defaultConfig] moveHistory fun configs request =>
      request.Sensible configs := by decide
  obtain ⟨configs, run, length, _⟩ := no_orphan_shards moveHistory sensible
  exact ⟨sensible, configs, run, length⟩

end DistSys.Shardctrler
