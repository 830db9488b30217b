import DistSys.Shardctrler.Server
import DistSys.Core.Exec

namespace DistSys.Shardctrler

theorem join_num (prev : Config) (servers : Groups) : (prev.join servers).num = prev.num + 1 := by
  unfold Config.join
  simp only
  split <;> rfl

theorem leave_num (prev : Config) (gids : List Int) : (prev.leave gids).num = prev.num + 1 := by
  unfold Config.leave
  simp only
  split <;> rfl

theorem move_num {prev config : Config} {shard gid : Int} (moved : prev.move shard gid = some config) :
    config.num = prev.num + 1 := by
  unfold Config.move at moved
  split at moved
  next => cases moved; rfl
  next => cases moved

/-- A change appends at most one configuration, with the next number. -/
theorem change_cases {configs configs' : List Config} {request : Request}
    (step : change configs request = some configs') :
    configs' = configs ∨ ∃ config, configs' = configs ++ [config] ∧
      config.num = (latest configs).num + 1 := by
  cases request with
  | join servers => cases step; exact Or.inr ⟨_, rfl, join_num _ servers⟩
  | leave gids => cases step; exact Or.inr ⟨_, rfl, leave_num _ gids⟩
  | move shard gid =>
    obtain ⟨config, moved, rfl⟩ := Option.map_eq_some_iff.mp step
    exact Or.inr ⟨config, rfl, move_num moved⟩
  | query num => cases step; exact Or.inl rfl

/-- Configurations are numbered by their position. -/
structure Numbered (configs : List Config) : Prop where
  first : configs[0]? = some defaultConfig
  num : ∀ {n : Nat} {config : Config}, configs[n]? = some config → config.num = n

theorem Numbered.latest_num {configs : List Config} (numbered : Numbered configs) :
    (latest configs).num + 1 = configs.length := by
  have positive : 0 < configs.length := (List.getElem?_eq_some_iff.mp numbered.first).1
  have inside : configs.length - 1 < configs.length := by omega
  have last := List.getElem?_eq_getElem inside
  have num := numbered.num last
  rw [latest, List.getLast?_eq_getElem?, last, Option.getD_some]
  omega

theorem Numbered.concat {configs : List Config} {config : Config} (numbered : Numbered configs)
    (next : config.num = (latest configs).num + 1) : Numbered (configs ++ [config]) where
  first := by
    have positive := (List.getElem?_eq_some_iff.mp numbered.first).1
    rw [List.getElem?_append_left positive, numbered.first]
  num := by
    intro n found here
    have length := numbered.latest_num
    rcases getElem?_concat_cases here with old | ⟨rfl, rfl⟩
    · exact numbered.num old
    · omega

theorem numbered_exec {requests : List Request} {configs : List Config}
    (run : exec change [defaultConfig] requests = some configs) : Numbered configs := by
  refine exec_invariant (P := Numbered) ⟨rfl, ?_⟩ ?_ run
  · intro n config found
    cases n with
    | zero => cases found; rfl
    | succ n => cases found
  · intro configs request configs' numbered step
    rcases change_cases step with rfl | ⟨config, rfl, next⟩
    · exact numbered
    · exact numbered.concat next

/-- Duplicates and queries leave no trace: the history of a controller is always
that of the changes it has executed. -/
theorem history_of_apply {ops : List Op} {sc : ShardCtrler}
    (run : exec (fun sc op => (ShardCtrler.apply sc op).map Prod.fst) startServer ops = some sc) :
    ∃ requests, exec change [defaultConfig] requests = some sc.configs := by
  refine exec_invariant (P := fun sc : ShardCtrler =>
    ∃ requests, exec change [defaultConfig] requests = some sc.configs) ⟨[], rfl⟩ ?_ run
  rintro sc ⟨request, clientID, requestID⟩ sc' ⟨requests, before⟩ next
  obtain ⟨⟨_, answer⟩, applied, rfl⟩ := Option.map_eq_some_iff.mp next
  cases request with
  | query num =>
    obtain ⟨config, _, same⟩ := Option.map_eq_some_iff.mp applied
    cases same
    exact ⟨requests, before⟩
  | _ =>
    simp only [ShardCtrler.apply] at applied
    split at applied
    next =>
      cases applied
      exact ⟨requests, before⟩
    next =>
      obtain ⟨configs, changed, same⟩ := Option.map_eq_some_iff.mp applied
      cases same
      exact ⟨_, exec_concat before changed⟩

end DistSys.Shardctrler
