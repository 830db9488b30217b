import DistSys.Shardctrler.Results
import DistSys.Shardctrler.Numbered

namespace DistSys.Shardctrler

variable {log : List Op} {op : Op} {k m : Nat} {sc sc' : ShardCtrler} {config : Option Config}

/-- How many entries of a log the servers can execute: all of them, or those
before the first that panics. -/
def executed (log : List Op) : Nat :=
  Nat.findGreatest (fun m => (replay (log.take m)).isSome = true) log.length

/-- The state before entry `k`. -/
def stateAt (log : List Op) (k : Nat) : ShardCtrler := (replay (log.take k)).getD startServer

theorem executed_le (log : List Op) : executed log ≤ log.length := Nat.findGreatest_le _

theorem le_executed (within : k ≤ log.length) (is : replay (log.take k) = some sc) :
    k ≤ executed log :=
  Nat.le_findGreatest within (by rw [is]; rfl)

theorem replay_executed (within : k ≤ executed log) :
    replay (log.take k) = some (stateAt log k) := by
  have last : (replay (log.take (executed log))).isSome = true :=
    Nat.findGreatest_spec (P := fun m => (replay (log.take m)).isSome = true) (Nat.zero_le _) rfl
  obtain ⟨sc, whole⟩ := Option.isSome_iff_exists.mp last
  obtain ⟨sc', _, _, first, _⟩ := exec_split (List.take_prefix_take_left within) whole
  have found : replay (log.take k) = some sc' := first
  rw [stateAt, found, Option.getD_some]

theorem apply_stateAt (within : k < executed log) (here : log[k]? = some op) :
    ∃ config, (stateAt log k).apply op = some (stateAt log (k + 1), config) := by
  have next := replay_executed (k := k + 1) within
  rw [replay_take_succ here, replay_executed within.le, Option.bind_some] at next
  obtain ⟨⟨sc, config⟩, applied, rfl⟩ := Option.map_eq_some_iff.mp next
  exact ⟨config, applied⟩

theorem right_iff (within : k ≤ executed log) :
    Right (log.take k) op config ↔ ∃ sc, (stateAt log k).apply op = some (sc, config) := by
  unfold Right
  rw [replay_executed within]
  constructor
  · rintro ⟨sc, sc', before, applied⟩
    cases before
    exact ⟨sc', applied⟩
  · rintro ⟨sc', applied⟩
    exact ⟨_, sc', rfl, applied⟩

/-- A history of configurations is never empty. -/
theorem configs_ne_nil (within : k ≤ executed log) : (stateAt log k).configs ≠ [] := by
  obtain ⟨requests, run⟩ := history_of_apply (replay_executed within)
  intro empty
  have first := (numbered_exec run).first
  rw [empty] at first
  cases first

theorem lookup_of_readConfig {configs : List Config} {num : Int} {found : Config}
    (nonempty : configs ≠ []) (is : readConfig configs num = some found) :
    lookup configs num = some found := by
  have last : some (latest configs) = configs.getLast? := by
    rw [latest, List.getLast?_eq_some_getLast nonempty, Option.getD_some]
  unfold readConfig at is
  unfold lookup
  split at is
  next beyond =>
    rw [if_neg (by omega), if_pos (by omega), ← last]
    exact is
  next known =>
    split at is
    next => cases is
    next => rw [if_pos (by omega)]; exact is

theorem fresh_iff : Ledger.Fresh Op.clientID Op.requestID sc.lastAppliedReq op ↔
    sc.isDuplicate op.clientID op.requestID = false := by
  unfold Ledger.Fresh ShardCtrler.isDuplicate
  cases sc.lastAppliedReq op.clientID with
  | none => simp
  | some last => simp

/-- The applier executes the log as a replicated object does that suppresses
duplicates. -/
theorem executes (log : List Op) :
    Ledger.Executes Op.clientID Op.requestID Right (fun op => op.request.type ≠ .query) Op.request
      configStep log (executed log) (fun k => (stateAt log k).configs)
      (fun k => (stateAt log k).lastAppliedReq) where
  first _ := rfl
  reached := by
    rintro k op v here ⟨sc, sc', before, applied⟩
    have within := (List.getElem?_eq_some_iff.mp here).1
    have replayed : replay (log.take (k + 1)) = some sc' := by
      rw [replay_take_succ here, before, Option.bind_some, applied, Option.map_some]
    exact le_executed within replayed
  entry within := ⟨_, List.getElem?_eq_getElem (within.trans_le (executed_le log))⟩
  answer := by
    intro k op within here
    obtain ⟨config, applied⟩ := apply_stateAt within here
    exact ⟨config, (right_iff within.le).mpr ⟨_, applied⟩⟩
  anywhere := by
    rintro k k' op v changes within here ⟨_, _, _, applied⟩
    obtain ⟨config, applied'⟩ := apply_stateAt within here
    rw [apply_config applied changes, ← apply_config applied' changes]
    exact (right_iff within.le).mpr ⟨_, applied'⟩
  read := by
    intro k op within here reads
    obtain ⟨config, applied⟩ := apply_stateAt within here
    obtain ⟨num, is⟩ : ∃ num, op.request = .query num := by
      cases request : op.request with
      | query num => exact ⟨num, rfl⟩
      | _ => exact absurd (by rw [request]; exact fun same => OpType.noConfusion same) reads
    have same : stateAt log (k + 1) = stateAt log k := by
      rw [ShardCtrler.apply, is] at applied
      obtain ⟨_, _, same⟩ := Option.map_eq_some_iff.mp applied
      exact (congrArg Prod.fst same).symm
    refine ⟨by rw [same], by rw [same], fun v right => ?_⟩
    obtain ⟨sc, answered⟩ := (right_iff within.le).mp right
    rw [ShardCtrler.apply, is] at answered
    obtain ⟨found, lookedUp, same⟩ := Option.map_eq_some_iff.mp answered
    cases same
    rw [is, configStep, if_pos (lookup_of_readConfig (configs_ne_nil within.le) lookedUp)]
  write := by
    intro k op within here changes fresh
    obtain ⟨config, applied⟩ := apply_stateAt within here
    obtain ⟨configs, changed, same⟩ := apply_fresh changes (fresh_iff.mp fresh) applied
    rw [same]
    refine ⟨rfl, fun v right => ?_⟩
    obtain ⟨_, answered⟩ := (right_iff within.le).mp right
    rw [apply_config answered changes, ← changed]
    cases request : op.request with
    | query num => rw [request] at changes; exact absurd rfl changes
    | _ => rfl
  skip := by
    intro k op within here changes stale
    obtain ⟨config, applied⟩ := apply_stateAt within here
    have duplicate : (stateAt log k).isDuplicate op.clientID op.requestID = true := by
      rwa [fresh_iff, Bool.not_eq_false] at stale
    rw [apply_duplicate changes duplicate applied]
    exact ⟨rfl, rfl⟩

namespace System

variable {sys : System}

/-- The history that the clerks see. -/
def history (sys : System) : List (Linearizable.Operation Request (Option Config)) :=
  Ledger.history Op.request sys.ledger

end System

end DistSys.Shardctrler
