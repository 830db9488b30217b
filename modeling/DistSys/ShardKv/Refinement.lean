import DistSys.ShardKv.Exclusive

namespace DistSys.ShardKv

open Shardctrler (NShards Config)

/-- One unsharded store: what an operation does to it, and the value it returns. -/
def Store.execute (store : KV) (request : CommandRequest) : KV × GoString :=
  match request.op with
  | .get => (store, (store request.key).getD [])
  | .put => (Function.update store request.key (some request.value), [])
  | .append =>
    (Function.update store request.key (some ((store request.key).getD [] ++ request.value)), [])

/-- A shard that some group has owned is never again without an owner. -/
def Setting.NoReturn (setting : Setting) : Prop :=
  setting.configs.Pairwise fun earlier later => ∀ s, earlier.shards s ≠ 0 → later.shards s ≠ 0

instance (setting : Setting) : Decidable setting.NoReturn :=
  inferInstanceAs (Decidable (List.Pairwise _ _))

section
variable {setting : Setting} {s : Fin NShards} {request : CommandRequest} {shard store : KV}

theorem execute_fst (store : KV) (request : CommandRequest) :
    (Store.execute store request).1 = request.write store := by
  unfold Store.execute CommandRequest.write
  cases request.op <;> rfl

/-- An operation on a shard acts as on the whole store. -/
theorem write_eq_of_agrees {key : GoString}
    (agrees : ∀ key, key2shard key = key2shard request.key → shard key = store key)
    (here : key2shard key = key2shard request.key) : request.write shard key = request.write store key := by
  have own := agrees request.key rfl
  unfold CommandRequest.write
  by_cases same : key = request.key
  · subst same
    cases request.op <;> simp [own]
  · cases request.op <;> simp [same, agrees key here]

theorem write_eq_of_ne {key : GoString} (away : key2shard key ≠ key2shard request.key) :
    request.write store key = store key := by
  have other : key ≠ request.key := fun same => away (by rw [same])
  unfold CommandRequest.write
  cases request.op <;> simp [other]

/-- What an executed operation returns is read in its shard. -/
theorem response_value {kv : ShardKV} (executed : kv.executes request)
    (agrees : (kv.stateMachines (key2shard request.key)).kv request.key = store request.key) :
    (kv.applyOperation request).2.value = (Store.execute store request).2 := by
  by_cases read : request.op = .get
  · rw [ShardKV.applyOperation_get executed read]
    simp only [Shard.get, agrees, Store.execute, read]
    cases store request.key <;> rfl
  · have new := executed.2.resolve_left read
    unfold ShardKV.applyOperation ShardKV.applyLogToStateMachines Store.execute
    simp only
    rw [if_pos executed.1, if_neg (by rw [new]; simp), if_pos read]
    cases op : request.op with
    | get => exact absurd op read
    | put => rfl
    | append => rfl

theorem Setting.NoReturn.unowned (noReturn : setting.NoReturn) {m n : Nat} (early : m ≤ n)
    {config : Config} (found : setting.configs[n]? = some config) (free : config.shards s = 0) :
    setting.owner s m = none := by
  have bound := (List.getElem?_eq_some_iff.mp found).1
  have there := List.getElem?_eq_getElem (l := setting.configs) (i := m) (by omega)
  rw [owner_eq_none_iff there]
  rcases Nat.eq_or_lt_of_le early with same | before
  · subst same
    rw [found] at there
    rwa [← Option.some.inj there]
  · by_contra owned
    have kept := List.pairwise_iff_getElem.mp noReturn m n (by omega) bound before s owned
    rw [(List.getElem?_eq_some_iff.mp found).2] at kept
    exact kept free

end

namespace World

variable {w w' : World} {setting : Setting} {g : Int} {a : Action} {s : Fin NShards}
variable {as : List Action} {ghost : Nat × Holding} {config : Config} {request : CommandRequest}

/-- What a step does to the unsharded store: an operation that is executed acts
on it and returns its value, and nothing else changes it. -/
def StoreStep (w : World) (a : Action) (before after : KV) : Prop :=
  match w.committed a with
  | some (g, .operation request) =>
    if (w.state g).executes request then
      after = (Store.execute before request).1 ∧
        ((w.state g).applyOperation request).2.value = (Store.execute before request).2
    else after = before
  | _ => after = before

theorem takesVacated_of_noReturn (noReturn : setting.NoReturn) (numbered : setting.Numbered)
    (steady : Steady setting w) (a : Action) : TakesVacated setting w a := by
  rintro ⟨g, command⟩ _ s takes e early h owned _
  cases command with
  | configuration config =>
    obtain ⟨_, free, _⟩ := takes
    have now := (steady.orderly.placed_state numbered g).found.1
    have none := noReturn.unowned (Nat.lt_succ_iff.mp early) now free
    rw [none] at owned
    cases owned
  | _ => exact absurd takes id

theorem owned_of_noReturn (noReturn : setting.NoReturn) (numbered : setting.Numbered)
    (run : World.after setting as = some w) (s : Fin NShards) :
    Owned setting s w (ghostAfter setting s as) :=
  owned_after numbered
    (fun _ a _ _ before => takesVacated_of_noReturn noReturn numbered (steady_after numbered before) a)
    run s

/-- A group that serves a shard has the data that its owner knows. -/
theorem Owned.kv_eq (owned : Owned setting s w ghost) (numbered : setting.Numbered)
    (steady : Steady setting w) (nonzero : g ≠ 0) (serves : (w.state g).canServe s) :
    ghost.2.kv = ((w.state g).stateMachines s).kv :=
  (owned.value_le (steady.live numbered nonzero serves ghost)).1

/-- A shard is taken from nobody only while it is fresh. -/
theorem Owned.value_takes (owned : Owned setting s w ghost) (noReturn : setting.NoReturn)
    (numbered : setting.Numbered) (steady : Steady setting w) (nonzero : g ≠ 0)
    (sourced : Sourced setting w g (.configuration config))
    (takes : config.num = (w.state g).currentConfig.num + 1 ∧ config.shards s = (w.state g).gid ∧
      (w.state g).currentConfig.shards s = 0) : ghost.2 = Holding.fresh := by
  obtain ⟨effective, mine, free⟩ := takes
  rw [state_gid] at mine
  obtain ⟨now, epoch⟩ := (steady.orderly.placed_state numbered g).found
  obtain ⟨_, n, num, there⟩ := sourced.orderly effective
  have after : n = (w.state g).epoch + 1 := by omega
  subst after
  exact owned.value_eq_fresh ((owner_eq_some_iff there nonzero).mpr mine)
    fun e early => noReturn.unowned early now free

/-- Only an executed operation on the shard changes what its owner knows of the
data. -/
theorem Owned.valueAfter_kv (owned : Owned setting s w ghost) (noReturn : setting.NoReturn)
    (numbered : setting.Numbered) (steady : Steady setting w) (nonzero : g ≠ 0) {command : Command}
    (sourced : Sourced setting w g command)
    (other : ∀ request, command = .operation request → (w.state g).executes request →
      key2shard request.key ≠ s) :
    (w.state g).valueAfter s ghost.2 command = ghost.2 := by
  cases command with
  | operation request =>
    rw [ShardKV.valueAfter, if_neg fun both => other request rfl both.1 both.2]
  | configuration config =>
    rw [ShardKV.valueAfter]
    split
    next takes => exact (owned.value_takes noReturn numbered steady nonzero sourced takes).symm
    next => rfl
  | _ => rfl

/-- The unsharded store after a run: each key is read where its shard is. -/
def view (setting : Setting) (as : List Action) : KV :=
  fun key => (ghostAfter setting (key2shard key) as).2.kv key

theorem view_commit (run : World.after setting as = some w) (next : w.step setting a = some w')
    {command : Command} (commits : w.committed a = some (g, command)) (key : GoString) :
    view setting (as ++ [a]) key =
      ((w.state g).valueAfter (key2shard key) (ghostAfter setting (key2shard key) as).2 command).kv key := by
  rw [view, ghostAfter, observe_concat _ run next, track, commits]
  rfl

/-- The groups together refine one unsharded store. -/
theorem refines_one_store (controlled : setting.Controlled) (noReturn : setting.NoReturn) :
    ∃ view : List Action → KV, view [] = emptyKV ∧
      ∀ as a w w', World.after setting as = some w → w.step setting a = some w' →
        StoreStep w a (view as) (view (as ++ [a])) := by
  have numbered := controlled.numbered
  refine ⟨view setting, rfl, fun as a w w' run next => ?_⟩
  have steady := steady_after numbered run
  have owned := owned_of_noReturn noReturn numbered run
  rcases step_committed numbered next with ⟨_, none⟩ | ⟨g, i, command, found, commit, commits⟩
  · rw [StoreStep, none]
    funext key
    rw [view, ghostAfter, observe_concat _ run next, track, none]
    rfl
  · have nonzero := (commit_log found commit).1
    have sourced := steady.traced.proposed g command (List.mem_of_getElem? found)
    have rest (key : GoString) (other : ∀ request, command = .operation request →
        (w.state g).executes request → key2shard request.key ≠ key2shard key) :
        view setting (as ++ [a]) key = view setting as key := by
      rw [view_commit run next commits,
        (owned _).valueAfter_kv noReturn numbered steady nonzero sourced other]
      rfl
    rw [StoreStep, commits]
    cases command with
    | operation request =>
      simp only
      split
      next executed =>
        have agrees (key : GoString) (here : key2shard key = key2shard request.key) :
            ((w.state g).stateMachines (key2shard request.key)).kv key = view setting as key := by
          rw [view, here, (owned _).kv_eq numbered steady nonzero executed.1]
        refine ⟨?_, response_value executed (agrees request.key rfl)⟩
        funext key
        rw [execute_fst]
        by_cases here : key2shard key = key2shard request.key
        · rw [view_commit run next commits, ShardKV.valueAfter,
            if_pos ⟨executed, here.symm⟩, here]
          exact write_eq_of_agrees agrees here
        · rw [write_eq_of_ne here]
          exact rest key fun other is _ same => by cases is; exact here same.symm
      next skipped =>
        funext key
        exact rest key fun other is executed => by cases is; exact absurd executed skipped
    | configuration => funext key; exact rest key fun _ is => by cases is
    | insertShards => funext key; exact rest key fun _ is => by cases is
    | deleteShards => funext key; exact rest key fun _ is => by cases is
    | emptyEntry => funext key; exact rest key fun _ is => by cases is

/-- Client 7 puts a value at group 1, group 2 pulls the shard, and a Get of client 8
is on its way through the log of group 2. -/
def getMoved : List Action :=
  [.configure 1 0 2, .commit 1 0, .submit ⟨[100], [98], .put, 7, 0⟩, .command 0 1 1, .commit 1 1,
    .configure 1 2 3, .commit 1 2, .configure 2 0 3, .commit 2 0, .configure 2 1 3, .commit 2 1,
    .migrate 2 2 1 ((List.finRange NShards).take 5), .getShards 0 1 [1] 3, .insert 0, .commit 2 2,
    .submit ⟨[100], [], .get, 8, 0⟩, .command 1 2 3]

theorem refines_one_store_getMoved :
    ∃ view : List Action → KV, view [] = emptyKV ∧
      StoreStep (World.final twoJoins getMoved (by decide)) (.commit 2 3) (view getMoved)
        (view (getMoved ++ [.commit 2 3])) ∧
      (Store.execute (view getMoved) ⟨[100], [], .get, 8, 0⟩).2 = [98] := by
  obtain ⟨view, empty, steps⟩ := refines_one_store controlled_twoJoins (by decide)
  have step := steps getMoved (.commit 2 3) _ _ (World.after_final twoJoins getMoved (by decide)) rfl
  refine ⟨view, empty, step, ?_⟩
  have commits : (World.final twoJoins getMoved (by decide)).committed (.commit 2 3) =
      some (2, .operation ⟨[100], [], .get, 8, 0⟩) := by rfl
  have executed : ((World.final twoJoins getMoved (by decide)).state 2).executes
      ⟨[100], [], .get, 8, 0⟩ := by decide
  rw [StoreStep, commits] at step
  simp only [if_pos executed] at step
  exact step.2.symm.trans (by decide)

end World

end DistSys.ShardKv
