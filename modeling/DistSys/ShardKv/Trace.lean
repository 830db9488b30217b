import DistSys.ShardKv.World
import DistSys.ShardKv.Apply
import DistSys.Shardctrler.Numbered

namespace DistSys.ShardKv

open Shardctrler (NShards Config defaultConfig readConfig latest)

/-- The controller numbers its configurations from the default one on. -/
abbrev Setting.Numbered (setting : Setting) : Prop :=
  Shardctrler.Numbered setting.configs

namespace World

variable {w w' : World} {setting : Setting} {g h : Int} {k n : Nat} {a : Action} {s : Fin NShards}

/-- Logs and messages only grow. -/
structure Grows (w w' : World) : Prop where
  log : ∀ g, (w.group g).log <+: (w'.group g).log
  requests : w.requests <+: w'.requests
  deletes : w.deletes <+: w'.deletes
  deleted : w.deleted <+: w'.deleted

theorem Grows.applied (grows : Grows w w') (applied : w.applied g k) : w'.applied g k :=
  le_trans applied (grows.log g).length_le

/-- What a replica has applied does not change. -/
theorem Grows.stateAt (grows : Grows w w') (applied : w.applied g k) :
    w'.stateAt g k = w.stateAt g k := by
  obtain ⟨rest, whole⟩ := grows.log g
  rw [World.stateAt, World.stateAt, ← whole, List.take_append_of_le_length applied]

theorem stateAt_length (w : World) (g : Int) : w.stateAt g (w.group g).log.length = w.state g := by
  rw [stateAt, List.take_length, state]

theorem state_gid (w : World) (g : Int) : (w.state g).gid = g :=
  ShardKV.replay_gid _ _

theorem stateAt_succ {command : Command} (here : (w.group g).log[k]? = some command) :
    w.stateAt g (k + 1) = ((w.stateAt g k).apply command).1 := by
  rw [stateAt, List.take_add_one, here, Option.toList_some, ShardKV.replay_concat, stateAt]

/-- A later state of a group goes on from an earlier one. -/
theorem state_eq_replay (w : World) (g : Int) (k : Nat) :
    w.state g = (w.stateAt g k).replay ((w.group g).log.drop k) := by
  rw [state, stateAt, ← ShardKV.replay_append, List.take_append_drop]

theorem num_stateAt_le (w : World) (g : Int) (k : Nat) :
    (w.stateAt g k).currentConfig.num ≤ (w.state g).currentConfig.num := by
  rw [w.state_eq_replay g k]
  exact ShardKV.replay_num_le _ _

/-- A call of `gcAction`: its sender had received these shards from the target. -/
def Collected (w : World) (call : ShardCall) : Prop :=
  ∃ k, w.applied call.sender k ∧
    call.request.configNum = (w.stateAt call.sender k).currentConfig.num ∧
    ∀ i ∈ call.request.shardIDs,
      ((w.stateAt call.sender k).stateMachines i).status = .gcing ∧
        (w.stateAt call.sender k).lastConfig.shards i = call.target

/-- Shard data that some replica has held for another group. -/
def Carries (w : World) (info : ShardOperationResponse) : Prop :=
  ∀ i data, info.shards i = some data → ∃ g k, w.applied g k ∧
    (w.stateAt g k).currentConfig.num = info.configNum ∧
    (((w.stateAt g k).stateMachines i).status = .bePulling ∨
      ((w.stateAt g k).stateMachines i).status = .gcing) ∧
    data = ((w.stateAt g k).stateMachines i).kv ∧
    info.lastOperations = (w.stateAt g k).lastOperations

/-- Where a command that group `g` proposes comes from. -/
def Sourced (setting : Setting) (w : World) (g : Int) : Command → Prop
  | .operation request => request ∈ w.requests
  | .configuration config => ∃ k, w.applied g k ∧ (w.stateAt g k).allServing ∧
      config.num = (w.stateAt g k).currentConfig.num + 1 ∧
      ∃ n : Nat, config.num = n ∧ setting.configs[n]? = some config
  | .insertShards info => Carries w info
  | .deleteShards info => (∃ k, w.applied g k ∧ (w.stateAt g k).currentConfig.num = info.configNum) ∧
      ∃ i call, w.deletes[i]? = some call ∧ call.request = info ∧
        (g = call.sender ∧ i ∈ w.deleted ∨ ∃ m server, setting.reach m call.target server = some g)
  | .emptyEntry => True

theorem Collected.grows {call : ShardCall} (collected : Collected w call) (grows : Grows w w') :
    Collected w' call := by
  obtain ⟨k, applied, num, shards⟩ := collected
  refine ⟨k, grows.applied applied, ?_⟩
  rw [grows.stateAt applied]
  exact ⟨num, shards⟩

theorem Carries.grows {info : ShardOperationResponse} (carries : Carries w info) (grows : Grows w w') :
    Carries w' info := by
  intro i data found
  obtain ⟨g, k, applied, rest⟩ := carries i data found
  refine ⟨g, k, grows.applied applied, ?_⟩
  rw [grows.stateAt applied]
  exact rest

theorem Sourced.grows {command : Command} (sourced : Sourced setting w g command)
    (grows : Grows w w') : Sourced setting w' g command := by
  cases command with
  | operation request => exact grows.requests.subset sourced
  | configuration config =>
    obtain ⟨k, applied, serving, next, found⟩ := sourced
    refine ⟨k, grows.applied applied, ?_⟩
    rw [grows.stateAt applied]
    exact ⟨serving, next, found⟩
  | insertShards info => exact Carries.grows sourced grows
  | deleteShards info =>
    obtain ⟨⟨k, applied, num⟩, i, call, found, request, origin⟩ := sourced
    refine ⟨⟨k, grows.applied applied, by rwa [grows.stateAt applied]⟩, i, call, ?_, request, ?_⟩
    · obtain ⟨rest, whole⟩ := grows.deletes
      rw [← whole, List.getElem?_append_left (List.getElem?_eq_some_iff.mp found).1, found]
    · exact origin.imp_left fun finished => ⟨finished.1, grows.deleted.subset finished.2⟩
  | emptyEntry => trivial

/-- Every message and every proposal has its source. -/
structure Traced (setting : Setting) (w : World) : Prop where
  proposed : ∀ g, ∀ command ∈ (w.group g).proposed, Sourced setting w g command
  pulled : ∀ reply ∈ w.pulled, reply.2.err = .ok → Carries w reply.2
  deletes : ∀ call ∈ w.deletes, Collected w call
  deleting : ∀ waiting ∈ w.deleting, ∃ call m server, w.deletes[waiting.1]? = some call ∧
    setting.reach m call.target server = some waiting.2

theorem Traced.keep (traced : Traced setting w) (grows : Grows w w')
    (proposed : ∀ g, (w'.group g).proposed = (w.group g).proposed) (pulled : w'.pulled = w.pulled)
    (deletes : w'.deletes = w.deletes) (deleting : w'.deleting = w.deleting) : Traced setting w' where
  proposed g command member := (traced.proposed g command (by rwa [← proposed])).grows grows
  pulled reply member fine := (traced.pulled reply (by rwa [← pulled]) fine).grows grows
  deletes call member := (traced.deletes call (by rwa [← deletes])).grows grows
  deleting waiting member := by
    rw [deletes]
    exact traced.deleting waiting (by rwa [← deleting])

theorem propose_log (w : World) (g h : Int) (command : Command) :
    ((w.propose g command).group h).log = (w.group h).log := by
  unfold propose setGroup
  by_cases here : h = g
  · subst here
    simp
  · simp [here]

theorem mem_propose {command other : Command}
    (member : other ∈ ((w.propose g command).group h).proposed) :
    other ∈ (w.group h).proposed ∨ h = g ∧ other = command := by
  unfold propose setGroup at member
  by_cases here : h = g
  · subst here
    simpa using member
  · simp only [Function.update_of_ne here] at member
    exact Or.inl member

theorem grows_propose (w : World) (g : Int) (command : Command) : Grows w (w.propose g command) :=
  ⟨fun h => by rw [propose_log], List.prefix_rfl, List.prefix_rfl, List.prefix_rfl⟩

theorem Traced.propose {command : Command} (traced : Traced setting w)
    (sourced : Sourced setting w g command) : Traced setting (w.propose g command) where
  proposed h other member := by
    rcases mem_propose member with old | ⟨rfl, rfl⟩
    · exact (traced.proposed h other old).grows (grows_propose w g command)
    · exact sourced.grows (grows_propose w _ _)
  pulled reply member fine := (traced.pulled reply member fine).grows (grows_propose w g command)
  deletes call member := (traced.deletes call member).grows (grows_propose w g command)
  deleting := traced.deleting

/-- An action that commits nothing: the world grows by messages and proposals
that have their source, and the logs stay as they are. -/
structure Follows (setting : Setting) (w w' : World) : Prop where
  grows : Grows w w'
  traced : Traced setting w → Traced setting w'
  log : ∀ g, (w'.group g).log = (w.group g).log

theorem follows_propose {command : Command}
    (sourced : Traced setting w → Sourced setting w g command) :
    Follows setting w (w.propose g command) :=
  ⟨grows_propose w g command, fun traced => traced.propose (sourced traced),
    fun h => propose_log w g h command⟩

/-- Messages that need no source. -/
theorem follows_messages (group : w'.group = w.group) (requests : w.requests <+: w'.requests)
    (deleted : w.deleted <+: w'.deleted) (pulled : w'.pulled = w.pulled)
    (deletes : w'.deletes = w.deletes) (deleting : w'.deleting = w.deleting) :
    Follows setting w w' := by
  have grows : Grows w w' :=
    ⟨fun _ => by rw [group], requests, by rw [deletes], deleted⟩
  exact ⟨grows, fun traced => traced.keep grows (fun _ => by rw [group]) pulled deletes deleting,
    fun _ => by rw [group]⟩

theorem follows_command {i : Nat} (next : w.command i g k = some w') : Follows setting w w' := by
  unfold command at next
  split at next
  next => cases next
  next request found =>
    split at next
    next applied =>
      split at next
      next =>
        cases next
        exact follows_messages rfl List.prefix_rfl List.prefix_rfl rfl rfl rfl
      next proposal outcome =>
        cases next
        refine follows_propose fun _ => ?_
        unfold ShardKV.command at outcome
        split at outcome
        next => cases outcome
        next =>
          split at outcome
          next => cases outcome
          next =>
            cases outcome
            exact List.mem_of_getElem? found
    next => cases next

theorem follows_respond {index : Nat} (next : w.respond g index = some w') : Follows setting w w' := by
  unfold respond at next
  split at next
  next =>
    cases next
    exact follows_messages rfl List.prefix_rfl List.prefix_rfl rfl rfl rfl
  next => cases next

/-- A configuration that answers a query with its own number is the one of the
history with that number. -/
theorem readConfig_num {configs : List Config} {config : Config} {num : Int}
    (numbered : ∀ (n : Nat) (config : Config), configs[n]? = some config → config.num = n) (positive : 0 < num)
    (read : readConfig configs num = some config) (same : config.num = num) :
    ∃ n : Nat, num = n ∧ configs[n]? = some config := by
  have found : ∃ n : Nat, configs[n]? = some config := by
    unfold readConfig at read
    split at read
    next =>
      unfold latest at read
      cases last : configs.getLast? with
      | none =>
        rw [last] at read
        cases read
        rw [← same] at positive
        exact absurd positive (by decide)
      | some final =>
        rw [last] at read
        cases read
        exact ⟨configs.length - 1, by rw [← List.getLast?_eq_getElem?, last]; rfl⟩
    next =>
      split at read
      next => cases read
      next => exact ⟨num.toNat, read⟩
  obtain ⟨n, here⟩ := found
  exact ⟨n, same.symm.trans (numbered n config here), here⟩

/-- The part of a history that the controller knows when it answers. -/
theorem readConfig_take {configs : List Config} {config : Config} {num : Int} {m : Nat}
    (numbered : ∀ (n : Nat) (config : Config), configs[n]? = some config → config.num = n)
    (positive : 0 < num) (read : readConfig (configs.take m) num = some config)
    (same : config.num = num) : ∃ n : Nat, num = n ∧ configs[n]? = some config := by
  have inside : ∀ (n : Nat) (config : Config), (configs.take m)[n]? = some config →
      configs[n]? = some config := by
    intro n config found
    rw [List.getElem?_take] at found
    split at found
    · exact found
    · cases found
  obtain ⟨n, here, found⟩ := readConfig_num (fun n config found => numbered n config (inside n config found))
    positive read same
  exact ⟨n, here, inside n config found⟩

theorem configureAction_cases {kv : ShardKV} {configs : List Config} {command : Command}
    (proposal : kv.configureAction configs = some command) :
    ∃ config, command = .configuration config ∧ kv.allServing ∧
      config.num = kv.currentConfig.num + 1 ∧
      readConfig configs (kv.currentConfig.num + 1) = some config := by
  unfold ShardKV.configureAction at proposal
  split at proposal
  next serving =>
    split at proposal
    next config read =>
      split at proposal
      next same =>
        cases proposal
        exact ⟨config, rfl, serving, same, read⟩
      next => cases proposal
    next => cases proposal
  next => cases proposal

theorem num_nonneg (w : World) (g : Int) (k : Nat) : 0 ≤ (w.stateAt g k).currentConfig.num :=
  ShardKV.replay_num_le (startServer g) _

theorem follows_configure {m : Nat} (numbered : setting.Numbered)
    (next : w.configure setting g k m = some w') : Follows setting w w' := by
  unfold configure at next
  split at next
  next applied =>
    obtain ⟨command, proposal, rfl⟩ := Option.map_eq_some_iff.mp next
    obtain ⟨config, rfl, serving, same, read⟩ := configureAction_cases proposal
    have positive := w.num_nonneg g k
    obtain ⟨n, here, found⟩ := readConfig_take (fun n config found => numbered.num found)
      (by omega) read same
    exact follows_propose fun _ => ⟨k, applied, serving, same, n, same.trans here, found⟩
  next => cases next

theorem follows_migrate {prevGID : Int} {shardIDs : List (Fin NShards)}
    (next : w.migrate g k prevGID shardIDs = some w') : Follows setting w w' := by
  unfold migrate at next
  split at next
  next =>
    cases next
    exact follows_messages rfl List.prefix_rfl List.prefix_rfl rfl rfl rfl
  next => cases next

theorem carries_getShardsData (applied : w.applied g k) (request : ShardOperationRequest)
    (fine : ((w.stateAt g k).getShardsData request).err = .ok) :
    Carries w ((w.stateAt g k).getShardsData request) := by
  unfold ShardKV.getShardsData at fine ⊢
  split at fine
  next => cases fine
  next here =>
    rw [if_neg here]
    intro i data found
    simp only at found
    split at found
    next listed =>
      cases found
      exact ⟨g, k, applied, (not_not.mp here).symm, listed.2, rfl, rfl⟩
    next => cases found

theorem follows_getShards {i m : Nat} {server : GoString}
    (next : w.getShards setting i m server k = some w') : Follows setting w w' := by
  unfold getShards at next
  split at next
  next => cases next
  next call found =>
    split at next
    next => cases next
    next g reached =>
      split at next
      next applied =>
        cases next
        have grows : Grows w { w with pulled := w.pulled ++
            [(call.sender, (w.stateAt g k).getShardsData call.request)] } :=
          ⟨fun _ => List.prefix_rfl, List.prefix_rfl, List.prefix_rfl, List.prefix_rfl⟩
        refine ⟨grows, fun traced => ⟨?_, ?_, ?_, traced.deleting⟩, fun _ => rfl⟩
        · exact fun h command member => (traced.proposed h command member).grows grows
        · intro reply member fine
          rcases List.mem_append.mp member with old | new
          · exact (traced.pulled reply old fine).grows grows
          · rw [List.mem_singleton.mp new] at fine ⊢
            exact (carries_getShardsData applied call.request fine).grows grows
        · exact fun call member => (traced.deletes call member).grows grows
      next => cases next

theorem follows_insert {i : Nat} (next : w.insert i = some w') : Follows setting w w' := by
  unfold insert at next
  split at next
  next => cases next
  next receiver response found =>
    split at next
    next fine =>
      cases next
      exact follows_propose fun traced => traced.pulled _ (List.mem_of_getElem? found) fine
    next => cases next

theorem follows_collect {prevGID : Int} {shardIDs : List (Fin NShards)}
    (next : w.collect g k prevGID shardIDs = some w') : Follows setting w w' := by
  unfold collect at next
  split at next
  next valid =>
    cases next
    obtain ⟨applied, _, order⟩ := valid
    have grows : Grows w { w with deletes := w.deletes ++
        [⟨g, prevGID, (w.stateAt g k).currentConfig.num, shardIDs⟩] } :=
      ⟨fun _ => List.prefix_rfl, List.prefix_rfl, List.prefix_append _ _, List.prefix_rfl⟩
    refine ⟨grows, fun traced => ⟨?_, ?_, ?_, ?_⟩, fun _ => rfl⟩
    · exact fun h command member => (traced.proposed h command member).grows grows
    · exact fun reply member fine => (traced.pulled reply member fine).grows grows
    · intro call member
      rcases List.mem_append.mp member with old | new
      · exact (traced.deletes call old).grows grows
      · rw [List.mem_singleton.mp new]
        refine ⟨k, applied, rfl, fun i listed => ?_⟩
        have inside := order.subset listed
        simp only [ShardKV.shardsFrom, List.mem_filter, decide_eq_true_eq] at inside
        exact inside.2
    · intro waiting member
      obtain ⟨call, m, server, found, reached⟩ := traced.deleting waiting member
      refine ⟨call, m, server, ?_, reached⟩
      rw [List.getElem?_append_left (List.getElem?_eq_some_iff.mp found).1, found]
  next => cases next

theorem deleteShardsData_execute {kv : ShardKV} {request : ShardOperationRequest} {command : Command}
    (outcome : kv.deleteShardsData request = .execute command) :
    command = .deleteShards request ∧ kv.currentConfig.num = request.configNum := by
  unfold ShardKV.deleteShardsData at outcome
  split at outcome
  next => cases outcome
  next =>
    split at outcome
    next => cases outcome
    next =>
      cases outcome
      exact ⟨rfl, by omega⟩

theorem follows_deleteShards {i m : Nat} {server : GoString}
    (next : w.deleteShards setting i m server k = some w') : Follows setting w w' := by
  unfold deleteShards at next
  split at next
  next => cases next
  next call found =>
    split at next
    next => cases next
    next g reached =>
      split at next
      next applied =>
        split at next
        next =>
          cases next
          exact follows_messages rfl List.prefix_rfl (List.prefix_append _ _) rfl rfl rfl
        next =>
          cases next
          exact follows_messages rfl List.prefix_rfl List.prefix_rfl rfl rfl rfl
        next command outcome =>
          cases next
          obtain ⟨rfl, num⟩ := deleteShardsData_execute outcome
          have sourced : Sourced setting w g (.deleteShards call.request) :=
            ⟨⟨k, applied, num⟩, i, call, found, rfl, Or.inr ⟨m, server, reached⟩⟩
          obtain ⟨grows, keeps, log⟩ : Follows setting w (w.propose g (.deleteShards call.request)) :=
            follows_propose fun _ => sourced
          have same : Grows w { w.propose g (.deleteShards call.request) with
              deleting := w.deleting ++ [(i, g)] } :=
            ⟨grows.log, grows.requests, grows.deletes, grows.deleted⟩
          refine ⟨same, fun traced => ?_, log⟩
          obtain ⟨proposed, pulled, deletes, _⟩ := keeps traced
          refine ⟨proposed, pulled, deletes, fun waiting member => ?_⟩
          rcases List.mem_append.mp member with old | new
          · exact traced.deleting waiting old
          · rw [List.mem_singleton.mp new]
            exact ⟨call, m, server, found, reached⟩
      next => cases next

theorem follows_deleteReturn {i : Nat} (next : w.deleteReturn i = some w') : Follows setting w w' := by
  unfold deleteReturn at next
  split at next
  next => cases next
  next =>
    cases next
    exact follows_messages rfl List.prefix_rfl (List.prefix_append _ _) rfl rfl rfl

theorem follows_finish {i : Nat} (next : w.finish i = some w') : Follows setting w w' := by
  unfold finish at next
  split at next
  next => cases next
  next j answered =>
    split at next
    next => cases next
    next call found =>
      cases next
      refine follows_propose fun traced => ?_
      obtain ⟨k, applied, num, _⟩ := traced.deletes call (List.mem_of_getElem? found)
      exact ⟨⟨k, applied, num.symm⟩, j, call, found, rfl,
        Or.inl ⟨rfl, List.mem_of_getElem? answered⟩⟩

/-- A commit extends one log by a command that was proposed. -/
theorem commit_cases {i : Nat} (next : w.commit g i = some w') :
    g ≠ 0 ∧ ∃ command, (w.group g).proposed[i]? = some command ∧
      w' = w.setGroup g { w.group g with log := (w.group g).log ++ [command] } := by
  unfold commit at next
  split at next
  next => cases next
  next exists_ =>
    split at next
    next => cases next
    next command found =>
      cases next
      exact ⟨exists_, command, found, rfl⟩

theorem setGroup_log_self (w : World) (g : Int) (command : Command) :
    ((w.setGroup g { w.group g with log := (w.group g).log ++ [command] }).group g).log =
      (w.group g).log ++ [command] := by
  simp [setGroup]

theorem setGroup_group_of_ne (w : World) (group : Group) (away : h ≠ g) :
    (w.setGroup g group).group h = w.group h := by
  simp [setGroup, away]

theorem grows_commit {i : Nat} (next : w.commit g i = some w') : Grows w w' := by
  obtain ⟨_, command, _, rfl⟩ := commit_cases next
  refine ⟨fun h => ?_, List.prefix_rfl, List.prefix_rfl, List.prefix_rfl⟩
  by_cases here : h = g
  · subst here
    rw [setGroup_log_self]
    exact List.prefix_append _ _
  · rw [setGroup_group_of_ne _ _ here]

theorem Traced.commit {i : Nat} (traced : Traced setting w) (next : w.commit g i = some w') :
    Traced setting w' := by
  have grows := grows_commit next
  obtain ⟨_, command, _, rfl⟩ := commit_cases next
  refine traced.keep grows (fun h => ?_) rfl rfl rfl
  by_cases here : h = g
  · subst here
    simp [setGroup]
  · rw [setGroup_group_of_ne _ _ here]

theorem step_cases (numbered : setting.Numbered) (next : w.step setting a = some w') :
    Follows setting w w' ∨ ∃ g i, a = .commit g i ∧ w.commit g i = some w' := by
  cases a with
  | submit request =>
    cases next
    exact Or.inl (follows_messages rfl (List.prefix_append _ _) List.prefix_rfl rfl rfl rfl)
  | command => exact Or.inl (follows_command next)
  | respond => exact Or.inl (follows_respond next)
  | configure => exact Or.inl (follows_configure numbered next)
  | emptyEntry g =>
    cases next
    exact Or.inl (follows_propose fun _ => trivial)
  | migrate => exact Or.inl (follows_migrate next)
  | getShards => exact Or.inl (follows_getShards next)
  | insert => exact Or.inl (follows_insert next)
  | collect => exact Or.inl (follows_collect next)
  | deleteShards => exact Or.inl (follows_deleteShards next)
  | deleteReturn => exact Or.inl (follows_deleteReturn next)
  | finish => exact Or.inl (follows_finish next)
  | commit g i => exact Or.inr ⟨g, i, rfl, next⟩

/-- Only clients add requests, and only the handler of `DeleteShardsData` adds
answers to its calls. -/
theorem step_messages (next : w.step setting a = some w') :
    (w'.requests = w.requests ∨ ∃ request, a = .submit request) ∧
      (w'.deleted = w.deleted ∨ (∃ i m server k, a = .deleteShards i m server k) ∨
        ∃ i, a = .deleteReturn i) := by
  cases a with
  | submit request => cases next; exact ⟨Or.inr ⟨request, rfl⟩, Or.inl rfl⟩
  | deleteShards i m server k =>
    refine ⟨Or.inl ?_, Or.inr (Or.inl ⟨i, m, server, k, rfl⟩)⟩
    simp only [step, deleteShards] at next
    repeat' split at next
    all_goals first | (cases next; rfl) | cases next
  | deleteReturn i =>
    refine ⟨Or.inl ?_, Or.inr (Or.inr ⟨i, rfl⟩)⟩
    simp only [step, deleteReturn] at next
    split at next <;> cases next
    rfl
  | configure g k m =>
    simp only [step, configure] at next
    split at next
    next =>
      obtain ⟨command, _, rfl⟩ := Option.map_eq_some_iff.mp next
      exact ⟨Or.inl rfl, Or.inl rfl⟩
    next => cases next
  | _ =>
    simp only [step, command, respond, migrate, getShards, insert, collect, finish, commit] at next
    repeat' split at next
    all_goals first | (cases next; exact ⟨Or.inl rfl, Or.inl rfl⟩) | cases next

theorem grows_step (numbered : setting.Numbered) (next : w.step setting a = some w') :
    Grows w w' := by
  rcases step_cases numbered next with follows | ⟨g, i, _, commit⟩
  · exact follows.grows
  · exact grows_commit commit

theorem Traced.step (numbered : setting.Numbered) (traced : Traced setting w)
    (next : w.step setting a = some w') : Traced setting w' := by
  rcases step_cases numbered next with follows | ⟨g, i, _, commit⟩
  · exact follows.traced traced
  · exact traced.commit commit

theorem traced_initial (setting : Setting) : Traced setting World.initial where
  proposed g command member := by cases member
  pulled reply member := by cases member
  deletes call member := by cases member
  deleting waiting member := by cases member

end World

end DistSys.ShardKv
