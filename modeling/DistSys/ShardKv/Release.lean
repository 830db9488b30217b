import DistSys.ShardKv.Status
import DistSys.Core.HandoffRelease

namespace DistSys.ShardKv

open Shardctrler (NShards Config)
open Handoff (Handshake)

variable {kv : ShardKV} {info : ShardOperationRequest}

/-- The group has forgotten the shards of a request, or has gone on since. -/
def Deleted (kv : ShardKV) (info : ShardOperationRequest) : Prop :=
  info.configNum < kv.currentConfig.num ∨ info.configNum = kv.currentConfig.num ∧
    ∀ s ∈ info.shardIDs, (kv.stateMachines s).status ≠ .bePulling

instance (kv : ShardKV) (info : ShardOperationRequest) : Decidable (Deleted kv info) :=
  inferInstanceAs (Decidable (_ ∨ _ ∧ ∀ s ∈ _, _))

theorem Deleted.apply (deleted : Deleted kv info) (command : Command) :
    Deleted (kv.apply command).1 info := by
  have later := kv.apply_num_le command
  rcases deleted with before | ⟨now, gone⟩
  · exact Or.inl (by omega)
  · rcases kv.apply_cases command with ⟨config, rfl, next⟩ | ⟨same, _, advances⟩
    · left
      rw [ShardKV.apply, ShardKV.applyConfiguration_of_next next]
      simp only
      omega
    · refine Or.inr ⟨by rw [same, now], fun s listed back => gone s listed ?_⟩
      have before := advances s
      rw [back] at before
      exact before.to_bePulling

/-- What ends the wait of an owner for the previous one to forget a shard. -/
theorem apply_gcing {command : Command} {i : Fin NShards}
    (was : (kv.stateMachines i).status = .gcing)
    (now : ((kv.apply command).1.stateMachines i).status = .serving) :
    (∃ config, command = .configuration config ∧ config.num = kv.currentConfig.num + 1) ∨
      ∃ info, command = .deleteShards info ∧ info.configNum = kv.currentConfig.num ∧
        i ∈ info.shardIDs := by
  have other : (kv.stateMachines i).status ≠ .serving := by rw [was]; simp
  have applies := kv.applies_apply command
  generalize (kv.apply command).1 = kv' at applies now
  cases applies with
  | skipped => exact absurd now other
  | @operation request executed =>
    refine absurd ?_ other
    by_cases here : i = key2shard request.key
    · subst here
      simpa using now
    · simpa [here] using now
  | configuration next => exact Or.inl ⟨_, rfl, next⟩
  | @insertShards info here =>
    have idle : (kv.stateMachines i).status ≠ .pulling := by rw [was]; simp
    rw [← Shard.insert_of_ne idle (info.shards i)] at other
    exact absurd now other
  | @deleteShards info here =>
    by_cases listed : i ∈ info.shardIDs
    · exact Or.inr ⟨info, rfl, here, listed⟩
    · simp only [if_neg listed] at now
      exact absurd now other

/-- The server list of every group names servers of that group. -/
def Setting.Routed (setting : Setting) : Prop :=
  ∀ config ∈ setting.configs, ∀ target ∈ config.groups.keys,
    ∀ server ∈ (config.groups.lookup target).getD [], setting.home server = target

instance (setting : Setting) : Decidable setting.Routed :=
  inferInstanceAs (Decidable (∀ _ ∈ _, _))

theorem Setting.Routed.reach {setting : Setting} (routed : setting.Routed) {m : Nat}
    {target g : Int} {server : GoString} (reached : setting.reach m target server = some g) :
    g = target := by
  unfold Setting.reach at reached
  split at reached
  next config found =>
    split at reached
    next listed =>
      cases reached
      refine routed config (List.mem_of_getElem? found) target ?_ server listed
      cases servers : config.groups.lookup target with
      | none =>
        rw [servers] at listed
        cases listed
      | some list => exact AList.lookup_isSome.mp (by rw [servers]; rfl)
    next => cases reached
  next => cases reached

namespace World

variable {w w' : World} {setting : Setting} {g h : Int} {a : Action} {s : Fin NShards}
variable {as : List Action} {i k m : Nat}

/-- The call of `DeleteShardsData` that an action lets return from `Execute`. -/
def returning (w : World) : Action → Option (Nat × Int)
  | .deleteReturn i => w.deleting[i]?
  | _ => none

/-- `Execute` returns to `DeleteShardsData` only when the group has forgotten the
shards, by this command or by another. -/
def ReturnsDeleted (w : World) (a : Action) : Prop :=
  ∀ waiting ∈ w.returning a, ∀ call ∈ w.deletes[waiting.1]?, Deleted (w.state waiting.2) call.request

instance (w : World) (a : Action) : Decidable (ReturnsDeleted w a) :=
  inferInstanceAs (Decidable (∀ _ ∈ _, _))

/-- Every deletion that was answered with OK has been carried out. -/
def Released (w : World) : Prop :=
  ∀ i ∈ w.deleted, ∃ call, w.deletes[i]? = some call ∧ Deleted (w.state call.target) call.request

theorem released_initial : Released World.initial := by
  rintro i ⟨⟩

theorem deletes_stable (grows : Grows w w') {call : ShardCall} (found : w.deletes[i]? = some call) :
    w'.deletes[i]? = some call := by
  obtain ⟨rest, whole⟩ := grows.deletes
  rw [← whole, List.getElem?_append_left (List.getElem?_eq_some_iff.mp found).1, found]

theorem follows_state (follows : Follows setting w w') (g : Int) : w'.state g = w.state g := by
  rw [state, follows.log, state]

/-- `DeleteShardsData` answers at once only a request of an earlier configuration. -/
theorem answered_deleteShards {j : Nat} {server : GoString}
    (next : w.deleteShards setting j m server k = some w') (member : i ∈ w'.deleted) :
    i ∈ w.deleted ∨ ∃ call g, w.deletes[i]? = some call ∧
      setting.reach m call.target server = some g ∧
      call.request.configNum < (w.stateAt g k).currentConfig.num := by
  unfold deleteShards at next
  split at next
  next => cases next
  next call found =>
    split at next
    next => cases next
    next g reached =>
      split at next
      next applied =>
        split at next
        next outcome =>
          cases next
          rcases List.mem_append.mp member with old | new
          · exact Or.inl old
          · cases List.mem_singleton.mp new
            refine Or.inr ⟨call, g, found, reached, ?_⟩
            unfold ShardKV.deleteShardsData at outcome
            split at outcome
            next before => exact before
            next =>
              split at outcome
              next => cases outcome
              next => cases outcome
        next => cases next; exact Or.inl member
        next => cases next; exact Or.inl member
      next => cases next

theorem answered_deleteReturn {j : Nat} (next : w.deleteReturn j = some w') (member : i ∈ w'.deleted) :
    i ∈ w.deleted ∨ ∃ g, w.deleting[j]? = some (i, g) := by
  unfold deleteReturn at next
  split at next
  next => cases next
  next waiting g found =>
    cases next
    rcases List.mem_append.mp member with old | new
    · exact Or.inl old
    · cases List.mem_singleton.mp new
      exact Or.inr ⟨g, found⟩

/-- The answers that a step adds are justified. -/
theorem Released.new_answer (released : Released w) (routed : setting.Routed)
    (traced : Traced setting w) (gone : ReturnsDeleted w a)
    (next : w.step setting a = some w') (member : i ∈ w'.deleted) :
    ∃ call, w.deletes[i]? = some call ∧ Deleted (w.state call.target) call.request := by
  rcases (step_messages next).2 with same | ⟨j, m, server, k, rfl⟩ | ⟨j, rfl⟩
  · rw [same] at member
    exact released i member
  · rcases answered_deleteShards next member with old | ⟨call, g, found, reached, before⟩
    · exact released i old
    · cases routed.reach reached
      have later := w.num_stateAt_le call.target k
      exact ⟨call, found, Or.inl (by omega)⟩
  · rcases answered_deleteReturn next member with old | ⟨g, found⟩
    · exact released i old
    · obtain ⟨call, m, server, sent, reached⟩ := traced.deleting _ (List.mem_of_getElem? found)
      cases routed.reach reached
      exact ⟨call, sent, gone (i, call.target) found call sent⟩

theorem Released.step (released : Released w) (numbered : setting.Numbered)
    (routed : setting.Routed) (traced : Traced setting w) (gone : ReturnsDeleted w a)
    (next : w.step setting a = some w') : Released w' := by
  intro i member
  obtain ⟨call, sent, deleted⟩ := released.new_answer routed traced gone next member
  rcases step_committed numbered next with ⟨follows, _⟩ | ⟨g, j, command, found, commit, _⟩
  · refine ⟨call, deletes_stable follows.grows sent, ?_⟩
    rwa [follows_state follows]
  · refine ⟨call, deletes_stable (grows_commit commit) sent, ?_⟩
    by_cases here : call.target = g
    · rw [here] at deleted ⊢
      rw [commit_state found commit]
      exact deleted.apply command
    · rwa [commit_state_of_ne found commit here]

theorem status_eq_gcing {kv : ShardKV} (is : kv.phase s = .settling) :
    (kv.stateMachines s).status = .gcing :=
  ShardStatus.phase_injective is

theorem status_eq_bePulling {kv : ShardKV} (is : kv.phase s = .held) :
    (kv.stateMachines s).status = .bePulling :=
  ShardStatus.phase_injective is

theorem not_held_of_deleted {kv kv' : ShardKV} {info : ShardOperationRequest}
    (deleted : Deleted kv info) (placed : Placed setting kv) (placed' : Placed setting kv')
    (now : info.configNum = kv'.currentConfig.num) (listed : s ∈ info.shardIDs)
    (same : kv.epoch = kv'.epoch) : kv.phase s ≠ .held := by
  have num := placed.found.2
  have num' := placed'.found.2
  rcases deleted with before | ⟨_, gone⟩
  · omega
  · exact fun held => gone s listed (status_eq_bePulling held)

/-- A group that asks for a deletion is the owner, and asks the previous owner. -/
theorem Steady.collected (steady : Steady setting w) (numbered : setting.Numbered)
    {call : ShardCall} (sent : call ∈ w.deletes) (listed : s ∈ call.request.shardIDs) {n : Nat}
    (now : call.request.configNum = n) :
    setting.owner s n = some call.sender ∧ setting.owner s (n - 1) = some call.target ∧
      call.target ≠ call.sender := by
  obtain ⟨k, applied, num, shards⟩ := steady.traced.deletes call sent
  obtain ⟨gcing, target⟩ := shards s listed
  have placed := steady.orderly.placed numbered call.sender k
  have epoch : (w.stateAt call.sender k).epoch = n := by
    have here := placed.found.2
    omega
  obtain ⟨positive, mine, h, other, theirs⟩ :=
    (steady.shaped s call.sender k applied).awaiting (Or.inr (phase_eq_settling gcing))
  have last := (placed.owner_last positive theirs).2
  rw [target] at last
  rw [epoch] at mine theirs
  rw [last]
  exact ⟨mine, theirs, other⟩

/-- When an owner stops waiting, the previous owner has forgotten the shard. -/
theorem Released.done (released : Released w) (numbered : setting.Numbered) (routed : setting.Routed)
    (steady : Steady setting w) {command : Command} (found : (w.group g).proposed[i]? = some command)
    (commit : w.commit g i = some w') (settles : (w.state g).phase s = .settling)
    (rests : (w'.state g).phase s = .steady) (held : (w.state h).phase s = .held)
    (same : (w.state h).epoch = (w.state g).epoch) :
    setting.owner s ((w.state g).epoch - 1) ≠ some h := by
  have sourced := steady.traced.proposed g command (List.mem_of_getElem? found)
  have was := status_eq_gcing settles
  have serving : ((w'.state g).stateMachines s).status = .serving :=
    ShardStatus.phase_injective rests
  have placed := steady.orderly.placed_state numbered g
  rw [commit_state found commit] at serving
  rcases apply_gcing was serving with ⟨config, rfl, next⟩ | ⟨info, rfl, now, listed⟩
  · have all := (Sourced.orderly sourced next).1 s
    rw [was] at all
    cases all
  · intro previous
    obtain ⟨_, j, call, sent, rfl, origin⟩ := sourced
    obtain ⟨mine, theirs, other⟩ := steady.collected numbered (List.mem_of_getElem? sent) listed
      (now.trans placed.found.2)
    rw [previous] at theirs
    cases theirs
    rcases origin with ⟨rfl, answered⟩ | ⟨m, server, reached⟩
    · obtain ⟨call', sent', deleted⟩ := released j answered
      rw [sent] at sent'
      cases sent'
      exact not_held_of_deleted deleted (steady.orderly.placed_state numbered _) placed now listed
        same held
    · cases routed.reach reached
      have owner := ((steady.shaped.state s call.target).awaiting (Or.inr settles)).2.1
      rw [mine] at owner
      exact other (Option.some.inj owner).symm

/-- The handshake of every shard. It does not depend on the turn. -/
def Shakes (setting : Setting) (w : World) : Prop :=
  ∀ s, ∃ t v, Handshake (setting.owner s) Holding.fresh (w.handoff s t v)

theorem Shakes.step (shakes : Shakes setting w) (released : Released w)
    (numbered : setting.Numbered) (routed : setting.Routed) (steady : Steady setting w)
    (next : w.step setting a = some w') : Shakes setting w' := by
  intro s
  obtain ⟨t, v, hand⟩ := shakes s
  rcases step_committed numbered next with ⟨follows, _⟩ | ⟨g, i, command, found, commit, _⟩
  · refine ⟨t, v, ?_⟩
    rwa [handoff_follows follows]
  · have step := commit_step numbered steady.traced steady.orderly found commit s t v
    exact ⟨_, _, step.handshake hand fun settles rests h held same =>
      released.done numbered routed steady found commit settles rests held same⟩

theorem shakes_initial (setting : Setting) : Shakes setting World.initial := by
  intro s
  refine ⟨0, Holding.fresh, (shaped_initial setting).state s, ?_, ?_, ?_⟩
  · rintro m g h _ _ _ (later | ⟨now, _⟩)
    · exact absurd later (Nat.not_lt_zero _)
    · exact absurd now.symm (Nat.succ_ne_zero m)
  · rintro m d h ⟨g, k, _, shows, _⟩
    rw [stateAt_initial] at shows
    rcases shows with held | settling
    · cases held
    · cases settling
  · intro g h held
    cases held

theorem shakes_after (numbered : setting.Numbered) (routed : setting.Routed)
    (guarded : Along (World.step setting) World.initial as ReturnsDeleted)
    (run : World.after setting as = some w) : Released w ∧ Shakes setting w := by
  refine exec_along (P := fun _ u => Released u ∧ Shakes setting u)
    ⟨released_initial, shakes_initial setting⟩ ?_ guarded run
  rintro bs u a v before ⟨released, shakes⟩ gone next
  have steady := steady_after numbered before
  exact ⟨released.step numbered routed steady.traced gone next,
    shakes.step released numbered routed steady next⟩

/-- If `DeleteShardsData` answers OK only when its group has forgotten the shards, a
group that keeps a shard for the next owner will still be asked to delete it:
the owner has not come to that configuration, or is pulling or collecting. -/
theorem garbage_collection_handshake (controlled : setting.Controlled) (routed : setting.Routed)
    (guarded : Along (World.step setting) World.initial as ReturnsDeleted)
    (run : World.after setting as = some w)
    (keeps : ((w.state g).stateMachines s).status = .bePulling)
    (owner : (w.state g).currentConfig.shards s = h) :
    (w.state h).currentConfig.num < (w.state g).currentConfig.num ∨
      (w.state h).currentConfig.num = (w.state g).currentConfig.num ∧
        (((w.state h).stateMachines s).status = .pulling ∨
          ((w.state h).stateMachines s).status = .gcing) := by
  have numbered := controlled.numbered
  have steady := steady_after numbered run
  have placed := steady.orderly.placed_state numbered g
  have nonzero : h ≠ 0 := by
    rw [← owner]
    exact ((steady.status numbered g).sends s keeps).2.2
  obtain ⟨t, v, hand⟩ := (shakes_after numbered routed guarded run).2 s
  have mine : setting.owner s (w.state g).epoch = some h := placed.owner_current.mpr ⟨nonzero, owner⟩
  have num := placed.found.2
  have num' := (steady.orderly.placed_state numbered h).found.2
  rcases hand.held (phase_eq_held keeps) mine with before | ⟨now, waits | settles⟩
  · left
    change (w.state h).epoch < (w.state g).epoch at before
    omega
  · change (w.state h).epoch = (w.state g).epoch at now
    exact Or.inr ⟨by omega, Or.inl (ShardStatus.phase_injective waits)⟩
  · change (w.state h).epoch = (w.state g).epoch at now
    exact Or.inr ⟨by omega, Or.inr (ShardStatus.phase_injective settles)⟩

/-- Group 2 has pulled its five shards from group 1 and asks for their deletion,
and group 1 has proposed it. -/
def pullFive : List Action :=
  [.configure 1 0 3, .commit 1 0, .configure 1 1 3, .commit 1 1, .configure 2 0 3, .commit 2 0,
    .configure 2 1 3, .commit 2 1, .migrate 2 2 1 ((List.finRange NShards).take 5),
    .getShards 0 1 [1] 2, .insert 0, .commit 2 2, .collect 2 3 1 ((List.finRange NShards).take 5),
    .deleteShards 0 1 [1] 2]

/-- Groups 1, 2 and 3 join one after the other. -/
def threeJoins : Setting :=
  .ofRequests [.join (Shardctrler.groupsOf [(1, [[1]])]), .join (Shardctrler.groupsOf [(2, [[2]])]),
    .join (Shardctrler.groupsOf [(3, [[3]])])] namedServer

theorem controlled_threeJoins : threeJoins.Controlled :=
  Setting.controlled_ofRequests (by decide)

/-- The deletion is committed before it is answered; group 1 then goes on and
keeps shards for group 3. -/
def deleteInOrder : List Action :=
  pullFive ++ [.commit 1 2, .deleteReturn 0, .finish 0, .commit 2 3, .configure 1 3 4, .commit 1 3]

theorem garbage_collection_handshake_third :
    (((World.final threeJoins deleteInOrder (by decide)).state 1).stateMachines
        ⟨5, by decide⟩).status = .bePulling ∧
      (((World.final threeJoins deleteInOrder (by decide)).state 3).currentConfig.num <
          ((World.final threeJoins deleteInOrder (by decide)).state 1).currentConfig.num ∨
        ((World.final threeJoins deleteInOrder (by decide)).state 3).currentConfig.num =
            ((World.final threeJoins deleteInOrder (by decide)).state 1).currentConfig.num ∧
          ((((World.final threeJoins deleteInOrder (by decide)).state 3).stateMachines
              ⟨5, by decide⟩).status = .pulling ∨
            (((World.final threeJoins deleteInOrder (by decide)).state 3).stateMachines
              ⟨5, by decide⟩).status = .gcing)) := by
  have keeps : (((World.final threeJoins deleteInOrder (by decide)).state 1).stateMachines
      ⟨5, by decide⟩).status = .bePulling := by decide
  exact ⟨keeps, garbage_collection_handshake controlled_threeJoins (by decide) (by decide)
    (World.after_final _ _ _) keeps (by decide)⟩

/-- `Execute` times out, the handler answers OK all the same, and the deletion
is never committed. -/
def deleteUncommitted : List Action :=
  pullFive ++ [.deleteReturn 0, .finish 0, .commit 2 3]

theorem shard_never_deleted :
    twoJoins.Controlled ∧ twoJoins.Routed ∧
      (((World.final twoJoins deleteUncommitted (by decide)).state 1).stateMachines
        ⟨0, by decide⟩).status = .bePulling ∧
      ((World.final twoJoins deleteUncommitted (by decide)).state 1).currentConfig.shards
        ⟨0, by decide⟩ = 2 ∧
      ((World.final twoJoins deleteUncommitted (by decide)).state 2).currentConfig.num =
        ((World.final twoJoins deleteUncommitted (by decide)).state 1).currentConfig.num ∧
      (((World.final twoJoins deleteUncommitted (by decide)).state 2).stateMachines
        ⟨0, by decide⟩).status = .serving :=
  ⟨controlled_twoJoins, by decide, by decide, by decide, by decide, by decide⟩

end World

end DistSys.ShardKv
