import DistSys.ShardKv.Status
import DistSys.Core.HandoffInv

namespace DistSys.ShardKv.World

open Shardctrler (NShards Config)
open Handoff (Clean Live)

variable {w w' : World} {setting : Setting} {g h : Int} {a : Action} {s : Fin NShards}
variable {as : List Action} {i : Nat} {ghost : Nat × Holding} {config : Config}

/-- The last group that owned a shard up to a configuration has gone on from there. -/
def Vacated (setting : Setting) (w : World) (s : Fin NShards) (epoch : Nat) : Prop :=
  ∀ e < epoch + 1, ∀ h ∈ setting.owner s e, (∀ k < epoch + 1, e < k → setting.owner s k = none) →
    e < (w.state h).epoch

instance (setting : Setting) (w : World) (s : Fin NShards) (epoch : Nat) :
    Decidable (Vacated setting w s epoch) :=
  inferInstanceAs (Decidable (∀ e < _, ∀ h ∈ _, _ → _))

/-- The group is about to serve, with the next configuration, a shard that nobody
owns in its current one. -/
def Takes (w : World) (g : Int) (s : Fin NShards) : Command → Prop
  | .configuration config => config.num = (w.state g).currentConfig.num + 1 ∧
      (w.state g).currentConfig.shards s = 0 ∧ config.shards s = g
  | _ => False

instance (w : World) (g : Int) (s : Fin NShards) : (command : Command) → Decidable (Takes w g s command)
  | .configuration _ => inferInstanceAs (Decidable (_ ∧ _))
  | .operation _ => isFalse id
  | .insertShards _ => isFalse id
  | .deleteShards _ => isFalse id
  | .emptyEntry => isFalse id

/-- A group takes a shard from nobody only after its last owner has gone on. -/
def TakesVacated (setting : Setting) (w : World) (a : Action) : Prop :=
  ∀ next ∈ w.committed a, ∀ s, Takes w next.1 s next.2 →
    Vacated setting w s (w.state next.1).epoch

instance (setting : Setting) (w : World) (a : Action) : Decidable (TakesVacated setting w a) :=
  inferInstanceAs (Decidable (∀ _ ∈ _, _))

/-- A group that changes its configuration commits the next one. -/
theorem clean_of_vacated (numbered : setting.Numbered) (steady : Steady setting w)
    {command : Command} (found : (w.group g).proposed[i]? = some command)
    (vacated : ∀ s, Takes w g s command → Vacated setting w s (w.state g).epoch)
    (next : w.commit g i = some w') (moves : (w'.state g).epoch ≠ (w.state g).epoch)
    (ghost : Nat × Holding) : Clean (setting.owner s) (w.handoff s ghost.1 ghost.2) g := by
  intro free mine e h early owned last
  have nonzero := (commit_log found next).1
  have placed := (steady.orderly.placed_state numbered g).found
  rw [commit_state found next] at moves
  rcases (w.state g).apply_cases command with ⟨config, rfl, effective⟩ | ⟨same, _⟩
  · have sourced := steady.traced.proposed g _ (List.mem_of_getElem? found)
    obtain ⟨_, n, num, there⟩ := Sourced.orderly sourced effective
    have after : n = (w.state g).epoch + 1 := by omega
    subst after
    have takes : Takes w g s (.configuration config) :=
      ⟨effective, (owner_eq_none_iff placed.1).mp free, (owner_eq_some_iff there nonzero).mp mine⟩
    exact vacated s takes e (Nat.lt_succ_of_le early) h owned
      fun k below above => last k above (Nat.le_of_lt_succ below)
  · exact absurd (by rw [ShardKV.epoch, same]; rfl) moves

theorem Owned.step (owned : Owned setting s w ghost) (numbered : setting.Numbered)
    (steady : Steady setting w) (vacated : TakesVacated setting w a)
    (next : w.step setting a = some w') : Owned setting s w' (track s w a ghost) := by
  rcases step_committed numbered next with ⟨follows, none⟩ | ⟨g, i, command, found, commit, some⟩
  · rw [track, none, Owned, handoff_follows follows]
    exact owned
  · rw [track, some]
    have step := commit_step numbered steady.traced steady.orderly found commit s ghost.1 ghost.2
    exact step.inv owned fun moves =>
      clean_of_vacated numbered steady found (vacated (g, command) some) commit moves ghost

theorem owned_initial (numbered : setting.Numbered) (s : Fin NShards) :
    Owned setting s World.initial (0, Holding.fresh) where
  shape := (shaped_initial setting).state s
  ahead later _ := Or.inl later
  behind early := absurd early (Nat.not_lt_zero _)
  holder mine := by
    have none : setting.owner s 0 = none := (owner_eq_none_iff numbered.first).mpr rfl
    exact absurd (none.symm.trans mine) (by simp)
  start _ := ⟨rfl, rfl⟩
  offers := by
    rintro n d ⟨g, k, applied, shows, _⟩
    rw [stateAt_initial] at shows
    rcases shows with held | settling
    · cases held
    · cases settling
  claims := by
    rintro n ⟨g, k, applied, settling, _⟩
    rw [stateAt_initial] at settling
    cases settling

/-- The turn of a shard and what its owner knows after a run. -/
def ghostAfter (setting : Setting) (s : Fin NShards) (as : List Action) : Nat × Holding :=
  observe (World.step setting) (track s) World.initial (0, Holding.fresh) as

theorem owned_after (numbered : setting.Numbered)
    (guarded : Along (World.step setting) World.initial as (TakesVacated setting))
    (run : World.after setting as = some w) (s : Fin NShards) :
    Owned setting s w (ghostAfter setting s as) := by
  refine exec_along (P := fun bs u => Owned setting s u (ghostAfter setting s bs))
    (owned_initial numbered s) ?_ guarded run
  intro bs u a v before owned vacated next
  rw [ghostAfter, observe_concat _ before next]
  exact owned.step numbered (steady_after numbered before) vacated next

theorem Steady.live (steady : Steady setting w) (numbered : setting.Numbered) (nonzero : g ≠ 0)
    (serves : (w.state g).canServe s) (ghost : Nat × Holding) :
    Live (setting.owner s) (w.handoff s ghost.1 ghost.2) g := by
  obtain ⟨mine, has⟩ := serves
  rw [state_gid] at mine
  refine ⟨(owner_eq_some_iff (steady.orderly.placed_state numbered g).found.1 nonzero).mpr mine, ?_⟩
  refine has.imp (fun serving => ?_) phase_eq_settling
  change (w.state g).phase s = .steady
  rw [ShardKV.phase, serving]
  rfl

/-- If every shard that nobody owns is taken only after its last owner has gone on, at
most one group serves each shard at any time. -/
theorem exclusive_service (controlled : setting.Controlled)
    (guarded : Along (World.step setting) World.initial as (TakesVacated setting))
    (run : World.after setting as = some w) (s : Fin NShards) (groups : g ≠ 0 ∧ h ≠ 0)
    (first : (w.state g).canServe s) (second : (w.state h).canServe s) : g = h := by
  have numbered := controlled.numbered
  have steady := steady_after numbered run
  exact (owned_after numbered guarded run s).live_unique
    (steady.live numbered groups.1 first _) (steady.live numbered groups.2 second _)

/-- Group 1 joins and leaves again, and then group 2 joins. -/
def joinAfterLeave : Setting :=
  .ofRequests [.join (Shardctrler.groupsOf [(1, [[1]])]), .leave [1],
    .join (Shardctrler.groupsOf [(2, [[2]])])] namedServer

theorem controlled_joinAfterLeave : joinAfterLeave.Controlled :=
  Setting.controlled_ofRequests (by decide)

/-- Both groups learn of all configurations in time. -/
def leaveInTime : List Action :=
  [.configure 1 0 2, .commit 1 0, .configure 1 1 3, .commit 1 1, .configure 2 0 4, .commit 2 0,
    .configure 2 1 4, .commit 2 1, .configure 2 2 4, .commit 2 2]

theorem exclusive_service_in_time :
    ((World.final joinAfterLeave leaveInTime (by decide)).state 2).canServe ⟨0, by decide⟩ ∧
      ∀ g, g ≠ 0 →
        ((World.final joinAfterLeave leaveInTime (by decide)).state g).canServe ⟨0, by decide⟩ →
        g = 2 := by
  have serves :
      ((World.final joinAfterLeave leaveInTime (by decide)).state 2).canServe ⟨0, by decide⟩ := by
    decide
  exact ⟨serves, fun g nonzero other => exclusive_service controlled_joinAfterLeave (by decide)
    (World.after_final _ _ _) _ ⟨nonzero, by decide⟩ other serves⟩

/-- Group 1 never hears that it has left, and group 2 takes the shards from
nobody. -/
def leaveUnnoticed : List Action :=
  [.configure 1 0 2, .commit 1 0, .configure 2 0 4, .commit 2 0, .configure 2 1 4, .commit 2 1,
    .configure 2 2 4, .commit 2 2]

theorem two_groups_serve :
    joinAfterLeave.Controlled ∧
      ((World.final joinAfterLeave leaveUnnoticed (by decide)).state 1).canServe ⟨0, by decide⟩ ∧
      ((World.final joinAfterLeave leaveUnnoticed (by decide)).state 2).canServe ⟨0, by decide⟩ :=
  ⟨controlled_joinAfterLeave, by decide, by decide⟩

end DistSys.ShardKv.World
