import DistSys.ShardKv.Migration

namespace DistSys.ShardKv.World

open Shardctrler (NShards Config)
open Handoff (Phase Step Shape)

variable {w w' : World} {setting : Setting} {g : Int} {a : Action} {s : Fin NShards}
variable {command : Command} {i : Nat} {as : List Action}

/-- Some replica has been in such a state. -/
def Saw (w : World) (P : ShardKV → Prop) : Prop := ∃ g k, w.applied g k ∧ P (w.stateAt g k)

/-- What all groups together show of one shard. -/
def handoff (w : World) (s : Fin NShards) (turn : Nat) (value : Holding) :
    Handoff.State Int Holding where
  epoch g := (w.state g).epoch
  phase g := (w.state g).phase s
  data g := (w.state g).holding s
  offered n d := w.Saw fun kv =>
    (kv.phase s = .held ∨ kv.phase s = .settling) ∧ n = kv.epoch ∧ d = kv.holding s
  claimed n := w.Saw fun kv => kv.phase s = .settling ∧ n = kv.epoch
  turn := turn
  value := value

theorem mirrors_handoff (w : World) (s : Fin NShards) (g : Int) (turn : Nat) (value : Holding) :
    Mirrors (w.handoff s turn value) s (w.state g) where
  epoch := by rw [state_gid]; rfl
  phase := by rw [state_gid]; rfl
  data := by rw [state_gid]; rfl

/-- The world after the next command of a group. -/
theorem commit_log (found : (w.group g).proposed[i]? = some command)
    (next : w.commit g i = some w') : g ≠ 0 ∧ (w'.group g).log = (w.group g).log ++ [command] ∧
      ∀ h, h ≠ g → (w'.group h).log = (w.group h).log := by
  obtain ⟨nonzero, other, found', rfl⟩ := commit_cases next
  rw [found] at found'
  cases found'
  refine ⟨nonzero, setGroup_log_self _ _ _, fun h away => ?_⟩
  rw [setGroup_group_of_ne _ _ away]

theorem commit_state (found : (w.group g).proposed[i]? = some command)
    (next : w.commit g i = some w') : w'.state g = ((w.state g).apply command).1 := by
  obtain ⟨_, log, _⟩ := commit_log found next
  rw [state, log, ShardKV.replay_concat, state]

theorem commit_state_of_ne {h : Int} (found : (w.group g).proposed[i]? = some command)
    (next : w.commit g i = some w') (away : h ≠ g) : w'.state h = w.state h := by
  obtain ⟨_, _, rest⟩ := commit_log found next
  rw [state, rest h away, state]

/-- Only the group that commits has a new prefix to apply, its whole log. -/
theorem commit_applied {h : Int} {k : Nat} (found : (w.group g).proposed[i]? = some command)
    (next : w.commit g i = some w') (applied : w'.applied h k) (new : ¬ w.applied h k) :
    k = (w'.group h).log.length := by
  obtain ⟨_, log, rest⟩ := commit_log found next
  rw [World.applied] at applied new
  by_cases here : h = g
  · subst here
    rw [log, List.length_append, List.length_singleton] at applied ⊢
    omega
  · rw [rest h here] at applied
    exact absurd applied new

/-- A commit shows one new state. -/
theorem saw_commit (found : (w.group g).proposed[i]? = some command)
    (next : w.commit g i = some w') (P : ShardKV → Prop) :
    w'.Saw P ↔ w.Saw P ∨ P ((w.state g).apply command).1 := by
  have grows := grows_commit next
  obtain ⟨_, log, rest⟩ := commit_log found next
  constructor
  · rintro ⟨h, k, applied, holds⟩
    by_cases old : w.applied h k
    · rw [grows.stateAt old] at holds
      exact Or.inl ⟨h, k, old, holds⟩
    · right
      have here : h = g := by
        by_contra away
        exact old (by rwa [World.applied, rest h away] at applied)
      subst here
      rwa [commit_applied found next applied old, stateAt_length, commit_state found next] at holds
  · rintro (⟨h, k, applied, holds⟩ | holds)
    · refine ⟨h, k, grows.applied applied, ?_⟩
      rwa [grows.stateAt applied]
    · refine ⟨g, (w'.group g).log.length, Nat.le_refl _, ?_⟩
      rwa [stateAt_length, commit_state found next]

theorem handoff_commit (found : (w.group g).proposed[i]? = some command)
    (next : w.commit g i = some w') (s : Fin NShards) (t t' : Nat) (v v' : Holding) :
    w'.handoff s t' v' = follow (w.handoff s t v) s g ((w.state g).apply command).1 t' v' := by
  have field {β : Type} (f : ShardKV → β) : (fun h => f (w'.state h)) =
      Function.update (fun h => f (w.state h)) g (f ((w.state g).apply command).1) := by
    funext h
    by_cases here : h = g
    · subst here
      rw [Function.update_self, commit_state found next]
    · rw [Function.update_of_ne here, commit_state_of_ne found next here]
  simp only [handoff, follow, Handoff.State.become, Handoff.State.mk.injEq, and_true]
  refine ⟨field _, field fun kv => kv.phase s, field fun kv => kv.holding s, ?_, ?_⟩
  · funext n d
    exact propext (saw_commit found next _)
  · funext n
    exact propext (saw_commit found next _)

/-- Every other step leaves what the groups show as it is. -/
theorem handoff_follows (follows : Follows setting w w') (s : Fin NShards) (t : Nat) (v : Holding) :
    w'.handoff s t v = w.handoff s t v := by
  have states : w'.state = w.state := by
    funext g
    rw [state, follows.log, state]
  have saw (P : ShardKV → Prop) : w'.Saw P = w.Saw P := by
    simp only [Saw, World.applied, stateAt, follows.log]
  simp only [handoff, states, saw]

theorem phase_eq_settling {kv : ShardKV} (is : (kv.stateMachines s).status = .gcing) :
    kv.phase s = .settling := by
  rw [ShardKV.phase, is]
  rfl

theorem phase_eq_held {kv : ShardKV} (is : (kv.stateMachines s).status = .bePulling) :
    kv.phase s = .held := by
  rw [ShardKV.phase, is]
  rfl

/-- Data that travels was offered in the configuration that it names. -/
theorem Carries.offered {info : ShardOperationResponse} (carries : Carries w info)
    {kv : ShardKV} (now : info.configNum = kv.currentConfig.num) {data : KV}
    (arrives : info.shards s = some data) (t : Nat) (v : Holding) :
    (w.handoff s t v).offered kv.epoch ⟨data, info.lastOperations⟩ := by
  obtain ⟨g, k, applied, num, status, rfl, table⟩ := carries s data arrives
  refine ⟨g, k, applied, status.imp phase_eq_held phase_eq_settling, ?_, ?_⟩
  · rw [ShardKV.epoch, ShardKV.epoch, num, now]
  · rw [table]
    rfl

/-- A deletion was requested by a group that had received the shard. -/
theorem Collected.claimed {call : ShardCall} (collected : Collected w call) {kv : ShardKV}
    (now : call.request.configNum = kv.currentConfig.num) (listed : s ∈ call.request.shardIDs)
    (t : Nat) (v : Holding) : (w.handoff s t v).claimed kv.epoch := by
  obtain ⟨k, applied, num, shards⟩ := collected
  refine ⟨call.sender, k, applied, phase_eq_settling (shards s listed).1, ?_⟩
  rw [ShardKV.epoch, ShardKV.epoch, ← num, now]

/-- For each shard, a commit is a step of a single object that moves from owner
to owner. -/
theorem commit_step (numbered : setting.Numbered) (traced : Traced setting w)
    (orderly : Orderly setting w) (found : (w.group g).proposed[i]? = some command)
    (next : w.commit g i = some w') (s : Fin NShards) (t : Nat) (v : Holding) :
    Step (setting.owner s) Holding.fresh g (w.handoff s t v)
      (w'.handoff s ((w.state g).turnAfter s t command) ((w.state g).valueAfter s v command)) := by
  have nonzero : (w.state g).gid ≠ 0 := by
    rw [state_gid]
    exact (commit_log found next).1
  have mirrors := mirrors_handoff w s g t v
  have placed := orderly.placed_state numbered g
  have sourced := traced.proposed g command (List.mem_of_getElem? found)
  rw [handoff_commit found next s t _ v _]
  suffices step : Step (setting.owner s) Holding.fresh (w.state g).gid (w.handoff s t v)
      (follow (w.handoff s t v) s (w.state g).gid ((w.state g).apply command).1
        ((w.state g).turnAfter s t command) ((w.state g).valueAfter s v command)) by
    rwa [state_gid] at step
  cases command with
  | operation request => exact mirrors.operation placed nonzero request
  | configuration config => exact mirrors.configuration placed nonzero sourced.orderly
  | insertShards info =>
    exact mirrors.insertShards fun now data arrives => Carries.offered sourced now arrives t v
  | deleteShards info =>
    obtain ⟨_, j, call, sent, rfl, _⟩ := sourced
    have collected := traced.deletes call (List.mem_of_getElem? sent)
    exact mirrors.deleteShards fun now listed => collected.claimed now listed t v
  | emptyEntry => exact mirrors.grow rfl rfl le_rfl

/-! The status of every shard fits the two configurations of its group -/

def Shaped (setting : Setting) (w : World) : Prop :=
  ∀ s g k, w.applied g k → Shape (setting.owner s) Holding.fresh g (w.stateAt g k).epoch
    ((w.stateAt g k).phase s) ((w.stateAt g k).holding s)

theorem Shaped.state (shaped : Shaped setting w) (s : Fin NShards) (g : Int) :
    Shape (setting.owner s) Holding.fresh g (w.state g).epoch ((w.state g).phase s)
      ((w.state g).holding s) := by
  rw [← stateAt_length]
  exact shaped s g _ (Nat.le_refl _)

theorem stateAt_initial (g : Int) (k : Nat) : World.initial.stateAt g k = startServer g := by
  rw [stateAt, initial, List.take_nil]
  rfl

theorem shaped_initial (setting : Setting) : Shaped setting World.initial := by
  intro s g k _
  rw [stateAt_initial]
  exact Handoff.shape_steady fun _ => fresh_le _

theorem Shaped.step (shaped : Shaped setting w) (numbered : setting.Numbered)
    (traced : Traced setting w) (orderly : Orderly setting w)
    (next : w.step setting a = some w') : Shaped setting w' := by
  intro s h k applied
  rcases step_cases numbered next with follows | ⟨g, i, _, commit⟩
  · have old : w.applied h k := by rwa [World.applied, follows.log] at applied
    rw [follows.grows.stateAt old]
    exact shaped s h k old
  · by_cases old : w.applied h k
    · rw [(grows_commit commit).stateAt old]
      exact shaped s h k old
    · obtain ⟨_, command, found, _⟩ := commit_cases commit
      have last : k = (w'.group h).log.length := commit_applied found commit applied old
      rw [last, stateAt_length]
      exact (commit_step numbered traced orderly found commit s 0 Holding.fresh).shape
        (shaped.state s) h

/-- The invariants that every run of the groups keeps. -/
structure Steady (setting : Setting) (w : World) : Prop where
  traced : Traced setting w
  orderly : Orderly setting w
  shaped : Shaped setting w

theorem steady_after (numbered : setting.Numbered) (run : World.after setting as = some w) :
    Steady setting w :=
  exec_invariant (P := Steady setting)
    ⟨traced_initial setting, orderly_initial setting, shaped_initial setting⟩
    (fun _ _ _ old next => ⟨old.traced.step numbered next, old.orderly.step numbered old.traced next,
      old.shaped.step numbered old.traced old.orderly next⟩) run

/-- The command that an action commits, with its group. -/
def committed (w : World) : Action → Option (Int × Command)
  | .commit g i => ((w.group g).proposed[i]?).map fun command => (g, command)
  | _ => none

/-- A step commits one command, or leaves all logs alone. -/
theorem step_committed (numbered : setting.Numbered) (next : w.step setting a = some w') :
    Follows setting w w' ∧ w.committed a = none ∨
      ∃ g i command, (w.group g).proposed[i]? = some command ∧ w.commit g i = some w' ∧
        w.committed a = some (g, command) := by
  cases a with
  | commit g i =>
    obtain ⟨_, command, found, _⟩ := commit_cases next
    exact Or.inr ⟨g, i, command, found, next, by rw [committed, found]; rfl⟩
  | _ =>
    left
    rcases step_cases numbered next with follows | ⟨g, i, is, _⟩
    · exact ⟨follows, rfl⟩
    · cases is

/-- The turn of a shard and what its owner knows, followed through a step. -/
def track (s : Fin NShards) (w : World) (a : Action) (ghost : Nat × Holding) : Nat × Holding :=
  match w.committed a with
  | some (g, command) =>
    ((w.state g).turnAfter s ghost.1 command, (w.state g).valueAfter s ghost.2 command)
  | none => ghost

/-- The groups keep to the ownership of a shard. -/
def Owned (setting : Setting) (s : Fin NShards) (w : World) (ghost : Nat × Holding) : Prop :=
  Handoff.Inv (setting.owner s) Holding.fresh (w.handoff s ghost.1 ghost.2)

end DistSys.ShardKv.World
