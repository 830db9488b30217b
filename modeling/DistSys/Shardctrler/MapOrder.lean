import DistSys.Shardctrler.Donors

namespace DistSys.Shardctrler

/-- The orders in which one operation visits the maps that it ranges over: in
`copyGroups`, in the loop of `applyJoin` that adds the joining groups, in `sortedGIDs`
of the new groups, once more in `computeTargets`, and in the loop that collects
`newGids`. -/
structure Orders where
  copied : List Int
  added : List Int
  gids : List Int
  targets : List Int
  joining : List Int

/-- A loop `for gid, servers := range src` that stores what it sees. -/
def insertAll (order : List Int) (src dst : Groups) : Groups :=
  order.foldl (fun dst gid =>
    match src.lookup gid with
    | some servers => dst.insert gid servers
    | none => dst) dst

def copyGroups (order : List Int) (src : Groups) : Groups :=
  insertAll order src ∅

/-- `sort.Ints`. -/
def sortInts (gids : List Int) : List Int :=
  gids.insertionSort (· ≤ ·)

/-- `computeTargets` of a map that is visited in this order. -/
def computeTargetsIn (order : List Int) (gid : Int) : Nat :=
  let gids := sortInts order
  let q := NShards / gids.length
  let r := NShards % gids.length
  if gid ∈ gids then
    if gids.idxOf gid < r then q + 1 else q
  else 0

/-- The groups of the configuration that `applyJoin` appends. -/
def joinGroupsIn (orders : Orders) (prev : Config) (servers : Groups) : Groups :=
  insertAll orders.added servers (copyGroups orders.copied prev.groups)

/-- The groups of the configuration that `applyLeave` appends. -/
def leaveGroupsIn (orders : Orders) (prev : Config) (gids : List Int) : Groups :=
  removeGroups (copyGroups orders.copied prev.groups) gids

def Config.joinIn (orders : Orders) (prev : Config) (servers : Groups) : Config :=
  let groups := joinGroupsIn orders prev servers
  if sortInts orders.gids = [] then
    { num := prev.num + 1, shards := fun _ => 0, groups := groups }
  else
    let targets := computeTargetsIn orders.targets
    let donors := joinDonors groups targets prev.shards
    { num := prev.num + 1
      shards := fill targets donors.2 (sortInts orders.joining) donors.1 prev.shards
      groups := groups }

def Config.leaveIn (orders : Orders) (prev : Config) (gids : List Int) : Config :=
  let groups := leaveGroupsIn orders prev gids
  if sortInts orders.gids = [] then
    { num := prev.num + 1, shards := fun _ => 0, groups := groups }
  else
    let targets := computeTargetsIn orders.targets
    let donors := leaveDonors groups gids prev.shards
    { num := prev.num + 1
      shards := fill targets donors.2 (sortInts orders.gids) donors.1 prev.shards
      groups := groups }

/-- As `Config.move`, with the groups copied by `copyGroups`. -/
def Config.moveIn (orders : Orders) (prev : Config) (shard gid : Int) : Option Config :=
  (prev.move shard gid).map fun next => { next with groups := copyGroups orders.copied prev.groups }

/-- `change`, with the orders that its loops happen to take. -/
def changeIn (orders : Orders) (configs : List Config) : Request → Option (List Config)
  | .join servers => some (configs ++ [(latest configs).joinIn orders servers])
  | .leave gids => some (configs ++ [(latest configs).leaveIn orders gids])
  | .move shard gid => ((latest configs).moveIn orders shard gid).map fun next => configs ++ [next]
  | .query _ => some configs

/-- The body of the applier loop, with the orders that its loops happen to take. -/
def ShardCtrler.applyIn (orders : Orders) (sc : ShardCtrler) (op : Op) :
    Option (ShardCtrler × Option Config) :=
  match op.request with
  | .query num => (readConfig sc.configs num).map fun config => (sc, some config)
  | request =>
    if sc.isDuplicate op.clientID op.requestID then some (sc, none)
    else (changeIn orders sc.configs request).map fun configs =>
      ({ configs := configs
         lastAppliedReq := Function.update sc.lastAppliedReq op.clientID (some op.requestID) }, none)

/-- An order in which a loop over the map may go. -/
abbrev Ranges (order : List Int) (groups : Groups) : Prop :=
  Enumerates order fun gid => groups.lookup gid

theorem ranges_iff {order : List Int} {groups : Groups} : Ranges order groups ↔ order.Perm groups.keys := by
  constructor
  · intro orderly
    refine (List.perm_ext_iff_of_nodup orderly.nodup groups.keys_nodup).mpr fun gid => ?_
    rw [orderly.mem, AList.lookup_isSome, AList.mem_keys]
  · intro perm
    refine ⟨perm.nodup_iff.mpr groups.keys_nodup, fun gid => ?_⟩
    rw [perm.mem_iff, AList.lookup_isSome, AList.mem_keys]

instance {order : List Int} {groups : Groups} : Decidable (Ranges order groups) :=
  decidable_of_iff _ ranges_iff.symm

/-- The orders are orders of the maps that the operation ranges over. -/
def Orders.For (orders : Orders) (prev : Config) : Request → Prop
  | .join servers => Ranges orders.copied prev.groups ∧ Ranges orders.added servers ∧
      Ranges orders.gids (joinGroupsIn orders prev servers) ∧
      Ranges orders.targets (joinGroupsIn orders prev servers) ∧ Ranges orders.joining servers
  | .leave gids => Ranges orders.copied prev.groups ∧ Ranges orders.gids (leaveGroupsIn orders prev gids) ∧
      Ranges orders.targets (leaveGroupsIn orders prev gids)
  | .move _ _ => Ranges orders.copied prev.groups
  | .query _ => True

instance {orders : Orders} {prev : Config} {request : Request} : Decidable (orders.For prev request) :=
  match request with
  | .join _ => inferInstanceAs (Decidable (_ ∧ _ ∧ _ ∧ _ ∧ _))
  | .leave _ => inferInstanceAs (Decidable (_ ∧ _ ∧ _))
  | .move _ _ => inferInstanceAs (Decidable (Ranges _ _))
  | .query _ => inferInstanceAs (Decidable True)

/-- A configuration as Go compares it: a map is what can be looked up in it. -/
structure View where
  num : Int
  shards : Fin NShards → Int
  groups : Int → Option (List GoString)

def Config.view (config : Config) : View where
  num := config.num
  shards := config.shards
  groups gid := config.groups.lookup gid

/-- A controller that works through a log, with the results it has passed on so far. -/
structure Replay where
  sc : ShardCtrler
  results : List (Option Config)

namespace Replay

def start : Replay := ⟨startServer, []⟩

/-- The next operation is applied, and its loops take these orders. -/
def step (r : Replay) (next : Op × Orders) : Option Replay :=
  (r.sc.applyIn next.2 next.1).map fun out => ⟨out.1, r.results ++ [out.2]⟩

def after (steps : List (Op × Orders)) : Option Replay := exec step start steps

/-- In every step the loops that are executed take orders of their maps. -/
def Orderly (steps : List (Op × Orders)) : Prop :=
  Along step start steps fun r next =>
    r.sc.isDuplicate next.1.clientID next.1.requestID = false →
      next.2.For (latest r.sc.configs) next.1.request

/-- All that a controller shows: its configurations, its table of duplicates and its
results. -/
structure Shown where
  configs : List View
  lastAppliedReq : Int → Option Int
  results : List (Option View)

def shown (r : Replay) : Shown where
  configs := r.sc.configs.map Config.view
  lastAppliedReq := r.sc.lastAppliedReq
  results := r.results.map (Option.map Config.view)

/-- The step of the model without orders. -/
def plain (r : Replay) (op : Op) : Option Replay :=
  (r.sc.apply op).map fun out => ⟨out.1, r.results ++ [out.2]⟩

end Replay

section Lookups

variable {groups groups' servers src dst : Groups} {order gids : List Int} {gid : Int}

theorem lookup_insertAll (orderly : Ranges order src) :
    (insertAll order src dst).lookup gid = (src.lookup gid).or (dst.lookup gid) := by
  -- the loop alone, for any list of keys
  have loop : ∀ (order : List Int) (dst : Groups), (insertAll order src dst).lookup gid =
      if gid ∈ order then (src.lookup gid).or (dst.lookup gid) else dst.lookup gid := by
    intro order
    induction order with
    | nil => intro dst; simp [insertAll]
    | cons k order ih =>
      intro dst
      rw [insertAll, List.foldl_cons]
      refine (ih _).trans ?_
      by_cases here : gid = k
      · subst here
        cases found : src.lookup gid with
        | none => simp
        | some servers => simp
      · cases found : src.lookup k with
        | none => simp [here]
        | some servers => simp [here, AList.lookup_insert_ne here]
  rw [loop]
  split
  next => rfl
  next absent =>
    have nothing : src.lookup gid = none := orderly.eq_none absent
    rw [nothing, Option.none_or]

theorem lookup_copyGroups (orderly : Ranges order src) :
    (copyGroups order src).lookup gid = src.lookup gid := by
  rw [copyGroups, lookup_insertAll orderly, AList.lookup_empty, Option.or_none]

theorem lookup_addGroups :
    (addGroups groups servers).lookup gid = (servers.lookup gid).or (groups.lookup gid) := by
  obtain ⟨entries, distinct⟩ := servers
  rw [addGroups]
  show _ = (List.dlookup gid entries).or _
  induction entries generalizing groups with
  | nil => simp
  | cons entry entries ih =>
    obtain ⟨fresh, rest⟩ := List.nodupKeys_cons.mp distinct
    refine (ih rest).trans ?_
    by_cases here : gid = entry.1
    · subst here
      have later : List.dlookup entry.1 entries = none := List.dlookup_eq_none.mpr fresh
      rw [later, Option.none_or, AList.lookup_insert, List.dlookup_cons_eq, Option.some_or]
    · rw [AList.lookup_insert_ne here, List.dlookup_cons_ne _ _ here]

theorem lookup_removeGroups :
    (removeGroups groups gids).lookup gid = if gid ∈ gids then none else groups.lookup gid := by
  induction gids generalizing groups with
  | nil => simp [removeGroups]
  | cons k gids ih =>
    rw [removeGroups, List.foldl_cons]
    refine ih.trans ?_
    by_cases here : gid = k
    · subst here
      simp
    · simp [here, AList.lookup_erase_ne here]

theorem mem_congr (same : ∀ gid, groups.lookup gid = groups'.lookup gid) : gid ∈ groups ↔ gid ∈ groups' := by
  rw [← AList.lookup_isSome, ← AList.lookup_isSome, same]

/-- Sorting forgets the order of the loop that collected the gids. -/
theorem sortInts_eq (orderly : Ranges order groups) (same : ∀ gid, groups.lookup gid = groups'.lookup gid) :
    sortInts order = sortedGIDs groups' := by
  have members : order.Perm groups'.keys :=
    ranges_iff.mp ⟨orderly.nodup, fun gid => by rw [orderly.mem, same]⟩
  refine List.Perm.eq_of_pairwise' (List.pairwise_insertionSort _ _) (List.pairwise_insertionSort _ _) ?_
  exact ((List.perm_insertionSort _ _).trans members).trans (List.perm_insertionSort _ _).symm

theorem computeTargetsIn_eq (orderly : Ranges order groups)
    (same : ∀ gid, groups.lookup gid = groups'.lookup gid) :
    computeTargetsIn order = computeTargets groups' := by
  funext gid
  rw [computeTargetsIn, computeTargets, sortInts_eq orderly same]

theorem countShard_congr (same : ∀ gid, groups.lookup gid = groups'.lookup gid) :
    countShard groups = countShard groups' := by
  funext shards counts i
  simp only [countShard, mem_congr same]

theorem joinDonors_congr (same : ∀ gid, groups.lookup gid = groups'.lookup gid) :
    joinDonors groups = joinDonors groups' := by
  have round : joinDonor groups = joinDonor groups' := by
    funext targets shards loop i
    simp only [joinDonor, mem_congr same]
  funext targets shards
  rw [joinDonors, joinDonors, countShards, countShards, round, countShard_congr same]

theorem leaveDonors_congr (same : ∀ gid, groups.lookup gid = groups'.lookup gid) :
    leaveDonors groups = leaveDonors groups' := by
  have round : leaveDonor groups = leaveDonor groups' := by
    funext leaving shards loop i
    simp only [leaveDonor, countShard_congr same]
  funext leaving shards
  rw [leaveDonors, leaveDonors, round]

end Lookups

section Steps

variable {orders : Orders} {prev prev' : Config}

theorem Config.of_view (same : prev.view = prev'.view) : prev.num = prev'.num ∧ prev.shards = prev'.shards ∧
    ∀ gid, prev.groups.lookup gid = prev'.groups.lookup gid :=
  ⟨congrArg View.num same, congrArg View.shards same, congrFun (congrArg View.groups same)⟩

/-- Whatever the orders, a join shows the configuration of the plain model. -/
theorem Config.view_joinIn {servers : Groups} (same : prev.view = prev'.view)
    (orderly : orders.For prev (.join servers)) :
    (prev.joinIn orders servers).view = (prev'.join servers).view := by
  obtain ⟨copied, added, gids, targets, joining⟩ := orderly
  obtain ⟨num, shards, lookups⟩ := Config.of_view same
  have groups : ∀ gid, (joinGroupsIn orders prev servers).lookup gid =
      (addGroups prev'.groups servers).lookup gid := fun gid => by
    rw [joinGroupsIn, lookup_insertAll added, lookup_copyGroups copied, lookup_addGroups, lookups]
  simp only [Config.joinIn, Config.join, joinShards, sortInts_eq gids groups,
    sortInts_eq joining fun _ => rfl, computeTargetsIn_eq targets groups, joinDonors_congr groups, num, shards]
  split
  next => simp only [Config.view, groups]
  next => simp only [Config.view, groups]

theorem Config.view_leaveIn {gids : List Int} (same : prev.view = prev'.view)
    (orderly : orders.For prev (.leave gids)) :
    (prev.leaveIn orders gids).view = (prev'.leave gids).view := by
  obtain ⟨copied, remain, targets⟩ := orderly
  obtain ⟨num, shards, lookups⟩ := Config.of_view same
  have groups : ∀ gid, (leaveGroupsIn orders prev gids).lookup gid =
      (removeGroups prev'.groups gids).lookup gid := fun gid => by
    rw [leaveGroupsIn, lookup_removeGroups, lookup_removeGroups, lookup_copyGroups copied, lookups]
  simp only [Config.leaveIn, Config.leave, leaveShards, sortInts_eq remain groups,
    computeTargetsIn_eq targets groups, leaveDonors_congr groups, num, shards]
  split
  next => simp only [Config.view, groups]
  next => simp only [Config.view, groups]

theorem Config.view_moveIn {shard gid : Int} (same : prev.view = prev'.view)
    (orderly : orders.For prev (.move shard gid)) :
    (prev.moveIn orders shard gid).map Config.view = (prev'.move shard gid).map Config.view := by
  have copied : Ranges orders.copied prev.groups := orderly
  obtain ⟨num, shards, lookups⟩ := Config.of_view same
  rw [Config.moveIn, Config.move, Config.move]
  split
  next =>
    simp only [Option.map_some, Config.view, lookup_copyGroups copied, lookups, num, shards]
  next => rfl

variable {configs configs' : List Config}

theorem view_latest (same : configs.map Config.view = configs'.map Config.view) :
    (latest configs).view = (latest configs').view := by
  have last := congrArg List.getLast? same
  rw [List.getLast?_map, List.getLast?_map] at last
  rw [latest, latest, ← Option.getD_map Config.view, ← Option.getD_map Config.view, last]

theorem view_readConfig (same : configs.map Config.view = configs'.map Config.view) (num : Int) :
    (readConfig configs num).map Config.view = (readConfig configs' num).map Config.view := by
  have length : configs.length = configs'.length := by
    simpa only [List.length_map] using congrArg List.length same
  rw [readConfig, readConfig, length]
  split
  next => rw [Option.map_some, Option.map_some, view_latest same]
  next =>
    split
    next => rfl
    next => rw [← List.getElem?_map, ← List.getElem?_map, same]

theorem view_changeIn {request : Request} (same : configs.map Config.view = configs'.map Config.view)
    (orderly : orders.For (latest configs) request) :
    (changeIn orders configs request).map (List.map Config.view) =
      (change configs' request).map (List.map Config.view) := by
  have last := view_latest same
  cases request with
  | join servers =>
    simp [changeIn, change, applyJoin, same, Config.view_joinIn last orderly]
  | leave gids =>
    simp [changeIn, change, applyLeave, same, Config.view_leaveIn last orderly]
  | move shard gid =>
    -- both append what the move shows to what was shown before
    have append : ∀ (configs : List Config) (moved : Option Config),
        (moved.map fun next => configs ++ [next]).map (List.map Config.view) =
          (moved.map Config.view).map fun next => configs.map Config.view ++ [next] := fun configs moved => by
      cases moved <;> simp
    rw [changeIn, change, applyMove, append, append, Config.view_moveIn last orderly, same]
  | query num => simp [changeIn, change, same]

end Steps

namespace Replay

/-- What one operation adds to what is shown. -/
def shownOut (out : ShardCtrler × Option Config) : Shown where
  configs := out.1.configs.map Config.view
  lastAppliedReq := out.1.lastAppliedReq
  results := [out.2.map Config.view]

section Apply

variable {sc sc' : ShardCtrler} {orders : Orders} {client id : Int}
  (configs : sc.configs.map Config.view = sc'.configs.map Config.view)
  (table : sc.lastAppliedReq = sc'.lastAppliedReq)

include configs table

/-- A change is skipped by both controllers or executed by both. -/
theorem shown_change {request : Request}
    (orderly : sc.isDuplicate client id = false → orders.For (latest sc.configs) request) :
    (if sc.isDuplicate client id then some (sc, none)
      else (changeIn orders sc.configs request).map fun configs =>
        (⟨configs, Function.update sc.lastAppliedReq client (some id)⟩, none)).map shownOut =
    (if sc'.isDuplicate client id then some (sc', none)
      else (change sc'.configs request).map fun configs =>
        (⟨configs, Function.update sc'.lastAppliedReq client (some id)⟩, none)).map shownOut := by
  have duplicate : sc'.isDuplicate client id = sc.isDuplicate client id := by
    rw [ShardCtrler.isDuplicate, ShardCtrler.isDuplicate, table]
  rw [duplicate]
  cases seen : sc.isDuplicate client id with
  | true => simp [shownOut, configs, table]
  | false =>
    have changed := congrArg
      (Option.map fun next => Shown.mk next (Function.update sc'.lastAppliedReq client (some id)) [none])
      (view_changeIn configs (orderly seen))
    rw [Option.map_map, Option.map_map] at changed
    rw [table]
    simp only [Bool.false_eq_true, if_false, Option.map_map]
    exact changed

theorem shown_apply {op : Op}
    (orderly : sc.isDuplicate op.clientID op.requestID = false → orders.For (latest sc.configs) op.request) :
    (sc.applyIn orders op).map shownOut = (sc'.apply op).map shownOut := by
  obtain ⟨request, client, id⟩ := op
  cases request with
  | join servers => exact shown_change configs table orderly
  | leave gids => exact shown_change configs table orderly
  | move shard gid => exact shown_change configs table orderly
  | query num =>
    have read := congrArg
      (Option.map fun config => Shown.mk (sc'.configs.map Config.view) sc'.lastAppliedReq [some config])
      (view_readConfig configs num)
    rw [Option.map_map, Option.map_map] at read
    have shows : (fun config => shownOut (sc, some config)) =
        fun config => Shown.mk (sc'.configs.map Config.view) sc'.lastAppliedReq [some config.view] := by
      simp only [shownOut, configs, table, Option.map_some]
    simp only [ShardCtrler.applyIn, ShardCtrler.apply, Option.map_map, Function.comp_def, shows]
    exact read

end Apply

/-- A step shows what the plain model shows, whatever orders its loops take. -/
theorem shown_step {r r' : Replay} {next : Op × Orders} (same : r.shown = r'.shown)
    (orderly : r.sc.isDuplicate next.1.clientID next.1.requestID = false →
      next.2.For (latest r.sc.configs) next.1.request) :
    (step r next).map shown = (plain r' next.1).map shown := by
  have grow : ∀ (r : Replay) (out : Option (ShardCtrler × Option Config)),
      (out.map fun out => (⟨out.1, r.results ++ [out.2]⟩ : Replay)).map shown =
        (out.map shownOut).map fun s => { s with results := r.shown.results ++ s.results } := by
    intro r out
    cases out <;> simp [shown, shownOut]
  have applied := shown_apply (congrArg Shown.configs same) (congrArg Shown.lastAppliedReq same) orderly
  rw [step, plain, grow, grow, applied, same]

end Replay

/-- Two controllers that apply the same committed operations show the same: the same
configurations under the same numbers, and the same answer to every query, in whatever
orders their loops over maps went. If one panics, so does the other. -/
theorem replays_agree {first second : List (Op × Orders)} (same : first.map Prod.fst = second.map Prod.fst)
    (orderly₁ : Replay.Orderly first) (orderly₂ : Replay.Orderly second) :
    (Replay.after first).map Replay.shown = (Replay.after second).map Replay.shown := by
  have plain : ∀ steps, Replay.Orderly steps → (Replay.after steps).map Replay.shown =
      (exec Replay.plain Replay.start (steps.map Prod.fst)).map Replay.shown := fun steps orderly =>
    exec_view (f := Prod.fst) (fun _ _ _ same guarded => Replay.shown_step same guarded) rfl orderly
  rw [plain first orderly₁, plain second orderly₂, same]

/-- Three groups join, the second leaves, and the result is read. -/
def threeRounds (order : List Int → List Int) : List (Op × Orders) :=
  [(⟨.join (groupsOf [(3, [[120]]), (1, [[97]]), (2, [[98]])]), 7, 1⟩,
      ⟨[], order [1, 2, 3], order [1, 2, 3], order [1, 2, 3], order [1, 2, 3]⟩),
    (⟨.leave [2], 7, 2⟩, ⟨order [1, 2, 3], [], order [1, 3], order [1, 3], []⟩),
    (⟨.query (-1), 7, 3⟩, ⟨[], [], [], [], []⟩)]

theorem replays_agree_reversed :
    ((Replay.after (threeRounds id)).isSome = true ∧ Replay.Orderly (threeRounds id) ∧
      Replay.Orderly (threeRounds List.reverse)) ∧
    (Replay.after (threeRounds id)).map Replay.shown =
      (Replay.after (threeRounds List.reverse)).map Replay.shown := by
  have up : Replay.Orderly (threeRounds id) := by unfold Replay.Orderly; decide
  have down : Replay.Orderly (threeRounds List.reverse) := by unfold Replay.Orderly; decide
  exact ⟨⟨by decide, up, down⟩, replays_agree rfl up down⟩

end DistSys.Shardctrler
