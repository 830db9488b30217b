import DistSys.Core.Exec
import DistSys.Core.GoValues
import Mathlib.Data.List.AList
import Mathlib.Data.List.Sort
import Mathlib.Logic.Function.Basic

namespace DistSys

namespace Shardctrler

abbrev NShards : Nat := 10

/-- A Go map from gids to server names, in the order in which a loop over it
happens to visit the keys. -/
abbrev Groups := AList fun _ : Int => List GoString

/-- A map literal. -/
def groupsOf (entries : List (Int × List GoString)) : Groups :=
  entries.foldl (fun groups entry => groups.insert entry.1 entry.2) ∅

structure Config where
  num : Int
  shards : Fin NShards → Int
  groups : Groups

def defaultConfig : Config where
  num := 0
  shards _ := 0
  groups := ∅

def sortedGIDs (groups : Groups) : List Int :=
  groups.keys.insertionSort (· ≤ ·)

/-- How many shards each group should own. The gids are distinct, so the loop
index of a gid is its position. -/
def computeTargets (groups : Groups) (gid : Int) : Nat :=
  let gids := sortedGIDs groups
  let q := NShards / gids.length
  let r := NShards % gids.length
  if gid ∈ gids then
    if gids.idxOf gid < r then q + 1 else q
  else 0

/-- One round of the counting loops: a shard of a present group counts. -/
def countShard (groups : Groups) (shards : Fin NShards → Int) (counts : Int → Nat)
    (i : Fin NShards) : Int → Nat :=
  if shards i ∈ groups then Function.update counts (shards i) (counts (shards i) + 1) else counts

def countShards (groups : Groups) (shards : Fin NShards → Int) : Int → Nat :=
  (List.finRange NShards).foldl (countShard groups shards) fun _ => 0

/-- One round of the donor loop of `applyJoin`: a shard is given away if nobody
owns it, or if its owner still has more than its target. -/
def joinDonor (groups : Groups) (targets : Int → Nat) (shards : Fin NShards → Int)
    (loop : List (Fin NShards) × (Int → Nat)) (i : Fin NShards) :
    List (Fin NShards) × (Int → Nat) :=
  let gid := shards i
  if gid = 0 ∨ gid ∈ groups ∧ loop.2 gid > targets gid then
    (loop.1 ++ [i],
      if gid ∈ groups then Function.update loop.2 gid (loop.2 gid - 1) else loop.2)
  else loop

def joinDonors (groups : Groups) (targets : Int → Nat) (shards : Fin NShards → Int) :
    List (Fin NShards) × (Int → Nat) :=
  (List.finRange NShards).foldl (joinDonor groups targets shards) ([], countShards groups shards)

/-- One round of the donor loop of `applyLeave`: a shard is given away if its
owner leaves, and counts for its owner if that one stays. -/
def leaveDonor (groups : Groups) (leaving : List Int) (shards : Fin NShards → Int)
    (loop : List (Fin NShards) × (Int → Nat)) (i : Fin NShards) :
    List (Fin NShards) × (Int → Nat) :=
  if shards i ∈ leaving then (loop.1 ++ [i], loop.2)
  else (loop.1, countShard groups shards loop.2 i)

def leaveDonors (groups : Groups) (leaving : List Int) (shards : Fin NShards → Int) :
    List (Fin NShards) × (Int → Nat) :=
  (List.finRange NShards).foldl (leaveDonor groups leaving shards) ([], fun _ => 0)

/-- The inner recipient loop: hand donors to one group while it needs more. -/
def give (gid : Int) : Nat → List (Fin NShards) → (Fin NShards → Int) →
    List (Fin NShards) × (Fin NShards → Int)
  | _, [], shards => ([], shards)
  | 0, donors, shards => (donors, shards)
  | need + 1, shard :: donors, shards => give gid need donors (Function.update shards shard gid)

/-- The outer recipient loop. `di` is the number of donors already dropped from
the front of the list. -/
def fill (targets counts : Int → Nat) : List Int → List (Fin NShards) → (Fin NShards → Int) →
    Fin NShards → Int
  | [], _, shards => shards
  | gid :: gids, donors, shards =>
    let given := give gid (targets gid - counts gid) donors shards
    fill targets counts gids given.1 given.2

def addGroups (groups servers : Groups) : Groups :=
  servers.entries.foldl (fun groups entry => groups.insert entry.1 entry.2) groups

def removeGroups (groups : Groups) (gids : List Int) : Groups :=
  gids.foldl (fun groups gid => groups.erase gid) groups

/-- The owners after a join into `groups`. -/
def joinShards (groups servers : Groups) (shards : Fin NShards → Int) : Fin NShards → Int :=
  let targets := computeTargets groups
  let donors := joinDonors groups targets shards
  fill targets donors.2 (sortedGIDs servers) donors.1 shards

/-- The owners after a leave that keeps `groups`. -/
def leaveShards (groups : Groups) (leaving : List Int) (shards : Fin NShards → Int) :
    Fin NShards → Int :=
  let targets := computeTargets groups
  let donors := leaveDonors groups leaving shards
  fill targets donors.2 (sortedGIDs groups) donors.1 shards

/-- The configuration that `applyJoin` appends. -/
def Config.join (prev : Config) (servers : Groups) : Config :=
  let groups := addGroups prev.groups servers
  if sortedGIDs groups = [] then
    { num := prev.num + 1, shards := fun _ => 0, groups := groups }
  else
    { num := prev.num + 1, shards := joinShards groups servers prev.shards, groups := groups }

/-- The configuration that `applyLeave` appends. -/
def Config.leave (prev : Config) (gids : List Int) : Config :=
  let groups := removeGroups prev.groups gids
  if sortedGIDs groups = [] then
    { num := prev.num + 1, shards := fun _ => 0, groups := groups }
  else
    { num := prev.num + 1, shards := leaveShards groups gids prev.shards, groups := groups }

/-- The configuration that `applyMove` appends. The array index panics unless
the shard exists. -/
def Config.move (prev : Config) (shard gid : Int) : Option Config :=
  if inside : 0 ≤ shard ∧ shard.toNat < NShards then
    some { num := prev.num + 1
           shards := Function.update prev.shards ⟨shard.toNat, inside.2⟩ gid
           groups := prev.groups }
  else none

def latest (configs : List Config) : Config :=
  configs.getLast?.getD defaultConfig

def applyJoin (configs : List Config) (servers : Groups) : List Config :=
  configs ++ [(latest configs).join servers]

def applyLeave (configs : List Config) (gids : List Int) : List Config :=
  configs ++ [(latest configs).leave gids]

def applyMove (configs : List Config) (shard gid : Int) : Option (List Config) :=
  ((latest configs).move shard gid).map fun next => configs ++ [next]

/-- Reading below -1 panics. -/
def readConfig (configs : List Config) (num : Int) : Option Config :=
  if num = -1 ∨ num ≥ configs.length then some (latest configs)
  else if num < 0 then none
  else configs[num.toNat]?

/-- What an operation asks for. -/
inductive Request
  | join (servers : Groups)
  | leave (gids : List Int)
  | move (shard gid : Int)
  | query (num : Int)

structure Op where
  request : Request
  clientID : Int
  requestID : Int

/-- The replicated state of the controller. -/
structure ShardCtrler where
  configs : List Config
  lastAppliedReq : Int → Option Int

def startServer : ShardCtrler where
  configs := [defaultConfig]
  lastAppliedReq _ := none

def ShardCtrler.isDuplicate (sc : ShardCtrler) (clientID requestID : Int) : Bool :=
  match sc.lastAppliedReq clientID with
  | some last => requestID ≤ last
  | none => false

/-- The new configuration history of a change, if it does not panic. -/
def change (configs : List Config) : Request → Option (List Config)
  | .join servers => some (applyJoin configs servers)
  | .leave gids => some (applyLeave configs gids)
  | .move shard gid => applyMove configs shard gid
  | .query _ => some configs

/-- The body of the applier loop: changes are executed once for each request
of a client, queries are answered. -/
def ShardCtrler.apply (sc : ShardCtrler) (op : Op) : Option (ShardCtrler × Option Config) :=
  match op.request with
  | .query num => (readConfig sc.configs num).map fun config => (sc, some config)
  | request =>
    if sc.isDuplicate op.clientID op.requestID then some (sc, none)
    else (change sc.configs request).map fun configs =>
      ({ configs := configs
         lastAppliedReq := Function.update sc.lastAppliedReq op.clientID (some op.requestID) }, none)

end Shardctrler

end DistSys
