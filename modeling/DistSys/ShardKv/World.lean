import DistSys.ShardKv.Server

namespace DistSys.ShardKv

open Shardctrler (NShards Config)

/-- What the groups run in: the history of the controller, and the group that a
server name reaches. -/
structure Setting where
  configs : List Config
  home : GoString → Int

/-- The history is one that the controller produces. -/
def Setting.Controlled (setting : Setting) : Prop :=
  ∃ requests, exec Shardctrler.change [Shardctrler.defaultConfig] requests = some setting.configs

/-- The setting in which the controller has executed some requests. -/
def Setting.ofRequests (requests : List Shardctrler.Request) (home : GoString → Int) : Setting :=
  ⟨(exec Shardctrler.change [Shardctrler.defaultConfig] requests).getD [], home⟩

theorem Setting.controlled_ofRequests {requests : List Shardctrler.Request} {home : GoString → Int}
    (runs : (exec Shardctrler.change [Shardctrler.defaultConfig] requests).isSome = true) :
    (Setting.ofRequests requests home).Controlled := by
  obtain ⟨configs, run⟩ := Option.isSome_iff_exists.mp runs
  exact ⟨requests, by rw [ofRequests, run]; rfl⟩

/-- A replicated log, and the commands that some leader has proposed. A proposal
may be committed at any later time, or never. -/
structure Group where
  log : List Command
  proposed : List Command

/-- A call of `GetShardsData` or `DeleteShardsData` to the servers of `target`. -/
structure ShardCall where
  sender : Int
  target : Int
  request : ShardOperationRequest

/-- All groups, and every message ever sent: messages may be lost, delayed and
delivered repeatedly. `deleting` lists the calls of `DeleteShardsData` that
wait in `Execute`, with the group that handles them. -/
structure World where
  group : Int → Group
  requests : List CommandRequest
  responses : List (CommandRequest × CommandResponse)
  pulls : List ShardCall
  pulled : List (Int × ShardOperationResponse)
  deletes : List ShardCall
  deleting : List (Nat × Int)
  deleted : List Nat

def World.initial : World where
  group _ := ⟨[], []⟩
  requests := []
  responses := []
  pulls := []
  pulled := []
  deletes := []
  deleting := []
  deleted := []

/-- A replica acts on the prefix of its group's log that it has applied: `k`
commands in all actions. `m` selects the configurations that the controller
knows, or the configuration from which a replica reads server names. -/
inductive Action
  | submit (request : CommandRequest)
  | command (request : Nat) (g : Int) (k : Nat)
  | respond (g : Int) (index : Nat)
  | configure (g : Int) (k m : Nat)
  | emptyEntry (g : Int)
  | migrate (g : Int) (k : Nat) (prevGID : Int) (shardIDs : List (Fin NShards))
  | getShards (call m : Nat) (server : GoString) (k : Nat)
  | insert (reply : Nat)
  | collect (g : Int) (k : Nat) (prevGID : Int) (shardIDs : List (Fin NShards))
  | deleteShards (call m : Nat) (server : GoString) (k : Nat)
  | deleteReturn (waiting : Nat)
  | finish (reply : Nat)
  | commit (g : Int) (proposal : Nat)

/-- The group whose server a caller finds under the name `server` in a
configuration. -/
def Setting.reach (setting : Setting) (m : Nat) (target : Int) (server : GoString) : Option Int :=
  match setting.configs[m]? with
  | some config =>
    if server ∈ (config.groups.lookup target).getD [] then some (setting.home server) else none
  | none => none

namespace World

variable (w : World)

/-- The state of a replica of group `g` that has applied `k` commands. -/
def stateAt (g : Int) (k : Nat) : ShardKV := (startServer g).replay ((w.group g).log.take k)

/-- The state of group `g` after its whole log. -/
def state (g : Int) : ShardKV := (startServer g).replay (w.group g).log

def setGroup (g : Int) (group : Group) : World :=
  { w with group := Function.update w.group g group }

def propose (g : Int) (command : Command) : World :=
  w.setGroup g { w.group g with proposed := (w.group g).proposed ++ [command] }

def applied (g : Int) (k : Nat) : Prop := k ≤ (w.group g).log.length

instance (g : Int) (k : Nat) : Decidable (w.applied g k) := inferInstanceAs (Decidable (_ ≤ _))

/-- A replica handles a client request. -/
def command (i : Nat) (g : Int) (k : Nat) : Option World :=
  match w.requests[i]? with
  | none => none
  | some request =>
    if w.applied g k then
      match (w.stateAt g k).command request with
      | .answer response => some { w with responses := w.responses ++ [(request, response)] }
      | .execute command => some (w.propose g command)
    else none

/-- The handler of a committed operation answers its client. -/
def respond (g : Int) (index : Nat) : Option World :=
  match (w.group g).log[index]? with
  | some (.operation request) =>
    let response := ((w.stateAt g index).apply (.operation request)).2
    some { w with responses := w.responses ++ [(request, response)] }
  | _ => none

def configure (setting : Setting) (g : Int) (k m : Nat) : Option World :=
  if w.applied g k then
    ((w.stateAt g k).configureAction (setting.configs.take m)).map fun command => w.propose g command
  else none

/-- One goroutine of `migrationAction` sends its call. The order of the shards is
the order of a loop over a map. -/
def migrate (g : Int) (k : Nat) (prevGID : Int) (shardIDs : List (Fin NShards)) : Option World :=
  if w.applied g k ∧ shardIDs ≠ [] ∧ shardIDs.Perm ((w.stateAt g k).shardsFrom .pulling prevGID) then
    some { w with pulls := w.pulls ++
      [⟨g, prevGID, (w.stateAt g k).currentConfig.num, shardIDs⟩] }
  else none

def getShards (setting : Setting) (i m : Nat) (server : GoString) (k : Nat) : Option World :=
  match w.pulls[i]? with
  | none => none
  | some call =>
    match setting.reach m call.target server with
    | none => none
    | some g =>
      if w.applied g k then
        let response := (w.stateAt g k).getShardsData call.request
        some { w with pulled := w.pulled ++ [(call.sender, response)] }
      else none

/-- The caller proposes what a successful reply carries. -/
def insert (i : Nat) : Option World :=
  match w.pulled[i]? with
  | none => none
  | some (receiver, response) =>
    if response.err = .ok then some (w.propose receiver (.insertShards response)) else none

/-- One goroutine of `gcAction` sends its call. -/
def collect (g : Int) (k : Nat) (prevGID : Int) (shardIDs : List (Fin NShards)) : Option World :=
  if w.applied g k ∧ shardIDs ≠ [] ∧ shardIDs.Perm ((w.stateAt g k).shardsFrom .gcing prevGID) then
    some { w with deletes := w.deletes ++
      [⟨g, prevGID, (w.stateAt g k).currentConfig.num, shardIDs⟩] }
  else none

def deleteShards (setting : Setting) (i m : Nat) (server : GoString) (k : Nat) : Option World :=
  match w.deletes[i]? with
  | none => none
  | some call =>
    match setting.reach m call.target server with
    | none => none
    | some g =>
      if w.applied g k then
        match (w.stateAt g k).deleteShardsData call.request with
        | .answer .ok => some { w with deleted := w.deleted ++ [i] }
        | .answer _ => some w
        | .execute command => some { w.propose g command with deleting := w.deleting ++ [(i, g)] }
      else none

/-- `Execute` returns, with whatever result, and the handler answers OK. -/
def deleteReturn (i : Nat) : Option World :=
  match w.deleting[i]? with
  | none => none
  | some (call, _) => some { w with deleted := w.deleted ++ [call] }

/-- The caller of `DeleteShardsData` got its OK. -/
def finish (i : Nat) : Option World :=
  match w.deleted[i]? with
  | none => none
  | some i =>
    match w.deletes[i]? with
    | none => none
    | some call => some (w.propose call.sender (.deleteShards call.request))

/-- The next entry of a group's log is committed. There is no group 0. -/
def commit (g : Int) (i : Nat) : Option World :=
  if g = 0 then none
  else
    match (w.group g).proposed[i]? with
    | none => none
    | some command =>
      some (w.setGroup g { w.group g with log := (w.group g).log ++ [command] })

def step (setting : Setting) (w : World) : Action → Option World
  | .submit request => some { w with requests := w.requests ++ [request] }
  | .command i g k => w.command i g k
  | .respond g index => w.respond g index
  | .configure g k m => w.configure setting g k m
  | .emptyEntry g => some (w.propose g .emptyEntry)
  | .migrate g k prevGID shardIDs => w.migrate g k prevGID shardIDs
  | .getShards call m server k => w.getShards setting call m server k
  | .insert reply => w.insert reply
  | .collect g k prevGID shardIDs => w.collect g k prevGID shardIDs
  | .deleteShards call m server k => w.deleteShards setting call m server k
  | .deleteReturn waiting => w.deleteReturn waiting
  | .finish reply => w.finish reply
  | .commit g proposal => w.commit g proposal

/-- The state after a run from the start. -/
def after (setting : Setting) (as : List Action) : Option World :=
  exec (step setting) initial as

/-- The last state of a run that is known to go through. -/
def final (setting : Setting) (as : List Action) (runs : (after setting as).isSome = true) : World :=
  (after setting as).get runs

theorem after_final (setting : Setting) (as : List Action)
    (runs : (after setting as).isSome = true) : after setting as = some (final setting as runs) :=
  (Option.some_get runs).symm

end World

end DistSys.ShardKv
