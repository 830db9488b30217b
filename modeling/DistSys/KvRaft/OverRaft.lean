import DistSys.KvRaft.Server
import DistSys.Raft.Step

namespace DistSys.KvRaft

open Raft (Cluster Blob)

instance : Inhabited Op := ⟨⟨.get, [], [], 0, 0⟩⟩

/-- labgob on snapshots. -/
structure Codec where
  encode : KVState → List UInt8
  decode : List UInt8 → KVState

/-- `restoreSnapshot`: an empty snapshot is not decoded. -/
def Codec.restore (codec : Codec) (kv : KVState) (data : List UInt8) : KVState :=
  if data = [] then kv else codec.decode data

/-- A server above its Raft peer. `installing` is the snapshot message that the applier
has received and not yet passed to `CondInstallSnapshot`, by its place in what the
service has seen; `results` is the history of what the applier has computed, with the
indices. -/
structure Host where
  server : KVServer
  installing : Option Nat
  results : List (Nat × ApplyResult)

namespace Host

variable (host : Host)

/-- `StartKVServer`. -/
def start (codec : Codec) (data : List UInt8) : Host :=
  ⟨KVServer.start (codec.restore KVState.empty data) 0, none, []⟩

/-- The applier waits for the next message. -/
def idle : Bool :=
  match host.server.applier, host.installing with
  | .idle, none => true
  | _, _ => false

def serve (step : KVServer → Option KVServer) : Option Host :=
  (step host.server).map fun server => { host with server := server }

/-- A request arrives. -/
def handle (op : Op) : Host :=
  let server := host.server
  { host with server := { server with handlers := server.handlers ++ [⟨op, .calling⟩] } }

/-- The applier on a command message, up to the release of the mutex. -/
def applyCommand (op : Op) (index : Nat) : Host :=
  let server := host.server
  let result := server.kv.applyOp op
  { host with
    server := { server with
      kv := result.1
      applied := index
      appliedResults := Function.update server.appliedResults index (some result.2)
      applier := match server.notify index with
        | some channel => .notifying channel result.2
        | none => .idle }
    results := host.results ++ [(index, result.2)] }

/-- The applier after `CondInstallSnapshot`, up to `trimNotifications`. -/
def applySnapshot (codec : Codec) (accepted : Bool) (data : List UInt8) (index : Nat) : Host :=
  let server := host.server
  if accepted then
    { host with
      server := { server with
        kv := codec.restore server.kv data
        applied := index
        applier := .trimming index }
      installing := none }
  else { host with installing := none }

end Host

/-- A group of servers above a Raft cluster. -/
structure Deployment (n : Nat) where
  cluster : Cluster n Op
  host : Fin n → Host

/-- A step of Raft itself, of a handler or of an applier. A handler is picked by its
number, and an `InstallSnapshot` handler of Raft by its own. -/
inductive Event (n : Nat)
  | raft (a : Raft.Action n Op)
  | handle (s : Fin n) (op : Op)
  | start (s : Fin n) (h : Nat)
  | register (s : Fin n) (h : Nat)
  | take (s : Fin n) (h : Nat)
  | timeout (s : Fin n) (h : Nat)
  | leave (s : Fin n) (h : Nat)
  | command (s : Fin n)
  | notify (s : Fin n)
  | maybeSnapshot (s : Fin n)
  | snapshot (s : Fin n) (install : Nat)
  | condInstall (s : Fin n)
  | trim (s : Fin n)

variable {n : Nat}

/-- The actions of Raft that take place only together with a step of the service. -/
def ofService : Raft.Action n Op → Bool
  | .start _ _ | .applySend _ | .sendSnapshot _ _ | .snapshot _ _ _ | .condInstall _ _ => true
  | _ => false

/-- The server that an action of Raft brings down. -/
def crashed (c : Cluster n Op) : Raft.Action n Op → Option (Fin n)
  | .crash s => some s
  | .crashInVote call =>
    match c.requests[call]? with
    | some (.vote _ s _) => some s
    | _ => none
  | .crashInAppend call =>
    match c.requests[call]? with
    | some (.append _ s _) => some s
    | _ => none
  | _ => none

namespace Deployment

variable (codec : Codec) (d : Deployment n)

def initial (codec : Codec) (n : Nat) : Deployment n :=
  ⟨Raft.init n Op, fun _ => .start codec []⟩

def rf (s : Fin n) : Raft n Op := (d.cluster.server s).rf

/-- One server moves, and Raft with it if it calls Raft. -/
def move (s : Fin n) (host : Option Host) (cluster : Option (Cluster n Op)) : Option (Deployment n) :=
  match host, cluster with
  | some host, some cluster => some ⟨cluster, Function.update d.host s host⟩
  | _, _ => none

/-- A crashed server starts again from the snapshot of its persister. -/
def raft (a : Raft.Action n Op) : Option (Deployment n) :=
  if ofService a then none
  else (d.cluster.step a).map fun cluster =>
    match crashed d.cluster a with
    | some s =>
      ⟨cluster, Function.update d.host s (.start codec (cluster.server s).rf.persister.snapshot.bytes)⟩
    | none => { d with cluster := cluster }

/-- A handler calls `Start`. -/
def callStart (s : Fin n) (h : Nat) : Option (Deployment n) :=
  let host := d.host s
  match host.server.handlers[h]? with
  | some ⟨op, .calling⟩ =>
    let (_, index, term, isLeader) := (d.rf s).start op
    let answer := if isLeader then some (index.toNat, term.toNat) else none
    d.move s (host.serve fun server => server.callStart h answer) (d.cluster.step (.start s op))
  | _ => none

/-- After 500 ms a handler calls `GetState`. -/
def timeout (s : Fin n) (h : Nat) : Option (Deployment n) :=
  let (curTerm, stillLeader) := (d.rf s).getState
  d.move s ((d.host s).serve fun server => server.timeout h curTerm.toNat stillLeader) (some d.cluster)

/-- The applier receives the next command on `applyCh`. -/
def command (s : Fin n) : Option (Deployment n) :=
  match (d.host s).idle, (d.cluster.server s).batch with
  | true, some ⟨.command op index _ :: _, _, _⟩ =>
    d.move s (some ((d.host s).applyCommand op index.toNat)) (d.cluster.step (.applySend s))
  | _, _ => none

/-- `maybeSnapshot`, if the state of Raft has become too large. -/
def maybeSnapshot (s : Fin n) : Option (Deployment n) :=
  let host := d.host s
  if host.idle then
    d.move s (some host) (d.cluster.step (.snapshot s host.server.applied (codec.encode host.server.kv)))
  else none

/-- The applier receives a snapshot on `applyCh`. -/
def snapshot (s : Fin n) (install : Nat) : Option (Deployment n) :=
  let host := d.host s
  if host.idle then
    d.move s (some { host with installing := some (d.cluster.server s).service.length })
      (d.cluster.step (.sendSnapshot s install))
  else none

/-- The applier calls `CondInstallSnapshot`, and restores the snapshot if Raft accepts it. -/
def condInstall (s : Fin n) : Option (Deployment n) :=
  let host := d.host s
  match host.server.applier, host.installing with
  | .idle, some event =>
    match (d.cluster.server s).service[event]? with
    | some (.received (.snapshot data term index)) =>
      let (_, accepted) := (d.rf s).condInstallSnapshot term index data
      d.move s (some (host.applySnapshot codec accepted data.bytes index.toNat))
        (d.cluster.step (.condInstall s event))
    | _ => none
  | _, _ => none

def step (d : Deployment n) : Event n → Option (Deployment n)
  | .raft a => d.raft codec a
  | .handle s op => d.move s (some ((d.host s).handle op)) (some d.cluster)
  | .start s h => d.callStart s h
  | .register s h => d.move s ((d.host s).serve fun server => server.register h) (some d.cluster)
  | .take s h => d.move s ((d.host s).serve fun server => server.receive h) (some d.cluster)
  | .timeout s h => d.timeout s h
  | .leave s h => d.move s ((d.host s).serve fun server => (server.leave h).map fun left => left.1) (some d.cluster)
  | .command s => d.command s
  | .notify s => d.move s ((d.host s).serve fun server => server.sendNotification) (some d.cluster)
  | .maybeSnapshot s => d.maybeSnapshot codec s
  | .snapshot s install => d.snapshot s install
  | .condInstall s => d.condInstall codec s
  | .trim s => d.move s ((d.host s).serve fun server => server.trim) (some d.cluster)

def after (es : List (Event n)) : Option (Deployment n) := exec (step codec) (initial codec n) es

def final (es : List (Event n)) (runs : (after codec es).isSome = true) : Deployment n :=
  (after codec es).get runs

theorem after_final (es : List (Event n)) (runs : (after codec es).isSome = true) :
    after codec es = some (final codec es runs) :=
  (Option.some_get runs).symm

end Deployment

end DistSys.KvRaft
