import DistSys.Shardctrler.Server
import DistSys.Core.LedgerPoints
import Mathlib.Data.Fintype.Pi

namespace DistSys.Shardctrler

deriving instance DecidableEq for Config

inductive OpType
  | join
  | leave
  | move
  | query
  deriving DecidableEq

def Request.type : Request → OpType
  | .join _ => .join
  | .leave _ => .leave
  | .move _ _ => .move
  | .query _ => .query

/-- What the applier sends to a waiting handler. Only a query fills in a
configuration. -/
structure ApplyResult where
  op : Op
  config : Option Config

/-- The comparison that every handler makes before it answers. -/
def ApplyResult.isFor (res : ApplyResult) (op : Op) : Bool :=
  res.op.clientID = op.clientID && res.op.requestID = op.requestID &&
    res.op.request.type = op.request.type

/-- What a handler answers. WrongLeader is set, or not; then a query also has
its configuration. -/
inductive Reply
  | ok (config : Option Config)
  | wrongLeader

def reply (res : ApplyResult) (op : Op) : Reply :=
  if res.isFor op then
    .ok (match op.request with
      | .query _ => res.config
      | _ => none)
  else .wrongLeader

/-- Where a handler of `Join`, `Leave`, `Move` or `Query` stands. -/
inductive HandlerState
  | calling
  | registering (index : Nat)
  | waiting (index : Nat)
  | returned

/-- A handler of the request that belongs to a call of a clerk. -/
structure Handler where
  call : Nat
  op : Op
  state : HandlerState

/-- One incarnation of a server. `applied` counts the entries of the common log
that it has applied. A channel with room for one result belongs to an index
for good, once a handler or the applier has made it. -/
structure Server where
  sc : ShardCtrler
  applied : Nat
  notify : Nat → Option (Option ApplyResult)
  handlers : List Handler

namespace Server

variable (s : Server)

def start : Server where
  sc := startServer
  applied := 0
  notify _ := none
  handlers := []

def setHandler (i : Nat) (handler : Handler) : Server :=
  { s with handlers := s.handlers.set i handler }

/-- The channel of an index is made unless it is there. -/
def getNotifyCh (index : Nat) : Server :=
  match s.notify index with
  | some _ => s
  | none => { s with notify := Function.update s.notify index (some none) }

/-- `Start` answers with an index, or that this server does not lead. -/
def callStart (i : Nat) (answer : Option Nat) : Option Server :=
  match s.handlers[i]? with
  | some ⟨call, op, .calling⟩ =>
    match answer with
    | some index => some (s.setHandler i ⟨call, op, .registering index⟩)
    | none => some (s.setHandler i ⟨call, op, .returned⟩)
  | _ => none

def register (i : Nat) : Option Server :=
  match s.handlers[i]? with
  | some ⟨call, op, .registering index⟩ =>
    some ((s.getNotifyCh index).setHandler i ⟨call, op, .waiting index⟩)
  | _ => none

/-- The handler takes the result out of the channel of its index and answers. -/
def receive (i : Nat) : Option (Server × Nat × Reply) :=
  match s.handlers[i]? with
  | some ⟨call, op, .waiting index⟩ =>
    match s.notify index with
    | some (some res) =>
      let left := s.setHandler i ⟨call, op, .returned⟩
      some ({ left with notify := Function.update s.notify index (some none) }, call, reply res op)
    | _ => none
  | _ => none

/-- After 500 ms the handler gives up; its operation stays where it is. -/
def timeout (i : Nat) : Option (Server × Nat × Reply) :=
  match s.handlers[i]? with
  | some ⟨call, op, .waiting _⟩ =>
    some (s.setHandler i ⟨call, op, .returned⟩, call, .wrongLeader)
  | _ => none

/-- One round of the applier, which holds the mutex: a full channel drops the
result. An operation that panics is never got past. -/
def deliver (log : List Op) : Option Server :=
  match log[s.applied]? with
  | none => none
  | some op =>
    (s.sc.apply op).map fun result =>
      let index := s.applied + 1
      let made := s.getNotifyCh index
      { made with
        sc := result.1
        applied := index
        notify := match made.notify index with
          | some (some _) => made.notify
          | _ => Function.update made.notify index (some (some ⟨op, result.2⟩)) }

end Server

/-- All servers and clerks. `started` holds what was passed to `Start`; any of it
may be committed at any time, or never. The network may deliver the request
of any call to any server, any number of times, and may lose replies. -/
structure System where
  ledger : Ledger Op (Option Config)
  started : List Op
  server : Nat → Server
  replies : List (Nat × Reply)

inductive Action
  | call (clientID : Int) (request : Request)
  | receive (clientID : Int) (reply : Nat)
  | handle (server call : Nat)
  | start (server handler : Nat) (answer : Option Nat)
  | register (server handler : Nat)
  | take (server handler : Nat)
  | timeout (server handler : Nat)
  | commit (entry : Nat)
  | deliver (server : Nat)
  | restart (server : Nat)

namespace System

variable (sys : System)

def initial : System where
  ledger := Ledger.initial Op (Option Config)
  started := []
  server _ := Server.start
  replies := []

def setServer (s : Nat) (server : Server) : System :=
  { sys with server := Function.update sys.server s server }

/-- The first lines of `Query`, `Join`, `Leave` and `Move` of a clerk. -/
def call (clientID : Int) (request : Request) : Option System :=
  let clerk := sys.ledger.clerk clientID
  match clerk.pending with
  | some _ => none
  | none => some { sys with ledger := sys.ledger.ask clientID ⟨request, clientID, clerk.next⟩ }

/-- A clerk gets a reply to its request in which WrongLeader is not set. -/
def receive (clientID : Int) (i : Nat) : Option System :=
  match (sys.ledger.clerk clientID).pending with
  | none => none
  | some j =>
    match sys.ledger.calls[j]?, sys.replies[i]? with
    | some call, some (k, .ok config) =>
      if k = j then some { sys with ledger := sys.ledger.finish clientID j call config } else none
    | _, _ => none

/-- The network delivers a request. -/
def handle (s i : Nat) : Option System :=
  (sys.ledger.calls[i]?).map fun call =>
    let server := sys.server s
    sys.setServer s { server with handlers := server.handlers ++ [⟨i, call.op, .calling⟩] }

def callStart (s h : Nat) (answer : Option Nat) : Option System :=
  match (sys.server s).handlers[h]? with
  | none => none
  | some handler =>
    ((sys.server s).callStart h answer).map fun server =>
      let moved := sys.setServer s server
      { moved with started := if answer.isSome then sys.started ++ [handler.op] else sys.started }

/-- A handler returns, and its reply goes out. -/
def answer (s : Nat) (result : Option (Server × Nat × Reply)) : Option System :=
  result.map fun (server, reply) =>
    let moved := sys.setServer s server
    { moved with replies := sys.replies ++ [reply] }

def commit (i : Nat) : Option System :=
  (sys.started[i]?).map fun op => { sys with ledger := sys.ledger.commit op }

/-- One server takes a step of its own. -/
def serverStep (s : Nat) (step : Server → Option Server) : Option System :=
  (step (sys.server s)).map fun server => sys.setServer s server

def step (sys : System) : Action → Option System
  | .call clientID request => sys.call clientID request
  | .receive clientID reply => sys.receive clientID reply
  | .handle s i => sys.handle s i
  | .start s h answer => sys.callStart s h answer
  | .register s h => sys.serverStep s fun server => server.register h
  | .take s h => sys.answer s ((sys.server s).receive h)
  | .timeout s h => sys.answer s ((sys.server s).timeout h)
  | .commit i => sys.commit i
  | .deliver s => sys.serverStep s fun server => server.deliver sys.ledger.log
  | .restart s => some (sys.setServer s Server.start)

def after (as : List Action) : Option System := exec step initial as

def final (as : List Action) (runs : (after as).isSome = true) : System := (after as).get runs

theorem after_final (as : List Action) (runs : (after as).isSome = true) :
    after as = some (final as runs) :=
  (Option.some_get runs).symm

end System

/-! The sequential controller -/

/-- What a query is to return: the configuration of that number if it is known,
else the latest one. Below -1 there is nothing to return. -/
def lookup (configs : List Config) (num : Int) : Option Config :=
  if 0 ≤ num ∧ num < configs.length then configs[num.toNat]?
  else if num ≥ -1 then configs.getLast?
  else none

/-- The history of configurations as a sequential object. Each join, leave and
move appends one configuration and returns nothing. -/
def configStep (configs : List Config) : Request → Option Config → Option (List Config)
  | .query num, some config => if lookup configs num = some config then some configs else none
  | .query _, none => none
  | _, some _ => none
  | request, none => change configs request

end DistSys.Shardctrler
