import DistSys.KvRaft.Server
import DistSys.Core.Linearizable

namespace DistSys.Models

structure KvInput where
  op : UInt8
  key : GoString
  value : GoString

structure KvOutput where
  value : GoString

/-- The step of `KvModel` on the value of one key: whether the output is right,
and the new value. -/
def kvStep (st : GoString) (inp : KvInput) (out : KvOutput) : Bool × GoString :=
  if inp.op = 0 then (out.value = st, st)
  else if inp.op = 1 then (true, inp.value)
  else (true, st ++ inp.value)

/-- All keys together. `KvModel` looks at each key for itself, and every key
starts as the empty string. -/
def mapStep (st : GoString → GoString) (inp : KvInput) (out : KvOutput) :
    Option (GoString → GoString) :=
  let result := kvStep (st inp.key) inp out
  if result.1 then some (Function.update st inp.key result.2) else none

def mapInit : GoString → GoString := fun _ => []

end DistSys.Models

namespace DistSys.KvRaft

open Models (KvInput KvOutput)

/-- What a call of a clerk returned, at which time, and the length that the
common log had then. -/
structure Result where
  value : GoString
  time : Nat
  length : Nat

/-- A call of a clerk, with the length of the common log when it was made. -/
structure Call where
  op : Op
  time : Nat
  length : Nat
  result : Option Result

/-- A clerk makes one call at a time; `pending` is its position among all calls. -/
structure Clerk where
  nextReqID : Int
  pending : Option Nat

/-- All servers and clerks. `started` holds what was passed to `Start`; any of it
may be committed at any time, or never. The network may deliver the request
of any call to any server, any number of times, and may lose replies. -/
structure System where
  log : List Op
  started : List Op
  server : Nat → KVServer
  replies : List (Op × Reply)
  clerk : Int → Clerk
  calls : List Call
  clock : Nat

inductive Action
  | call (clientID : Int) (opType : OpType) (key value : GoString)
  | receive (clientID : Int) (reply : Nat)
  | handle (server call : Nat)
  | start (server handler : Nat) (answer : Option (Nat × Nat))
  | register (server handler : Nat)
  | take (server handler : Nat)
  | timeout (server handler curTerm : Nat) (stillLeader : Bool)
  | leave (server handler : Nat)
  | commit (entry : Nat)
  | deliver (server : Nat)
  | notify (server : Nat)
  | install (server index : Nat)
  | trim (server : Nat)
  | restart (server index : Nat)

def Op.input (op : Op) : KvInput where
  op := match op.opType with
    | .get => 0
    | .put => 1
    | .append => 2
  key := op.key
  value := op.value

def Call.operation (call : Call) : Linearizable.Operation KvInput KvOutput where
  input := call.op.input
  call := call.time
  result := call.result.map fun result => (⟨result.value⟩, result.time)

namespace System

variable (sys : System)

def initial : System where
  log := []
  started := []
  server _ := KVServer.start KVState.empty 0
  replies := []
  clerk _ := ⟨1, none⟩
  calls := []
  clock := 0

/-- The history that the clerks see. -/
def history : List (Linearizable.Operation KvInput KvOutput) := sys.calls.map Call.operation

def setServer (s : Nat) (server : KVServer) : System :=
  { sys with server := Function.update sys.server s server }

def setClerk (clientID : Int) (clerk : Clerk) : System :=
  { sys with clerk := Function.update sys.clerk clientID clerk }

/-- The first lines of `Get` and `PutAppend` of a clerk. -/
def call (clientID : Int) (opType : OpType) (key value : GoString) : Option System :=
  let clerk := sys.clerk clientID
  match clerk.pending with
  | some _ => none
  | none =>
    let value := if opType = .get then [] else value
    let op : Op := ⟨opType, key, value, clientID, clerk.nextReqID⟩
    let called := sys.setClerk clientID ⟨clerk.nextReqID + 1, some sys.calls.length⟩
    some { called with
      calls := sys.calls ++ [⟨op, sys.clock, sys.log.length, none⟩]
      clock := sys.clock + 1 }

/-- A clerk gets the reply OK to its request. A write returns no value. -/
def receive (clientID : Int) (i : Nat) : Option System :=
  match (sys.clerk clientID).pending with
  | none => none
  | some j =>
    match sys.calls[j]?, sys.replies[i]? with
    | some call, some (op, .ok value) =>
      if op = call.op then
        let result : Result := ⟨if op.opType = .get then value else [], sys.clock, sys.log.length⟩
        let returned := sys.setClerk clientID { sys.clerk clientID with pending := none }
        some { returned with
          calls := sys.calls.set j { call with result := some result }
          clock := sys.clock + 1 }
      else none
    | _, _ => none

/-- The network delivers a request. -/
def handle (s i : Nat) : Option System :=
  (sys.calls[i]?).map fun call =>
    let server := sys.server s
    sys.setServer s { server with handlers := server.handlers ++ [⟨call.op, .calling⟩] }

def callStart (s h : Nat) (answer : Option (Nat × Nat)) : Option System :=
  match (sys.server s).handlers[h]? with
  | none => none
  | some handler =>
    ((sys.server s).callStart h answer).map fun server =>
      let moved := sys.setServer s server
      { moved with started := if answer.isSome then sys.started ++ [handler.op] else sys.started }

def leave (s h : Nat) : Option System :=
  ((sys.server s).leave h).map fun result =>
    let moved := sys.setServer s result.1
    { moved with replies := sys.replies ++ [result.2] }

def commit (i : Nat) : Option System :=
  (sys.started[i]?).map fun op => { sys with log := sys.log ++ [op] }

/-- A server comes back with the state of its snapshot. -/
def restart (s index : Nat) : Option System :=
  if index ≤ sys.log.length then
    some (sys.setServer s (KVServer.start (KVState.replay (sys.log.take index)) index))
  else none

/-- One server takes a step of its own. -/
def serverStep (s : Nat) (step : KVServer → Option KVServer) : Option System :=
  (step (sys.server s)).map fun server => sys.setServer s server

def step (sys : System) : Action → Option System
  | .call clientID opType key value => sys.call clientID opType key value
  | .receive clientID reply => sys.receive clientID reply
  | .handle s i => sys.handle s i
  | .start s h answer => sys.callStart s h answer
  | .register s h => sys.serverStep s fun server => server.register h
  | .take s h => sys.serverStep s fun server => server.receive h
  | .timeout s h curTerm stillLeader => sys.serverStep s fun server => server.timeout h curTerm stillLeader
  | .leave s h => sys.leave s h
  | .commit i => sys.commit i
  | .deliver s => sys.serverStep s fun server => server.deliver sys.log
  | .notify s => sys.serverStep s KVServer.sendNotification
  | .install s index => sys.serverStep s fun server => server.install sys.log index
  | .trim s => sys.serverStep s KVServer.trim
  | .restart s index => sys.restart s index

def after (as : List Action) : Option System := exec step initial as

def final (as : List Action) (runs : (after as).isSome = true) : System := (after as).get runs

theorem after_final (as : List Action) (runs : (after as).isSome = true) :
    after as = some (final as runs) :=
  (Option.some_get runs).symm

end System

end DistSys.KvRaft
