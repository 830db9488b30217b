import DistSys.Core.GoValues
import Mathlib.Data.List.Basic
import Mathlib.Tactic.Tauto

namespace DistSys.KvRaft

inductive OpType
  | get
  | put
  | append
  deriving DecidableEq

structure Op where
  opType : OpType
  key : GoString
  value : GoString
  clientID : Int
  requestID : Int
  deriving DecidableEq

def sameOp (a b : Op) : Bool :=
  a.clientID = b.clientID && a.requestID = b.requestID && a.opType = b.opType && a.key = b.key &&
    a.value = b.value

theorem sameOp_iff {a b : Op} : sameOp a b = true ↔ a = b := by
  obtain ⟨_, _, _, _, _⟩ := a
  obtain ⟨_, _, _, _, _⟩ := b
  simp only [sameOp, Bool.and_eq_true, decide_eq_true_eq, Op.mk.injEq]
  tauto

structure ApplyResult where
  op : Op
  value : GoString
  deriving DecidableEq

/-- The part of a server that its snapshots hold. -/
structure KVState where
  kvStore : GoString → Option GoString
  lastAppliedReq : Int → Option Int

namespace KVState

variable (kv : KVState)

def empty : KVState := ⟨fun _ => none, fun _ => none⟩

/-- A missing key reads as the empty string. -/
def read (key : GoString) : GoString := (kv.kvStore key).getD []

def shouldApply (clientID reqID : Int) : Bool :=
  match kv.lastAppliedReq clientID with
  | some last => last < reqID
  | none => true

def write (op : Op) (value : GoString) : KVState where
  kvStore := Function.update kv.kvStore op.key (some value)
  lastAppliedReq := Function.update kv.lastAppliedReq op.clientID (some op.requestID)

/-- The switch of the applier. -/
def applyOp (op : Op) : KVState × ApplyResult :=
  match op.opType with
  | .get => (kv, ⟨op, kv.read op.key⟩)
  | .put => (if kv.shouldApply op.clientID op.requestID then kv.write op op.value else kv, ⟨op, []⟩)
  | .append =>
    (if kv.shouldApply op.clientID op.requestID then kv.write op (kv.read op.key ++ op.value) else kv,
      ⟨op, []⟩)

/-- The state after a log. -/
def replay (log : List Op) : KVState :=
  log.foldl (fun kv op => (kv.applyOp op).1) empty

end KVState

/-- What a handler answers: OK with a value, or ErrWrongLeader. -/
inductive Reply
  | ok (value : GoString)
  | wrongLeader
  deriving DecidableEq

/-- Where a call of `Get` or `PutAppend` stands. A handler that is leaving still
has to run its deferred `removeNotifyCh`. -/
inductive HandlerState
  | calling
  | registering (index term : Nat)
  | waiting (index term channel : Nat)
  | leaving (index : Nat) (reply : Reply)
  | returned

structure Handler where
  op : Op
  state : HandlerState

/-- Where the applier stands. It notifies and trims without the mutex. -/
inductive Applier
  | idle
  | notifying (channel : Nat) (res : ApplyResult)
  | trimming (snapshotIndex : Nat)

/-- One incarnation of a server. `applied` counts the entries of the common log
that it has applied. -/
structure KVServer where
  kv : KVState
  applied : Nat
  notify : Nat → Option Nat
  channels : List (Option ApplyResult)
  appliedResults : Nat → Option ApplyResult
  handlers : List Handler
  applier : Applier

namespace KVServer

variable (s : KVServer)

/-- A server starts from a snapshot. -/
def start (kv : KVState) (applied : Nat) : KVServer where
  kv := kv
  applied := applied
  notify _ := none
  channels := []
  appliedResults _ := none
  handlers := []
  applier := .idle

def setHandler (i : Nat) (handler : Handler) : KVServer :=
  { s with handlers := s.handlers.set i handler }

/-- A new channel gets a result that was there before it. -/
def getNotifyCh (index : Nat) : KVServer × Nat :=
  match s.notify index with
  | some channel => (s, channel)
  | none =>
    ({ s with
        notify := Function.update s.notify index (some s.channels.length)
        channels := s.channels ++ [s.appliedResults index] }, s.channels.length)

def removeNotifyCh (index : Nat) : KVServer :=
  { s with
    notify := Function.update s.notify index none
    appliedResults := Function.update s.appliedResults index none }

def trimNotifications (snapshotIndex : Nat) : KVServer :=
  { s with
    notify := fun index => if index ≤ snapshotIndex then none else s.notify index
    appliedResults := fun index => if index ≤ snapshotIndex then none else s.appliedResults index }

/-- `Start` answers with an index and a term, or that this server does not lead. -/
def callStart (i : Nat) (answer : Option (Nat × Nat)) : Option KVServer :=
  match s.handlers[i]? with
  | some ⟨op, .calling⟩ =>
    match answer with
    | some (index, term) => some (s.setHandler i ⟨op, .registering index term⟩)
    | none => some (s.setHandler i ⟨op, .returned⟩)
  | _ => none

def register (i : Nat) : Option KVServer :=
  match s.handlers[i]? with
  | some ⟨op, .registering index term⟩ =>
    let (made, channel) := s.getNotifyCh index
    some (made.setHandler i ⟨op, .waiting index term channel⟩)
  | _ => none

/-- The handler takes a result, and answers OK only if it is for its own
operation. -/
def receive (i : Nat) : Option KVServer :=
  match s.handlers[i]? with
  | some ⟨op, .waiting index _ channel⟩ =>
    match s.channels[channel]? with
    | some (some res) =>
      let reply := if sameOp res.op op then Reply.ok res.value else Reply.wrongLeader
      let left := s.setHandler i ⟨op, .leaving index reply⟩
      some { left with channels := s.channels.set channel none }
    | _ => none
  | _ => none

/-- After 500 ms the handler asks Raft whether it still leads in its term. -/
def timeout (i curTerm : Nat) (stillLeader : Bool) : Option KVServer :=
  match s.handlers[i]? with
  | some ⟨op, .waiting index term _⟩ =>
    if !stillLeader ∨ curTerm ≠ term then some (s.setHandler i ⟨op, .leaving index .wrongLeader⟩)
    else some s
  | _ => none

/-- The deferred removal, after which the reply goes out. -/
def leave (i : Nat) : Option (KVServer × Op × Reply) :=
  match s.handlers[i]? with
  | some ⟨op, .leaving index reply⟩ =>
    some ((s.removeNotifyCh index).setHandler i ⟨op, .returned⟩, op, reply)
  | _ => none

/-- The applier takes the next entry of the common log. -/
def deliver (log : List Op) : Option KVServer :=
  match s.applier, log[s.applied]? with
  | .idle, some op =>
    let result := s.kv.applyOp op
    let index := s.applied + 1
    some { s with
      kv := result.1
      applied := index
      appliedResults := Function.update s.appliedResults index (some result.2)
      applier := match s.notify index with
        | some channel => .notifying channel result.2
        | none => .idle }
  | _, _ => none

/-- The send does not block: a full buffer drops the result. -/
def sendNotification : Option KVServer :=
  match s.applier with
  | .notifying channel res =>
    match s.channels[channel]? with
    | some none => some { s with channels := s.channels.set channel (some res), applier := .idle }
    | _ => some { s with applier := .idle }
  | _ => none

/-- A snapshot that Raft has accepted: the state of a prefix of the common log,
not behind what has been applied. -/
def install (log : List Op) (index : Nat) : Option KVServer :=
  match s.applier with
  | .idle =>
    if s.applied ≤ index ∧ index ≤ log.length then
      some { s with kv := KVState.replay (log.take index), applied := index, applier := .trimming index }
    else none
  | _ => none

def trim : Option KVServer :=
  match s.applier with
  | .trimming index =>
    let trimmed := s.trimNotifications index
    some { trimmed with applier := .idle }
  | _ => none

end KVServer

end DistSys.KvRaft
