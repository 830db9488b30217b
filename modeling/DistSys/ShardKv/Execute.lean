import DistSys.ShardKv.Apply
import DistSys.Core.Exec

namespace DistSys.ShardKv

/-- Where a call of `Execute` stands. `started` is what `Start` returned, if this
server was the leader. -/
inductive ExecuteState
  | calling
  | registering (index term : Nat)
  | waiting (index term channel : Nat)
  | checking (index term : Nat) (response : CommandResponse)
  | returned (started : Option (Nat × Nat)) (response : CommandResponse)

structure ExecuteCall where
  command : Command
  state : ExecuteState

/-- A channel that was made for an index, with its buffer of one response. -/
structure NotifyChan where
  index : Nat
  buffer : Option CommandResponse

/-- Where the applier stands. It holds the mutex except when it is idle. -/
inductive Applier
  | idle
  | applied (index term : Nat) (response : CommandResponse)
  | sending (channel : Nat) (response : CommandResponse)

/-- What the applier has computed: the response to a command that Raft delivered
with this index and term. -/
structure Computed where
  index : Nat
  term : Nat
  command : Command
  response : CommandResponse

/-- What Raft is assumed to give one incarnation of a server: an index and a term
determine a command, `GetState` shows a term that never falls, and messages
come in the order of their indices, each once. -/
structure RaftView where
  entries : Nat → Nat → Option Command
  term : Nat
  isLeader : Bool
  delivered : Nat

/-- One incarnation of a server. -/
structure Node where
  kv : ShardKV
  lastApplied : Nat
  notifyChans : Nat → Option Nat
  channels : List NotifyChan
  calls : List ExecuteCall
  removing : List Nat
  applier : Applier
  computed : List Computed
  rf : RaftView

/-- A server starts with the state that it read from its snapshot. -/
def Node.start (kv : ShardKV) (rf : RaftView) : Node where
  kv := kv
  lastApplied := 0
  notifyChans _ := none
  channels := []
  calls := []
  removing := []
  applier := .idle
  computed := []
  rf := rf

/-- The steps of the calls of `Execute`, of the goroutines that they leave
behind, of the applier, and of Raft. -/
inductive NodeAction
  | execute (command : Command)
  | start (call index : Nat)
  | register (call : Nat)
  | receive (call : Nat)
  | timeout (call : Nat)
  | check (call : Nat)
  | remove (goroutine : Nat)
  | deliver (index term : Nat)
  | deliverSnapshot (index : Nat) (kv : ShardKV)
  | announce
  | send
  | replicate (index term : Nat) (command : Command)
  | elect (term : Nat) (isLeader : Bool)

namespace RaftView

def setEntry (rf : RaftView) (index term : Nat) (command : Command) : RaftView :=
  let row := Function.update (rf.entries index) term (some command)
  { rf with entries := Function.update rf.entries index row }

end RaftView

namespace Node

variable (n : Node)

def setCall (i : Nat) (call : ExecuteCall) : Node := { n with calls := n.calls.set i call }

/-- The channel of an index, made if there is none. -/
def getNotifyChan (index : Nat) : Node × Nat :=
  match n.notifyChans index with
  | some channel => (n, channel)
  | none =>
    ({ n with
        notifyChans := Function.update n.notifyChans index (some n.channels.length)
        channels := n.channels ++ [⟨index, none⟩] }, n.channels.length)

/-- The first step of `Execute`. A leader appends the command at an index behind
all that it has delivered, and in its term no other command gets that index. -/
def callStart (i index : Nat) : Option Node :=
  match n.calls[i]? with
  | some ⟨command, .calling⟩ =>
    if n.rf.isLeader then
      if n.rf.delivered < index ∧ n.rf.entries index n.rf.term = none then
        let called := n.setCall i ⟨command, .registering index n.rf.term⟩
        some { called with rf := n.rf.setEntry index n.rf.term command }
      else none
    else some (n.setCall i ⟨command, .returned none ⟨.wrongLeader, []⟩⟩)
  | _ => none

/-- `Execute` takes the mutex, so the applier must be idle. -/
def register (i : Nat) : Option Node :=
  match n.calls[i]?, n.applier with
  | some ⟨command, .registering index term⟩, .idle =>
    let (made, channel) := n.getNotifyChan index
    some (made.setCall i ⟨command, .waiting index term channel⟩)
  | _, _ => none

/-- The `select` of `Execute` takes a response. The goroutine that removes the
channel runs from here on. -/
def receive (i : Nat) : Option Node :=
  match n.calls[i]? with
  | some ⟨command, .waiting index term channel⟩ =>
    match n.channels[channel]? with
    | some ⟨madeFor, some response⟩ =>
      let called := n.setCall i ⟨command, .checking index term response⟩
      some { called with
        channels := n.channels.set channel ⟨madeFor, none⟩
        removing := n.removing ++ [index] }
    | _ => none
  | _ => none

def timeout (i : Nat) : Option Node :=
  match n.calls[i]? with
  | some ⟨command, .waiting index term _⟩ =>
    let called := n.setCall i ⟨command, .checking index term ⟨.wrongLeader, []⟩⟩
    some { called with removing := n.removing ++ [index] }
  | _ => none

/-- The last step of `Execute` compares the terms. -/
def check (i : Nat) : Option Node :=
  match n.calls[i]? with
  | some ⟨command, .checking index term response⟩ =>
    let final := if n.rf.term ≠ term then { response with err := .wrongLeader } else response
    some (n.setCall i ⟨command, .returned (some (index, term)) final⟩)
  | _ => none

def remove (j : Nat) : Option Node :=
  match n.removing[j]?, n.applier with
  | some index, .idle =>
    some { n with
      notifyChans := Function.update n.notifyChans index none
      removing := n.removing.eraseIdx j }
  | _, _ => none

/-- The applier takes a command from Raft and applies it. -/
def deliver (index term : Nat) : Option Node :=
  match n.rf.entries index term, n.applier with
  | some command, .idle =>
    if n.rf.delivered < index then
      let rf := { n.rf with delivered := index }
      if index ≤ n.lastApplied then some { n with rf := rf }
      else
        let result := n.kv.apply command
        some { n with
          kv := result.1
          lastApplied := index
          applier := .applied index term result.2
          computed := n.computed ++ [⟨index, term, command, result.2⟩]
          rf := rf }
    else none
  | _, _ => none

/-- The applier installs a snapshot that Raft has accepted. -/
def deliverSnapshot (index : Nat) (kv : ShardKV) : Option Node :=
  match n.applier with
  | .idle =>
    if n.rf.delivered ≤ index then
      some { n with kv := kv, lastApplied := index, rf := { n.rf with delivered := index } }
    else none
  | _ => none

/-- The applier notifies only if this server leads in the term of the entry. -/
def announce : Option Node :=
  match n.applier with
  | .applied index term response =>
    if n.rf.isLeader ∧ term = n.rf.term then
      let (made, channel) := n.getNotifyChan index
      some { made with applier := .sending channel response }
    else some { n with applier := .idle }
  | _ => none

/-- The send blocks while the buffer is full. -/
def send : Option Node :=
  match n.applier with
  | .sending channel response =>
    match n.channels[channel]? with
    | some ⟨madeFor, none⟩ =>
      some { n with
        channels := n.channels.set channel ⟨madeFor, some response⟩
        applier := .idle }
    | _ => none
  | _ => none

def step (n : Node) : NodeAction → Option Node
  | .execute command => some { n with calls := n.calls ++ [⟨command, .calling⟩] }
  | .start i index => n.callStart i index
  | .register i => n.register i
  | .receive i => n.receive i
  | .timeout i => n.timeout i
  | .check i => n.check i
  | .remove j => n.remove j
  | .deliver index term => n.deliver index term
  | .deliverSnapshot index kv => n.deliverSnapshot index kv
  | .announce => n.announce
  | .send => n.send
  | .replicate index term command =>
    if n.rf.entries index term = none then some { n with rf := n.rf.setEntry index term command }
    else none
  | .elect term isLeader =>
    if n.rf.term ≤ term then some { n with rf := { n.rf with term := term, isLeader := isLeader } }
    else none

end Node

end DistSys.ShardKv
