import DistSys.Core.Exec
import DistSys.Core.GoValues
import Mathlib.Logic.Function.Basic

namespace DistSys.Labrpc

/-- The methods of a service that look like handlers. -/
structure Service where
  name : GoString
  methods : GoString → Bool

structure Server where
  services : GoString → Option Service
  /-- Incoming RPCs. -/
  count : Nat

def makeServer : Server := ⟨fun _ => none, 0⟩

/-- The name of a service and of a method in `svcMeth`, split at the last dot. Without a dot
the slice expressions are out of range. -/
def splitMethod (svcMeth : GoString) : Option (GoString × GoString) :=
  (svcMeth.reverse.idxOf? 46).map fun fromEnd =>
    (svcMeth.take (svcMeth.length - 1 - fromEnd), svcMeth.drop (svcMeth.length - fromEnd))

/-- What `processReq` has read of the network: the results of `readEndnameInfo`. -/
structure Info (N : Type) where
  servername : N
  server : Nat
  reliable : Bool
  longReordering : Bool

/-- How far a call is. It waits for the network goroutine, is held by it, waits for
`processReq` to read about its end, for a simulated timeout, before the handler is called,
in the loop, for the last check, to be answered, for a delayed answer, or for `Call` to take
the answer. -/
inductive Progress
  | sending
  | abandoned
  | taken
  | accepted
  | refused
  | located
  | waiting
  | stopped (reply : Option GoString)
  | checked (reply : GoString)
  | delayed (reply : GoString)
  | replying (reply : GoString)
  | returned (reply : Option GoString)
deriving DecidableEq

/-- The goroutine that calls the handler. Between `Server.dispatch` and `Service.dispatch` it
holds the two names and what the server has under the first. -/
inductive Handler
  | absent
  | spawned
  | dispatched (serviceName methodName : GoString) (service : Option Service)
  | running
  | finished (reply : GoString)
  | received (reply : GoString)

/-- A call of `ClientEnd.Call`; `info` is read once by `processReq`. -/
structure Request (E N : Type) where
  endname : E
  svcMeth : GoString
  args : GoString
  info : Option (Info N)
  progress : Progress
  handler : Handler

/-- The beginning of a handler: the call, the server, and what is executed there. -/
structure Execution where
  request : Nat
  server : Nat
  service : GoString
  method : GoString
  args : GoString

/-- The goroutine that receives all requests: it waits, has received the request of a call,
has counted it, or has seen that the network is done. -/
inductive Listener
  | idle
  | received (i : Nat)
  | counted (i : Nat)
  | stopped
deriving DecidableEq

/-- The network with its servers, by their addresses, and all calls. `executed` are the
handlers that have been called; no step depends on them. -/
structure Network (E N : Type) where
  reliable : Bool
  longDelays : Bool
  longReordering : Bool
  ends : E → Bool
  enabled : E → Bool
  servers : N → Option Nat
  connections : E → Option N
  done : Bool
  listener : Listener
  count : Int32
  bytes : Int64
  heap : List Server
  requests : List (Request E N)
  executed : List Execution

/-- A step of one call: of `Call`, of the network goroutine, of `processReq` or of the
goroutine of the handler. -/
inductive Act
  | abandon
  | accept
  | count
  | start
  | read
  | refuse
  | dropRequest
  | spawn
  | dispatch
  | invoke
  | finish (reply : GoString)
  | receive
  | tick
  | lastCheck
  | dropReply
  | delay
  | answer
  | deliver

/-- What the tests do to the network, new calls, and the steps of the calls. -/
inductive Event (E N : Type)
  | setReliable (yes : Bool)
  | setLongReordering (yes : Bool)
  | setLongDelays (yes : Bool)
  | makeEnd (endname : E)
  | makeServer
  | addService (server : Nat) (svc : Service)
  | addServer (servername : N) (server : Nat)
  | deleteServer (servername : N)
  | connect (endname : E) (servername : N)
  | enable (endname : E) (enabled : Bool)
  | cleanup
  | stopListening
  | call (endname : E) (svcMeth args : GoString)
  | act (i : Nat) (act : Act)

namespace Network

variable {E N : Type} [DecidableEq E] [DecidableEq N] (rn : Network E N)

def makeNetwork : Network E N where
  reliable := true
  longDelays := false
  longReordering := false
  ends := fun _ => false
  enabled := fun _ => false
  servers := fun _ => none
  connections := fun _ => none
  done := false
  listener := .idle
  count := 0
  bytes := 0
  heap := []
  requests := []
  executed := []

/-- `readEndnameInfo`, if the end is enabled and its server is there. -/
def readEndnameInfo (endname : E) : Option (Info N) :=
  if rn.enabled endname then do
    let servername ← rn.connections endname
    let server ← rn.servers servername
    some ⟨servername, server, rn.reliable, rn.longReordering⟩
  else none

def isServerDead (endname : E) (info : Info N) : Bool :=
  rn.enabled endname == false || rn.servers info.servername != some info.server

/-- The call `i` goes on. -/
def setRequest (i : Nat) (request : Request E N) : Network E N :=
  { rn with requests := rn.requests.set i request }

/-- `Server.dispatch` while it holds the lock: the call is counted and the service is looked
up. -/
def dispatch (i : Nat) (request : Request E N) (server : Nat) : Option (Network E N) := do
  let rs ← rn.heap[server]?
  let (serviceName, methodName) ← splitMethod request.svcMeth
  let dispatched := rn.setRequest i
    { request with handler := .dispatched serviceName methodName (rs.services serviceName) }
  some { dispatched with heap := rn.heap.set server { rs with count := rs.count + 1 } }

/-- `Service.dispatch` up to the call of the method. -/
def invoke (i : Nat) (request : Request E N) (server : Nat) (serviceName methodName : GoString)
    (service : Service) : Option (Network E N) :=
  if service.methods methodName then
    let running := rn.setRequest i { request with handler := .running }
    some { running with executed := rn.executed ++ [⟨i, server, serviceName, methodName, request.args⟩] }
  else none

/-- One step of the call `i`. -/
def requestStep (i : Nat) (request : Request E N) : Act → Option (Network E N)
  | .abandon =>
    match request.progress with
    | .sending => if rn.done then some (rn.setRequest i { request with progress := .abandoned }) else none
    | _ => none
  | .accept =>
    match request.progress with
    | .sending =>
      if rn.listener = .idle then
        some { rn.setRequest i { request with progress := .taken } with listener := .received i }
      else none
    | _ => none
  | .count =>
    if rn.listener = .received i then some { rn with listener := .counted i, count := rn.count + 1 } else none
  | .start =>
    match request.progress with
    | .taken =>
      if rn.listener = .counted i then
        let accepted := rn.setRequest i { request with progress := .accepted }
        some { accepted with listener := .idle, bytes := rn.bytes + Int64.ofNat request.args.length }
      else none
    | _ => none
  | .read =>
    match request.progress with
    | .accepted =>
      match rn.readEndnameInfo request.endname with
      | some info => some (rn.setRequest i { request with info := some info, progress := .located })
      | none => some (rn.setRequest i { request with progress := .refused })
    | _ => none
  | .refuse =>
    match request.progress with
    | .refused => some (rn.setRequest i { request with progress := .returned none })
    | _ => none
  | .dropRequest =>
    match request.progress, request.info with
    | .located, some info =>
      if info.reliable then none else some (rn.setRequest i { request with progress := .returned none })
    | _, _ => none
  | .spawn =>
    match request.progress with
    | .located => some (rn.setRequest i { request with progress := .waiting, handler := .spawned })
    | _ => none
  | .dispatch =>
    match request.handler, request.info with
    | .spawned, some info => rn.dispatch i request info.server
    | _, _ => none
  | .invoke =>
    -- an unknown service or method ends the program
    match request.handler, request.info with
    | .dispatched serviceName methodName (some service), some info =>
      rn.invoke i request info.server serviceName methodName service
    | _, _ => none
  | .finish reply =>
    match request.handler with
    | .running => some (rn.setRequest i { request with handler := .finished reply })
    | _ => none
  | .receive =>
    match request.progress, request.handler with
    | .waiting, .finished reply =>
      some (rn.setRequest i { request with progress := .stopped (some reply), handler := .received reply })
    | _, _ => none
  | .tick =>
    match request.progress, request.info with
    | .waiting, some info =>
      if rn.isServerDead request.endname info then some (rn.setRequest i { request with progress := .stopped none })
      else some rn
    | _, _ => none
  | .lastCheck =>
    match request.progress, request.info with
    | .stopped (some reply), some info =>
      if rn.isServerDead request.endname info then some (rn.setRequest i { request with progress := .returned none })
      else some (rn.setRequest i { request with progress := .checked reply })
    | .stopped none, _ => some (rn.setRequest i { request with progress := .returned none })
    | _, _ => none
  | .dropReply =>
    match request.progress, request.info with
    | .checked _, some info =>
      if info.reliable then none else some (rn.setRequest i { request with progress := .returned none })
    | _, _ => none
  | .delay =>
    match request.progress, request.info with
    | .checked reply, some info =>
      if info.longReordering then some (rn.setRequest i { request with progress := .delayed reply }) else none
    | _, _ => none
  | .answer =>
    match request.progress with
    | .checked reply | .delayed reply =>
      let answered := rn.setRequest i { request with progress := .replying reply }
      some { answered with bytes := rn.bytes + Int64.ofNat reply.length }
    | _ => none
  | .deliver =>
    match request.progress with
    | .replying reply => some (rn.setRequest i { request with progress := .returned (some reply) })
    | _ => none

def step (rn : Network E N) : Event E N → Option (Network E N)
  | .setReliable yes => some { rn with reliable := yes }
  | .setLongReordering yes => some { rn with longReordering := yes }
  | .setLongDelays yes => some { rn with longDelays := yes }
  | .makeEnd endname =>
    -- an end of the same name ends the program
    if rn.ends endname then none
    else some { rn with
      ends := Function.update rn.ends endname true
      enabled := Function.update rn.enabled endname false
      connections := Function.update rn.connections endname none }
  | .makeServer => some { rn with heap := rn.heap ++ [Labrpc.makeServer] }
  | .addService server svc =>
    (rn.heap[server]?).map fun rs =>
      { rn with heap := rn.heap.set server { rs with services := Function.update rs.services svc.name (some svc) } }
  | .addServer servername server =>
    if server < rn.heap.length then some { rn with servers := Function.update rn.servers servername (some server) }
    else none
  | .deleteServer servername => some { rn with servers := Function.update rn.servers servername none }
  | .connect endname servername =>
    some { rn with connections := Function.update rn.connections endname (some servername) }
  | .enable endname enabled => some { rn with enabled := Function.update rn.enabled endname enabled }
  | .cleanup => if rn.done then none else some { rn with done := true }
  | .stopListening => if rn.done ∧ rn.listener = .idle then some { rn with listener := .stopped } else none
  | .call endname svcMeth args =>
    if rn.ends endname then
      some { rn with requests := rn.requests ++ [⟨endname, svcMeth, args, none, .sending, .absent⟩] }
    else none
  | .act i act => (rn.requests[i]?).bind fun request => rn.requestStep i request act

def after (events : List (Event E N)) : Option (Network E N) :=
  exec step makeNetwork events

def getCount (servername : N) : Option Nat := do
  let server ← rn.servers servername
  let rs ← rn.heap[server]?
  some rs.count

def getTotalCount : Int := rn.count.toInt

def getTotalBytes : Int := rn.bytes.toInt

end Network

end DistSys.Labrpc
