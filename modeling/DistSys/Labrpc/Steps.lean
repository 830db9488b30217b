import DistSys.Labrpc.Network
import Mathlib.Algebra.GroupWithZero.Nat

namespace DistSys.Labrpc

variable {E N : Type}

/-- Writing what is there changes nothing. -/
theorem set_of_getElem? {α : Type} {l : List α} {i : Nat} {x : α} (here : l[i]? = some x) : l.set i x = l := by
  obtain ⟨within, is⟩ := List.getElem?_eq_some_iff.mp here
  rw [← is, List.set_getElem_self]

theorem sum_set_add {α : Type} {l : List α} {i : Nat} {x : α} (here : l[i]? = some x) (y : α) (f : α → Nat) :
    ((l.set i y).map f).sum + f x = (l.map f).sum + f y := by
  induction l generalizing i with
  | nil => simp at here
  | cons a l ih =>
    cases i with
    | zero =>
      simp only [List.getElem?_cons_zero, Option.some.injEq] at here
      subst here
      simp only [List.set_cons_zero, List.map_cons, List.sum_cons]
      omega
    | succ i =>
      have rest := ih (i := i) here
      simp only [List.set_cons_succ, List.map_cons, List.sum_cons]
      omega

theorem countP_set_add {α : Type} {l : List α} {i : Nat} {x : α} (here : l[i]? = some x) (y : α) (p : α → Bool) :
    (l.set i y).countP p + (p x).toNat = l.countP p + (p y).toNat := by
  have count : ∀ l : List α, l.countP p = (l.map fun a => (p a).toNat).sum := by
    intro l
    induction l with
    | nil => rfl
    | cons a l ih =>
      rw [List.countP_cons, ih, List.map_cons, List.sum_cons]
      cases p a <;> simp [Nat.add_comm]
  rw [count, count]
  exact sum_set_add here y fun a => (p a).toNat

/-- What a step of a call does to the call itself. -/
inductive Moves (rn : Network E N) (r : Request E N) : Act → Request E N → Prop
  | abandon : r.progress = .sending → rn.done = true → Moves rn r .abandon { r with progress := .abandoned }
  | accept : r.progress = .sending → Moves rn r .accept { r with progress := .taken }
  | count : Moves rn r .count r
  | start : r.progress = .taken → Moves rn r .start { r with progress := .accepted }
  | locate {info} : r.progress = .accepted → rn.readEndnameInfo r.endname = some info →
      Moves rn r .read { r with info := some info, progress := .located }
  | refuse : r.progress = .accepted → rn.readEndnameInfo r.endname = none →
      Moves rn r .read { r with progress := .refused }
  | expire : r.progress = .refused → Moves rn r .refuse { r with progress := .returned none }
  | dropRequest {info} : r.progress = .located → r.info = some info → info.reliable = false →
      Moves rn r .dropRequest { r with progress := .returned none }
  | spawn : r.progress = .located → Moves rn r .spawn { r with progress := .waiting, handler := .spawned }
  | dispatch {service method found} : r.handler = .spawned →
      Moves rn r .dispatch { r with handler := .dispatched service method found }
  | invoke {service method found} : r.handler = .dispatched service method found →
      Moves rn r .invoke { r with handler := .running }
  | finish {reply} : r.handler = .running → Moves rn r (.finish reply) { r with handler := .finished reply }
  | receive {reply} : r.progress = .waiting → r.handler = .finished reply →
      Moves rn r .receive { r with progress := .stopped (some reply), handler := .received reply }
  | wait : Moves rn r .tick r
  | kill {info} : r.progress = .waiting → r.info = some info → rn.isServerDead r.endname info = true →
      Moves rn r .tick { r with progress := .stopped none }
  | fail {info reply} : r.progress = .stopped (some reply) → r.info = some info →
      rn.isServerDead r.endname info = true → Moves rn r .lastCheck { r with progress := .returned none }
  | pass {info reply} : r.progress = .stopped (some reply) → r.info = some info →
      rn.isServerDead r.endname info = false → Moves rn r .lastCheck { r with progress := .checked reply }
  | lose : r.progress = .stopped none → Moves rn r .lastCheck { r with progress := .returned none }
  | dropReply {info reply} : r.progress = .checked reply → r.info = some info → info.reliable = false →
      Moves rn r .dropReply { r with progress := .returned none }
  | delay {reply} : r.progress = .checked reply → Moves rn r .delay { r with progress := .delayed reply }
  | answer {reply} : r.progress = .checked reply ∨ r.progress = .delayed reply →
      Moves rn r .answer { r with progress := .replying reply }
  | deliver {reply} : r.progress = .replying reply → Moves rn r .deliver { r with progress := .returned (some reply) }

/-- The goroutine of the handler is on its way. -/
def Handler.busy : Handler → Bool
  | .spawned | .dispatched _ _ _ | .running | .finished _ => true
  | _ => false

/-- What the handler has returned. -/
def Handler.output : Handler → Option GoString
  | .finished reply | .received reply => some reply
  | _ => none

/-- Which goroutine a call has at each place of `processReq`. -/
def Request.Consistent (r : Request E N) : Prop :=
  match r.progress with
  | .sending | .abandoned | .taken | .accepted | .refused => r.handler = .absent ∧ r.info = none
  | .located => r.handler = .absent ∧ r.info.isSome
  | .waiting | .stopped none => r.handler.busy ∧ r.info.isSome
  | .stopped (some reply) | .checked reply | .delayed reply | .replying reply | .returned (some reply) =>
    r.handler = .received reply ∧ r.info.isSome
  | .returned none => True

/-- The goroutine of the handler goes on by itself. -/
theorem Request.Consistent.of_busy {r : Request E N} {handler : Handler} (old : r.Consistent)
    (before : r.handler.busy) (now : handler.busy) : { r with handler := handler }.Consistent := by
  obtain ⟨endname, svcMeth, args, info, progress, goroutine⟩ := r
  simp only [Request.Consistent] at *
  split at old <;> simp_all [Handler.busy]

theorem Moves.consistent {rn : Network E N} {r r' : Request E N} {act : Act} (moves : Moves rn r act r')
    (old : r.Consistent) : r'.Consistent := by
  cases moves with
  | dispatch spawned => exact old.of_busy (by rw [spawned]; rfl) rfl
  | invoke dispatched => exact old.of_busy (by rw [dispatched]; rfl) rfl
  | finish running => exact old.of_busy (by rw [running]; rfl) rfl
  | count | wait => exact old
  | answer passed => cases passed <;> simp_all [Request.Consistent]
  | _ => simp_all [Request.Consistent, Handler.busy]

/-- The network goroutine has received the request. -/
def Request.sent (r : Request E N) : Bool :=
  match r.progress with
  | .sending | .abandoned => false
  | _ => true

/-- The bytes that a call has sent: its arguments, and its reply unless that is lost. -/
def Request.traffic (r : Request E N) : Nat :=
  match r.progress with
  | .sending | .abandoned | .taken => 0
  | .replying reply | .returned (some reply) => r.args.length + reply.length
  | _ => r.args.length

/-- The handler has been called. -/
def Request.called (r : Request E N) : Bool :=
  match r.handler with
  | .absent | .spawned | .dispatched _ _ _ => false
  | _ => true

/-- The call is counted at the server `s`, and its handler is still to be called. -/
def Request.entering (s : Nat) (r : Request E N) : Bool :=
  match r.handler with
  | .dispatched _ _ _ => r.info.any (·.server == s)
  | _ => false

/-- A request that has been received and is not counted yet. -/
def Listener.uncounted : Listener → Nat
  | .received _ => 1
  | _ => 0

/-- What a step lets the handler return. -/
def Act.output : Act → Option GoString
  | .finish reply => some reply
  | _ => none

/-- The parts of the network that only the tests change. -/
structure SameNet (rn rn' : Network E N) : Prop where
  reliable : rn'.reliable = rn.reliable
  enabled : rn'.enabled = rn.enabled
  servers : rn'.servers = rn.servers
  connections : rn'.connections = rn.connections
  done : rn'.done = rn.done

namespace Network

variable {rn rn' : Network E N} {i : Nat} {r : Request E N} {act : Act}

/-- What a step of a call does to the statistics: requests that are received are counted a
step later, bytes at once. -/
structure Tallies (rn rn' : Network E N) (r r' : Request E N) : Prop where
  count : (rn'.count = rn.count ∧
      rn'.listener.uncounted + r.sent.toNat = rn.listener.uncounted + r'.sent.toNat) ∨
    (rn'.count = rn.count + 1 ∧ rn.listener.uncounted = 1 ∧ rn'.listener.uncounted = 0 ∧ r'.sent = r.sent)
  bytes : ∃ more, rn'.bytes = rn.bytes + Int64.ofNat more ∧ r'.traffic = r.traffic + more

theorem Tallies.quiet {r' : Request E N} (count : rn'.count = rn.count) (listener : rn'.listener = rn.listener)
    (bytes : rn'.bytes = rn.bytes) (sent : r'.sent = r.sent) (traffic : r'.traffic = r.traffic) :
    Tallies rn rn' r r' where
  count := Or.inl ⟨count, by rw [listener, sent]⟩
  bytes := ⟨0, by rw [bytes]; exact (Int64.add_zero _).symm, traffic⟩

/-- What a step of a call does to the servers. One of them counts the call, another calls
the handler. -/
inductive Serves (rn rn' : Network E N) (i : Nat) (r r' : Request E N) : Prop
  | other : rn'.executed = rn.executed → rn'.heap = rn.heap → r'.called = r.called →
      (∀ s, r'.entering s = r.entering s) →
      (∀ service method found, r'.handler = .dispatched service method found →
        r.handler = .dispatched service method found) → Serves rn rn' i r r'
  | dispatch {info rs service method found} : r.handler = .spawned → r.info = some info →
      splitMethod r.svcMeth = some (service, method) → rn.heap[info.server]? = some rs →
      r' = { r with handler := .dispatched service method found } → rn'.executed = rn.executed →
      rn'.heap = rn.heap.set info.server { rs with count := rs.count + 1 } → Serves rn rn' i r r'
  | invoke {info service method found} : r.handler = .dispatched service method found → r.info = some info →
      r' = { r with handler := .running } →
      rn'.executed = rn.executed ++ [⟨i, info.server, service, method, r.args⟩] → rn'.heap = rn.heap →
      Serves rn rn' i r r'

theorem Serves.same {r' : Request E N} (executed : rn'.executed = rn.executed) (heap : rn'.heap = rn.heap)
    (handler : r'.handler = r.handler) (info : r'.info = r.info) : Serves rn rn' i r r' :=
  .other executed heap (by rw [Request.called, Request.called, handler])
    (fun s => by rw [Request.entering, Request.entering, handler, info]) fun _ _ _ is => handler ▸ is

/-- What a step of a call does. -/
structure Acted (rn rn' : Network E N) (i : Nat) (act : Act) (r r' : Request E N) : Prop where
  moves : Moves rn r act r'
  requests : rn'.requests = rn.requests.set i r'
  net : SameNet rn rn'
  tallies : Tallies rn rn' r r'
  outputs : (act.output = none ∧ r'.handler.output = r.handler.output) ∨
    ∃ reply, act.output = some reply ∧ r.handler.output = none ∧ r'.handler.output = some reply
  serves : Serves rn rn' i r r'

/-- A step that concerns only the place of the call in `Call` and `processReq`. -/
theorem acted_progress {progress : Progress} (moves : Moves rn r act { r with progress := progress })
    (silent : act.output = none) (sent : { r with progress := progress }.sent = r.sent)
    (traffic : { r with progress := progress }.traffic = r.traffic) :
    Acted rn (rn.setRequest i { r with progress := progress }) i act r { r with progress := progress } where
  moves := moves
  requests := rfl
  net := ⟨rfl, rfl, rfl, rfl, rfl⟩
  tallies := .quiet rfl rfl rfl sent traffic
  outputs := Or.inl ⟨silent, rfl⟩
  serves := .same rfl rfl rfl rfl

theorem entering_eq_false (elsewhere : ∀ service method found, r.handler ≠ .dispatched service method found)
    (s : Nat) : r.entering s = false := by
  unfold Request.entering
  split
  next service method found is => exact absurd is (elsewhere service method found)
  next => rfl

/-- A step of the goroutine of the handler that no server notices. -/
theorem acted_handler {progress : Progress} {handler : Handler}
    (moves : Moves rn r act { r with progress := progress, handler := handler })
    (sent : { r with progress := progress, handler := handler }.sent = r.sent)
    (traffic : { r with progress := progress, handler := handler }.traffic = r.traffic)
    (outputs : (act.output = none ∧ handler.output = r.handler.output) ∨
      ∃ reply, act.output = some reply ∧ r.handler.output = none ∧ handler.output = some reply)
    (called : { r with progress := progress, handler := handler }.called = r.called)
    (before : ∀ service method found, r.handler ≠ .dispatched service method found)
    (after : ∀ service method found, handler ≠ .dispatched service method found) :
    Acted rn (rn.setRequest i { r with progress := progress, handler := handler }) i act r
      { r with progress := progress, handler := handler } where
  moves := moves
  requests := rfl
  net := ⟨rfl, rfl, rfl, rfl, rfl⟩
  tallies := .quiet rfl rfl rfl sent traffic
  outputs := outputs
  serves := by
    refine .other rfl rfl called (fun s => ?_) fun service method found is => absurd is (after service method found)
    rw [entering_eq_false before, entering_eq_false after]

theorem acted_dispatch {info : Info N} (spawned : r.handler = .spawned) (found : r.info = some info)
    (step : rn.dispatch i r info.server = some rn') : ∃ r', Acted rn rn' i .dispatch r r' := by
  simp only [dispatch, Option.bind_eq_bind, Option.bind_eq_some_iff] at step
  obtain ⟨rs, here, ⟨service, method⟩, split, step⟩ := step
  cases step
  have outputs : r.handler.output = none := by rw [spawned]; rfl
  exact ⟨_, .dispatch spawned, rfl, ⟨rfl, rfl, rfl, rfl, rfl⟩, .quiet rfl rfl rfl rfl rfl,
    Or.inl ⟨rfl, outputs.symm⟩, .dispatch spawned found split here rfl rfl rfl⟩

theorem acted_invoke {info : Info N} {serviceName methodName : GoString} {service : Service}
    (dispatched : r.handler = .dispatched serviceName methodName (some service)) (found : r.info = some info)
    (step : rn.invoke i r info.server serviceName methodName service = some rn') :
    ∃ r', Acted rn rn' i .invoke r r' := by
  simp only [invoke] at step
  split at step
  next =>
    cases step
    have outputs : r.handler.output = none := by rw [dispatched]; rfl
    exact ⟨_, .invoke dispatched, rfl, ⟨rfl, rfl, rfl, rfl, rfl⟩, .quiet rfl rfl rfl rfl rfl,
      Or.inl ⟨rfl, outputs.symm⟩, .invoke dispatched found rfl rfl rfl⟩
  next => cases step

theorem acted_of_requestStep (consistent : r.Consistent) (here : rn.requests[i]? = some r)
    (step : rn.requestStep i r act = some rn') : ∃ r', Acted rn rn' i act r r' := by
  cases act with
  | abandon =>
    simp only [requestStep] at step
    split at step
    next is =>
      split at step
      next done =>
        cases step
        exact ⟨_, acted_progress (.abandon is done) rfl (by simp [Request.sent, is]) (by simp [Request.traffic, is])⟩
      next => cases step
    next => cases step
  | accept =>
    simp only [requestStep] at step
    split at step
    next is =>
      split at step
      next idle =>
        cases step
        refine ⟨_, .accept is, rfl, ⟨rfl, rfl, rfl, rfl, rfl⟩, ⟨Or.inl ⟨rfl, ?_⟩, 0, ?_, ?_⟩, Or.inl ⟨rfl, rfl⟩,
          .same rfl rfl rfl rfl⟩
        · simp [Request.sent, is, idle, Listener.uncounted]
        · exact (Int64.add_zero _).symm
        · simp [Request.traffic, is]
      next => cases step
    next => cases step
  | count =>
    simp only [requestStep] at step
    split at step
    next received =>
      cases step
      refine ⟨r, .count, (set_of_getElem? here).symm, ⟨rfl, rfl, rfl, rfl, rfl⟩,
        ⟨Or.inr ⟨rfl, ?_, rfl, rfl⟩, 0, ?_, rfl⟩,
        Or.inl ⟨rfl, rfl⟩, .same rfl rfl rfl rfl⟩
      · rw [received]
        rfl
      · exact (Int64.add_zero _).symm
    next => cases step
  | start =>
    simp only [requestStep] at step
    split at step
    next is =>
      split at step
      next counted =>
        cases step
        refine ⟨_, .start is, rfl, ⟨rfl, rfl, rfl, rfl, rfl⟩, ⟨Or.inl ⟨rfl, ?_⟩, _, rfl, ?_⟩, Or.inl ⟨rfl, rfl⟩,
          .same rfl rfl rfl rfl⟩
        · simp [Request.sent, is, counted, Listener.uncounted]
        · simp [Request.traffic, is]
      next => cases step
    next => cases step
  | read =>
    simp only [requestStep] at step
    split at step
    next is =>
      split at step
      next info found =>
        cases step
        have absent : r.handler = .absent := by
          simp only [Request.Consistent, is] at consistent
          exact consistent.1
        refine ⟨_, .locate is found, rfl, ⟨rfl, rfl, rfl, rfl, rfl⟩, .quiet rfl rfl rfl ?_ ?_, Or.inl ⟨rfl, rfl⟩,
          .other rfl rfl rfl (fun s => ?_) fun _ _ _ is => is⟩
        · simp [Request.sent, is]
        · simp [Request.traffic, is]
        · simp [Request.entering, absent]
      next missing =>
        cases step
        exact ⟨_, acted_progress (.refuse is missing) rfl (by simp [Request.sent, is])
          (by simp [Request.traffic, is])⟩
    next => cases step
  | refuse =>
    simp only [requestStep] at step
    split at step
    next is =>
      cases step
      exact ⟨_, acted_progress (.expire is) rfl (by simp [Request.sent, is]) (by simp [Request.traffic, is])⟩
    next => cases step
  | dropRequest =>
    simp only [requestStep] at step
    split at step
    next info is found =>
      split at step
      next => cases step
      next unreliable =>
        cases step
        exact ⟨_, acted_progress (.dropRequest is found (by simpa using unreliable)) rfl (by simp [Request.sent, is])
          (by simp [Request.traffic, is])⟩
    next => cases step
  | spawn =>
    simp only [requestStep] at step
    split at step
    next is =>
      cases step
      have absent : r.handler = .absent := by
        simp only [Request.Consistent, is] at consistent
        exact consistent.1
      exact ⟨_, acted_handler (.spawn is) (by simp [Request.sent, is]) (by simp [Request.traffic, is])
        (Or.inl ⟨rfl, by rw [absent]; rfl⟩) (by simp [Request.called, absent]) (by simp [absent]) (by simp)⟩
    next => cases step
  | dispatch =>
    simp only [requestStep] at step
    split at step
    next info spawned found => exact acted_dispatch spawned found step
    next => cases step
  | invoke =>
    simp only [requestStep] at step
    split at step
    next dispatched found => exact acted_invoke dispatched found step
    next => cases step
  | finish reply =>
    simp only [requestStep] at step
    split at step
    next is =>
      cases step
      exact ⟨_, acted_handler (.finish is) rfl rfl (Or.inr ⟨reply, rfl, by rw [is]; rfl, rfl⟩)
        (by simp [Request.called, is]) (by simp [is]) (by simp)⟩
    next => cases step
  | receive =>
    simp only [requestStep] at step
    split at step
    next reply is finished =>
      cases step
      exact ⟨_, acted_handler (.receive is finished) (by simp [Request.sent, is]) (by simp [Request.traffic, is])
        (Or.inl ⟨rfl, by rw [finished]; rfl⟩) (by simp [Request.called, finished]) (by simp [finished]) (by simp)⟩
    next => cases step
  | tick =>
    simp only [requestStep] at step
    split at step
    next info is found =>
      split at step
      next dead =>
        cases step
        exact ⟨_, acted_progress (.kill is found dead) rfl (by simp [Request.sent, is])
          (by simp [Request.traffic, is])⟩
      next =>
        cases step
        exact ⟨r, .wait, (set_of_getElem? here).symm, ⟨rfl, rfl, rfl, rfl, rfl⟩, .quiet rfl rfl rfl rfl rfl,
          Or.inl ⟨rfl, rfl⟩, .same rfl rfl rfl rfl⟩
    next => cases step
  | lastCheck =>
    simp only [requestStep] at step
    split at step
    next reply info is found =>
      split at step
      next dead =>
        cases step
        exact ⟨_, acted_progress (.fail is found dead) rfl (by simp [Request.sent, is])
          (by simp [Request.traffic, is])⟩
      next alive =>
        cases step
        exact ⟨_, acted_progress (.pass is found (by simpa using alive)) rfl (by simp [Request.sent, is])
          (by simp [Request.traffic, is])⟩
    next is =>
      cases step
      exact ⟨_, acted_progress (.lose is) rfl (by simp [Request.sent, is]) (by simp [Request.traffic, is])⟩
    next => cases step
  | dropReply =>
    simp only [requestStep] at step
    split at step
    next reply info is found =>
      split at step
      next => cases step
      next unreliable =>
        cases step
        exact ⟨_, acted_progress (.dropReply is found (by simpa using unreliable)) rfl (by simp [Request.sent, is])
          (by simp [Request.traffic, is])⟩
    next => cases step
  | delay =>
    simp only [requestStep] at step
    split at step
    next reply info is found =>
      split at step
      next =>
        cases step
        exact ⟨_, acted_progress (.delay is) rfl (by simp [Request.sent, is]) (by simp [Request.traffic, is])⟩
      next => cases step
    next => cases step
  | answer =>
    have answered {reply : GoString} (passed : r.progress = .checked reply ∨ r.progress = .delayed reply) :
        Acted rn { rn.setRequest i { r with progress := .replying reply } with
          bytes := rn.bytes + Int64.ofNat reply.length } i .answer r { r with progress := .replying reply } := by
      refine ⟨.answer passed, rfl, ⟨rfl, rfl, rfl, rfl, rfl⟩, ⟨Or.inl ⟨rfl, ?_⟩, _, rfl, ?_⟩, Or.inl ⟨rfl, rfl⟩,
        .same rfl rfl rfl rfl⟩
      · rcases passed with is | is <;> simp [Request.sent, is, setRequest]
      · rcases passed with is | is <;> simp [Request.traffic, is]
    simp only [requestStep] at step
    split at step
    next reply is =>
      cases step
      exact ⟨_, answered (Or.inl is)⟩
    next reply is =>
      cases step
      exact ⟨_, answered (Or.inr is)⟩
    next => cases step
  | deliver =>
    simp only [requestStep] at step
    split at step
    next reply is =>
      cases step
      exact ⟨_, acted_progress (.deliver is) rfl (by simp [Request.sent, is]) (by simp [Request.traffic, is])⟩
    next => cases step

/-- What the tests do between the steps of the calls. -/
structure Arranged (rn rn' : Network E N) (event : Event E N) : Prop where
  requests : rn'.requests = rn.requests
  executed : rn'.executed = rn.executed
  count : rn'.count = rn.count
  bytes : rn'.bytes = rn.bytes
  uncounted : rn'.listener.uncounted = rn.listener.uncounted
  heap : rn'.heap.map (·.count) = rn.heap.map (·.count) ∨ rn'.heap.map (·.count) = rn.heap.map (·.count) ++ [0]
  servers : ∀ name server, rn'.servers name = some server →
    rn.servers name = some server ∨ (event = .addServer name server ∧ server < rn.heap.length)

/-- A new call. -/
def newRequest (endname : E) (svcMeth args : GoString) : Request E N :=
  ⟨endname, svcMeth, args, none, .sending, .absent⟩

variable [DecidableEq E] [DecidableEq N] {event : Event E N}

theorem step_cases (consistent : ∀ (i : Nat) (r : Request E N), rn.requests[i]? = some r → r.Consistent)
    (next : step rn event = some rn') :
    (∃ i act r r', event = .act i act ∧ rn.requests[i]? = some r ∧ Acted rn rn' i act r r') ∨
    (∃ endname svcMeth args, event = .call endname svcMeth args ∧
      rn' = { rn with requests := rn.requests ++ [newRequest endname svcMeth args] }) ∨
    ((∀ i act, event ≠ .act i act) ∧ Arranged rn rn' event) := by
  cases event with
  | act i act =>
    obtain ⟨r, here, acts⟩ := Option.bind_eq_some_iff.mp next
    obtain ⟨r', acted⟩ := acted_of_requestStep (consistent i r here) here acts
    exact Or.inl ⟨i, act, r, r', rfl, here, acted⟩
  | call endname svcMeth args =>
    simp only [step] at next
    split at next
    next =>
      cases next
      exact Or.inr (Or.inl ⟨endname, svcMeth, args, rfl, rfl⟩)
    next => cases next
  | makeEnd endname =>
    simp only [step] at next
    split at next
    next => cases next
    next =>
      cases next
      exact Or.inr (Or.inr ⟨by simp, rfl, rfl, rfl, rfl, rfl, Or.inl rfl, fun _ _ there => Or.inl there⟩)
  | makeServer =>
    cases next
    exact Or.inr (Or.inr ⟨by simp, rfl, rfl, rfl, rfl, rfl, Or.inr (by simp [Labrpc.makeServer]),
      fun _ _ there => Or.inl there⟩)
  | addService server svc =>
    obtain ⟨rs, here, rfl⟩ := Option.map_eq_some_iff.mp next
    refine Or.inr (Or.inr ⟨by simp, rfl, rfl, rfl, rfl, rfl, Or.inl ?_, fun _ _ there => Or.inl there⟩)
    rw [List.map_set]
    exact set_of_getElem? (by rw [List.getElem?_map, here]; rfl)
  | addServer name server =>
    simp only [step] at next
    split at next
    next known =>
      cases next
      refine Or.inr (Or.inr ⟨by simp, rfl, rfl, rfl, rfl, rfl, Or.inl rfl, fun name' server' there => ?_⟩)
      simp only [Function.update_apply] at there
      split at there
      next same =>
        cases there
        exact Or.inr ⟨by rw [same], known⟩
      next => exact Or.inl there
    next => cases next
  | deleteServer name =>
    cases next
    refine Or.inr (Or.inr ⟨by simp, rfl, rfl, rfl, rfl, rfl, Or.inl rfl, fun name' server' there => ?_⟩)
    simp only [Function.update_apply] at there
    split at there
    next => cases there
    next => exact Or.inl there
  | cleanup =>
    simp only [step] at next
    split at next
    next => cases next
    next =>
      cases next
      exact Or.inr (Or.inr ⟨by simp, rfl, rfl, rfl, rfl, rfl, Or.inl rfl, fun _ _ there => Or.inl there⟩)
  | stopListening =>
    simp only [step] at next
    split at next
    next done =>
      cases next
      have same : (Listener.stopped).uncounted = rn.listener.uncounted := by rw [done.2]; rfl
      exact Or.inr (Or.inr ⟨by simp, rfl, rfl, rfl, rfl, same, Or.inl rfl, fun _ _ there => Or.inl there⟩)
    next => cases next
  | _ =>
    cases next
    exact Or.inr (Or.inr ⟨by simp, rfl, rfl, rfl, rfl, rfl, Or.inl rfl, fun _ _ there => Or.inl there⟩)

end Network

end DistSys.Labrpc
