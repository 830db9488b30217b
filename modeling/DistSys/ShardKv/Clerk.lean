import DistSys.ShardKv.Once

namespace DistSys.ShardKv

/-- A client. `pending` is the request of the call under way; its identifiers
are set once, and every retry sends the same request. -/
structure Clerk where
  commandId : Int
  pending : Option CommandRequest

def makeClerk : Clerk := ⟨0, none⟩

/-- The groups together with all clients, by their ids. -/
structure Clients where
  world : World
  clerk : Int → Clerk

namespace Clients

variable (c : Clients)

def initial : Clients := ⟨World.initial, fun _ => makeClerk⟩

/-- A client starts a call, sends its request once more to some server, or gets
an answer to it; or the groups take a step of their own. -/
inductive Action
  | call (clientId : Int) (key value : GoString) (op : OperationOp)
  | send (clientId : Int)
  | receive (clientId : Int) (response : Nat)
  | serve (a : ShardKv.Action)

def setClerk (clientId : Int) (clerk : Clerk) : Clients :=
  { c with clerk := Function.update c.clerk clientId clerk }

/-- `Command` sets the identifiers. A client makes one call at a time. -/
def call (clientId : Int) (key value : GoString) (op : OperationOp) : Option Clients :=
  match (c.clerk clientId).pending with
  | some _ => none
  | none => some (c.setClerk clientId { c.clerk clientId with
      pending := some ⟨key, value, op, clientId, (c.clerk clientId).commandId⟩ })

def send (clientId : Int) : Option Clients :=
  match (c.clerk clientId).pending with
  | some request => some { c with world :=
      { c.world with requests := c.world.requests ++ [request] } }
  | none => none

/-- Only OK and ErrNoKey end a call. -/
def receive (clientId : Int) (i : Nat) : Option Clients :=
  match (c.clerk clientId).pending, c.world.responses[i]? with
  | some request, some (answered, response) =>
    if answered = request ∧ (response.err = .ok ∨ response.err = .noKey) then
      some (c.setClerk clientId ⟨(c.clerk clientId).commandId + 1, none⟩)
    else none
  | _, _ => none

def step (setting : Setting) (c : Clients) : Action → Option Clients
  | .call clientId key value op => c.call clientId key value op
  | .send clientId => c.send clientId
  | .receive clientId i => c.receive clientId i
  | .serve (.submit _) => none
  | .serve a => (c.world.step setting a).map fun world => { c with world := world }

def after (setting : Setting) (as : List Action) : Option Clients :=
  exec (step setting) initial as

def final (setting : Setting) (as : List Action) (runs : (after setting as).isSome = true) : Clients :=
  (after setting as).get runs

theorem after_final (setting : Setting) (as : List Action)
    (runs : (after setting as).isSome = true) : after setting as = some (final setting as runs) :=
  (Option.some_get runs).symm

end Clients

namespace Clients

variable {c c' : Clients} {setting : Setting} {as : List Action} {clientId : Int}
variable {request : CommandRequest}

theorem serve_cases {a : ShardKv.Action} (next : c.step setting (.serve a) = some c') :
    (∀ request, a ≠ .submit request) ∧
      ∃ world, c.world.step setting a = some world ∧ c' = { c with world := world } := by
  cases a with
  | submit => cases next
  | emptyEntry g =>
    cases next
    exact ⟨fun _ is => by (cases is), _, rfl, rfl⟩
  | _ =>
    obtain ⟨world, stepped, rfl⟩ := Option.map_eq_some_iff.mp next
    exact ⟨fun _ is => by (cases is), world, stepped, rfl⟩

/-- Every request that was sent belongs to an earlier call of its client, or to
the call under way. -/
structure Disciplined (c : Clients) : Prop where
  pending : ∀ {clientId request}, (c.clerk clientId).pending = some request →
    request.clientId = clientId ∧ request.commandId = (c.clerk clientId).commandId
  sent : ∀ request ∈ c.world.requests,
    request.commandId < (c.clerk request.clientId).commandId ∨
      (c.clerk request.clientId).pending = some request
  identified : Identified c.world.requests

theorem disciplined_initial : Disciplined initial where
  pending waits := by cases waits
  sent _ member := by cases member
  identified _ member := by cases member

theorem Disciplined.call {key value : GoString} {op : OperationOp} (disciplined : Disciplined c)
    (next : c.call clientId key value op = some c') : Disciplined c' := by
  unfold Clients.call at next
  split at next
  next => cases next
  next idle =>
    cases next
    refine ⟨fun {other request} waits => ?_, fun request member => ?_, disciplined.identified⟩
    · by_cases same : other = clientId
      · subst same
        simp only [setClerk, Function.update_self, Option.some.injEq] at waits ⊢
        subst waits
        exact ⟨rfl, rfl⟩
      · simp only [setClerk, Function.update_of_ne same] at waits ⊢
        exact disciplined.pending waits
    · have old := disciplined.sent request member
      by_cases same : request.clientId = clientId
      · rw [same] at old ⊢
        rw [idle] at old
        simp only [setClerk, Function.update_self]
        exact Or.inl (old.resolve_right (by simp))
      · simp only [setClerk, Function.update_of_ne same]
        exact old

/-- A request that is sent again is the one that was sent before. -/
theorem Disciplined.send (disciplined : Disciplined c) (next : c.send clientId = some c') :
    Disciplined c' := by
  unfold Clients.send at next
  split at next
  next request waits =>
    cases next
    obtain ⟨client, id⟩ := disciplined.pending waits
    have same (other : CommandRequest) (member : other ∈ c.world.requests)
        (client' : other.clientId = request.clientId)
        (id' : other.commandId = request.commandId) : other = request := by
      rcases disciplined.sent other member with before | now
      · rw [client', client] at before
        omega
      · rw [client', client, waits] at now
        exact (Option.some.inj now).symm
    refine ⟨disciplined.pending, fun other member => ?_, fun first inFirst second inSecond => ?_⟩
    · rcases List.mem_append.mp member with old | new
      · exact disciplined.sent other old
      · rw [List.mem_singleton.mp new, client]
        exact Or.inr waits
    · intro client' id'
      rcases List.mem_append.mp inFirst with old | new
      · rcases List.mem_append.mp inSecond with old' | new'
        · exact disciplined.identified first old second old' client' id'
        · rw [List.mem_singleton.mp new'] at client' id' ⊢
          exact same first old client' id'
      · rw [List.mem_singleton.mp new] at client' id' ⊢
        rcases List.mem_append.mp inSecond with old' | new'
        · exact (same second old' client'.symm id'.symm).symm
        · exact (List.mem_singleton.mp new').symm
  next => cases next

theorem Disciplined.receive {i : Nat} (disciplined : Disciplined c)
    (next : c.receive clientId i = some c') : Disciplined c' := by
  unfold Clients.receive at next
  split at next
  next request answered response waits _ =>
    split at next
    next =>
      cases next
      refine ⟨fun {other request} waits => ?_, fun other member => ?_, disciplined.identified⟩
      · by_cases same : other = clientId
        · subst same
          simp only [setClerk, Function.update_self] at waits
          cases waits
        · simp only [setClerk, Function.update_of_ne same] at waits ⊢
          exact disciplined.pending waits
      · have old := disciplined.sent other member
        by_cases same : other.clientId = clientId
        · have now (pending : (c.clerk other.clientId).pending = some other) :
              other.commandId = (c.clerk other.clientId).commandId := (disciplined.pending pending).2
          rw [same] at old now ⊢
          simp only [setClerk, Function.update_self]
          rcases old with before | pending
          · exact Or.inl (by omega)
          · exact Or.inl (by rw [now pending]; omega)
        · simp only [setClerk, Function.update_of_ne same]
          exact old
    next => cases next
  next => cases next

theorem Disciplined.serve {world : World} (disciplined : Disciplined c)
    (same : world.requests = c.world.requests) : Disciplined { c with world := world } where
  pending := disciplined.pending
  sent request member := disciplined.sent request (by rwa [← same])
  identified := by
    rw [same]
    exact disciplined.identified

/-- The groups see some run of their own, in which clients are disciplined. -/
theorem disciplined_after (run : Clients.after setting as = some c) :
    Disciplined c ∧ ∃ bs, World.after setting bs = some c.world := by
  refine exec_invariant (P := fun c => Disciplined c ∧ ∃ bs, World.after setting bs = some c.world)
    ⟨disciplined_initial, [], rfl⟩ ?_ run
  rintro u a v ⟨disciplined, bs, before⟩ next
  cases a with
  | call clientId key value op =>
    refine ⟨disciplined.call next, bs, ?_⟩
    simp only [step, Clients.call] at next
    split at next
    next => cases next
    next => cases next; exact before
  | send clientId =>
    refine ⟨disciplined.send next, ?_⟩
    simp only [step, Clients.send] at next
    split at next
    next request _ => cases next; exact ⟨bs ++ [.submit request], exec_concat before rfl⟩
    next => cases next
  | receive clientId i =>
    refine ⟨disciplined.receive next, bs, ?_⟩
    simp only [step, Clients.receive] at next
    split at next
    next =>
      split at next
      next => cases next; exact before
      next => cases next
    next => cases next
  | serve a =>
    obtain ⟨served, world, stepped, rfl⟩ := serve_cases next
    have same := (World.step_messages stepped).1.resolve_right fun ⟨request, is⟩ => served request is
    exact ⟨disciplined.serve same, bs ++ [a], exec_concat before stepped⟩

/-- Each write of a client is executed at most once in all logs together. -/
theorem executed_at_most_once (controlled : setting.Controlled) (noReturn : setting.NoReturn)
    (run : Clients.after setting as = some c) {g h : Int} {p q : Nat}
    {first second : CommandRequest} (executed : World.ExecutedAt c.world g p first)
    (executed' : World.ExecutedAt c.world h q second) (client : first.clientId = second.clientId)
    (id : first.commandId = second.commandId) : g = h ∧ p = q := by
  obtain ⟨disciplined, bs, before⟩ := disciplined_after run
  exact (World.once_after noReturn controlled.numbered before disciplined.identified).unique
    executed executed' client id

/-- Client 7 sends one Put three times. Group 1 executes the first copy, and commits
the second when the shard has left it. Group 2 has pulled the shard when the third
copy reaches it. -/
def putMoved : List Action :=
  [.serve (.configure 1 0 2), .serve (.commit 1 0), .call 7 [100] [98] .put, .send 7, .send 7, .send 7,
    .serve (.command 0 1 1), .serve (.command 1 1 1), .serve (.commit 1 1), .serve (.configure 1 2 3),
    .serve (.commit 1 3), .serve (.commit 1 2), .serve (.configure 2 0 3), .serve (.commit 2 0),
    .serve (.configure 2 1 3), .serve (.commit 2 1),
    .serve (.migrate 2 2 1 ((List.finRange Shardctrler.NShards).take 5)), .serve (.getShards 0 1 [1] 4),
    .serve (.insert 0), .serve (.commit 2 2), .serve (.command 2 2 3)]

theorem executed_at_most_once_putMoved :
    ((Clients.final World.twoJoins putMoved (by decide)).world.state 2).canServe (key2shard [100]) ∧
      (⟨[100], [98], .put, 7, 0⟩, ⟨.ok, []⟩) ∈
        (Clients.final World.twoJoins putMoved (by decide)).world.responses ∧
      ∀ h q second, World.ExecutedAt (Clients.final World.twoJoins putMoved (by decide)).world h q second →
        second.clientId = 7 → second.commandId = 0 → h = 1 ∧ q = 1 := by
  have first : World.ExecutedAt (Clients.final World.twoJoins putMoved (by decide)).world 1 1
      ⟨[100], [98], .put, 7, 0⟩ := ⟨rfl, by decide, by decide⟩
  exact ⟨by decide, by decide, fun h q second executed client id =>
    executed_at_most_once World.controlled_twoJoins (by decide) (Clients.after_final _ _ _) executed
      first client id⟩

end Clients

end DistSys.ShardKv
