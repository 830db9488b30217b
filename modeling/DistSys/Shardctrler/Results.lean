import DistSys.Shardctrler.World

namespace DistSys.Shardctrler

open Ledger (Answers)

variable {log log' : List Op} {op : Op} {k : Nat}

/-- The state after a log, unless an operation panics on the way. -/
def replay (log : List Op) : Option ShardCtrler :=
  exec (fun sc op => (ShardCtrler.apply sc op).map Prod.fst) startServer log

theorem replay_take_succ (here : log[k]? = some op) :
    replay (log.take (k + 1)) =
      (replay (log.take k)).bind fun sc => (sc.apply op).map Prod.fst := by
  rw [List.take_add_one, here, Option.toList_some, replay, exec_append, replay]
  congr 1
  funext sc
  rw [exec]
  cases (sc.apply op).map Prod.fst <;> rfl

/-- What the applier computes for an operation after some others. -/
def Right (before : List Op) (op : Op) (config : Option Config) : Prop :=
  ∃ sc sc', replay before = some sc ∧ sc.apply op = some (sc', config)

/-- Changes have no configuration to return. -/
theorem apply_config {sc sc' : ShardCtrler} {config : Option Config}
    (applied : sc.apply op = some (sc', config)) (changes : op.request.type ≠ .query) :
    config = none := by
  obtain ⟨request, clientID, requestID⟩ := op
  cases request with
  | query num => exact absurd rfl changes
  | _ =>
    simp only [ShardCtrler.apply] at applied
    split at applied
    next => cases applied; rfl
    next =>
      obtain ⟨configs, _, same⟩ := Option.map_eq_some_iff.mp applied
      cases same
      rfl

theorem apply_fresh {sc sc' : ShardCtrler} {config : Option Config} (changes : op.request.type ≠ .query)
    (fresh : sc.isDuplicate op.clientID op.requestID = false)
    (applied : sc.apply op = some (sc', config)) :
    ∃ configs, change sc.configs op.request = some configs ∧
      sc' = ⟨configs, Function.update sc.lastAppliedReq op.clientID (some op.requestID)⟩ := by
  obtain ⟨request, clientID, requestID⟩ := op
  cases request with
  | query num => exact absurd rfl changes
  | _ =>
    simp only [ShardCtrler.apply] at applied
    rw [if_neg (by rw [fresh]; exact Bool.false_ne_true)] at applied
    obtain ⟨configs, changed, same⟩ := Option.map_eq_some_iff.mp applied
    cases same
    exact ⟨configs, changed, rfl⟩

theorem apply_duplicate {sc sc' : ShardCtrler} {config : Option Config}
    (changes : op.request.type ≠ .query) (duplicate : sc.isDuplicate op.clientID op.requestID = true)
    (applied : sc.apply op = some (sc', config)) : sc' = sc := by
  obtain ⟨request, clientID, requestID⟩ := op
  cases request with
  | query num => exact absurd rfl changes
  | _ =>
    simp only [ShardCtrler.apply] at applied
    rw [if_pos duplicate] at applied
    cases applied
    rfl

/-- A handler may answer an operation so: some result for it is right. -/
def Granted (log : List Op) (op : Op) (config : Option Config) : Prop :=
  ∃ res : ApplyResult, res.isFor op = true ∧ Answers Right log res.op res.config ∧
    reply res op = .ok config

theorem Granted.mono {config : Option Config} (granted : Granted log op config) (grows : log <+: log') :
    Granted log' op config := by
  obtain ⟨res, own, answers, is⟩ := granted
  exact ⟨res, own, answers.mono grows, is⟩

/-- What the handlers compare determines the answer, once it determines the
operation. -/
theorem Granted.answers {config : Option Config} (granted : Granted log op config)
    (unique : ∀ other, other ∈ log → other.clientID = op.clientID → other.requestID = op.requestID →
      other = op) : Answers Right log op config := by
  obtain ⟨res, own, ⟨p, here, right⟩, is⟩ := granted
  rw [reply, if_pos own, Reply.ok.injEq] at is
  simp only [ApplyResult.isFor, Bool.and_eq_true, decide_eq_true_eq] at own
  have same := unique res.op (List.mem_of_getElem? here) own.1.1 own.1.2
  rw [same] at here right
  refine ⟨p, here, ?_⟩
  rw [← is]
  split
  next => exact right
  next changes =>
    obtain ⟨sc, sc', before, applied⟩ := right
    have none := apply_config applied fun reads => by
      cases request : op.request with
      | query num => exact changes num request
      | _ => rw [request] at reads; cases reads
    rw [none] at applied
    exact ⟨sc, sc', before, applied⟩

/-- Calls only get results; they keep their places and operations. -/
def SameCalls {V : Type*} (calls calls' : List (Ledger.Call Op V)) : Prop :=
  ∀ (i : Nat) call, calls[i]? = some call → ∃ call', calls'[i]? = some call' ∧ call'.op = call.op

section
variable {V : Type*} {l : Ledger Op V}

theorem SameCalls.refl (calls : List (Ledger.Call Op V)) : SameCalls calls calls :=
  fun _ call here => ⟨call, here, rfl⟩

theorem sameCalls_ask (l : Ledger Op V) (clientID : Int) (op : Op) :
    SameCalls l.calls (l.ask clientID op).calls := by
  intro i call here
  refine ⟨call, ?_, rfl⟩
  exact (List.getElem?_append_left (List.getElem?_eq_some_iff.mp here).1).trans here

theorem sameCalls_finish {j : Nat} {call : Ledger.Call Op V} (clientID : Int) (value : V)
    (found : l.calls[j]? = some call) :
    SameCalls l.calls (l.finish clientID j call value).calls := by
  intro i other here
  by_cases same : j = i
  · subst same
    cases found.symm.trans here
    exact ⟨_, List.getElem?_set_self (List.getElem?_eq_some_iff.mp found).1, rfl⟩
  · exact ⟨other, (List.getElem?_set_ne same).trans here, rfl⟩

end

namespace Server

variable {calls calls' : List (Ledger.Call Op (Option Config))} {s s' : Server} {i : Nat}
variable {handler old : Handler}

/-- A handler works on the operation of its call. -/
def Handles (calls : List (Ledger.Call Op (Option Config))) (handler : Handler) : Prop :=
  ∃ call, calls[handler.call]? = some call ∧ call.op = handler.op

/-- A server has the state of a prefix of the common log, and the results in its
channels are right at some place in the log. -/
structure Sound (log : List Op) (calls : List (Ledger.Call Op (Option Config))) (s : Server) : Prop where
  applied : s.applied ≤ log.length
  state : replay (log.take s.applied) = some s.sc
  channels : ∀ {index res}, s.notify index = some (some res) → Answers Right log res.op res.config
  handlers : ∀ handler ∈ s.handlers, Handles calls handler

theorem Sound.mono (sound : Sound log calls s) (grows : log <+: log') (same : SameCalls calls calls') :
    Sound log' calls' s where
  applied := sound.applied.trans grows.length_le
  state := by
    obtain ⟨more, rfl⟩ := grows
    rw [List.take_append_of_le_length sound.applied]
    exact sound.state
  channels there := (sound.channels there).mono grows
  handlers handler member := by
    obtain ⟨call, here, is⟩ := sound.handlers handler member
    obtain ⟨call', here', is'⟩ := same _ _ here
    exact ⟨call', here', is'.trans is⟩

theorem sound_start (log : List Op) (calls : List (Ledger.Call Op (Option Config))) :
    Sound log calls start where
  applied := Nat.zero_le _
  state := rfl
  channels there := by cases there
  handlers _ member := by cases member

theorem Sound.setHandler (sound : Sound log calls s) (found : s.handlers[i]? = some old)
    (call : handler.call = old.call) (op : handler.op = old.op) :
    Sound log calls (s.setHandler i handler) where
  applied := sound.applied
  state := sound.state
  channels := sound.channels
  handlers other member := by
    rcases List.mem_or_eq_of_mem_set member with same | rfl
    · exact sound.handlers other same
    · obtain ⟨is, here, mine⟩ := sound.handlers old (List.mem_of_getElem? found)
      exact ⟨is, by rw [call, here], by rw [op, mine]⟩

/-- A channel is emptied, made, or gets a right result. -/
theorem Sound.setNotify {index : Nat} {slot : Option ApplyResult} (sound : Sound log calls s)
    (right : ∀ res, slot = some res → Answers Right log res.op res.config) :
    Sound log calls { s with notify := Function.update s.notify index (some slot) } where
  applied := sound.applied
  state := sound.state
  channels := by
    intro other res there
    by_cases here : other = index
    · subst here
      simp only [Function.update_self, Option.some.injEq] at there
      exact right res there
    · simp only [Function.update_of_ne here] at there
      exact sound.channels there
  handlers := sound.handlers

theorem Sound.getNotifyCh (sound : Sound log calls s) (index : Nat) :
    Sound log calls (s.getNotifyCh index) := by
  unfold Server.getNotifyCh
  split
  next => exact sound
  next => exact sound.setNotify fun res none => by (cases none)

theorem getNotifyCh_handlers (s : Server) (index : Nat) :
    (s.getNotifyCh index).handlers = s.handlers := by
  unfold Server.getNotifyCh
  split <;> rfl

theorem Sound.callStart {answer : Option Nat} (sound : Sound log calls s)
    (next : s.callStart i answer = some s') : Sound log calls s' := by
  unfold Server.callStart at next
  split at next
  next call op found =>
    split at next
    next =>
      cases next
      exact sound.setHandler found rfl rfl
    next =>
      cases next
      exact sound.setHandler found rfl rfl
  next => cases next

theorem Sound.register (sound : Sound log calls s) (next : s.register i = some s') :
    Sound log calls s' := by
  unfold Server.register at next
  split at next
  next call op index found =>
    cases next
    rw [← getNotifyCh_handlers s index] at found
    exact (sound.getNotifyCh index).setHandler found rfl rfl
  next => cases next

/-- A reply goes to the call that a handler worked for, and OK is granted. -/
theorem Sound.receive {j : Nat} {given : Reply} (sound : Sound log calls s)
    (next : s.receive i = some (s', j, given)) :
    Sound log calls s' ∧ ∀ config, given = .ok config →
      ∃ call, calls[j]? = some call ∧ Granted log call.op config := by
  unfold Server.receive at next
  split at next
  next call op index found =>
    split at next
    next res there =>
      cases next
      have left : Sound log calls (s.setHandler i ⟨j, op, .returned⟩) :=
        sound.setHandler found rfl rfl
      refine ⟨left.setNotify fun res none => by (cases none), fun config is => ?_⟩
      obtain ⟨asker, here, mine⟩ := sound.handlers _ (List.mem_of_getElem? found)
      refine ⟨asker, here, res, ?_, sound.channels there, by rw [mine, is]⟩
      rw [mine]
      by_contra other
      rw [reply, if_neg other] at is
      cases is
    next => cases next
  next => cases next

theorem Sound.timeout {j : Nat} {given : Reply} (sound : Sound log calls s)
    (next : s.timeout i = some (s', j, given)) : Sound log calls s' ∧ given = .wrongLeader := by
  unfold Server.timeout at next
  split at next
  next call op index found =>
    cases next
    exact ⟨sound.setHandler found rfl rfl, rfl⟩
  next => cases next

/-- The send does not block: a full buffer keeps what it has. -/
theorem Sound.send (sound : Sound log calls s) (index : Nat) (res : ApplyResult)
    (right : Answers Right log res.op res.config) :
    Sound log calls { s with
      notify := match s.notify index with
        | some (some _) => s.notify
        | _ => Function.update s.notify index (some (some res)) } := by
  split
  next => exact sound
  next =>
    refine sound.setNotify fun other is => ?_
    cases is
    exact right

/-- The applier computes what is right at the next place of the log. -/
theorem Sound.deliver (sound : Sound log calls s) (next : s.deliver log = some s') :
    Sound log calls s' := by
  unfold Server.deliver at next
  split at next
  next => cases next
  next op here =>
    obtain ⟨⟨sc, config⟩, applied, rfl⟩ := Option.map_eq_some_iff.mp next
    have within := (List.getElem?_eq_some_iff.mp here).1
    have right : Answers Right log op config := ⟨_, here, s.sc, sc, sound.state, applied⟩
    have sent := (sound.getNotifyCh (s.applied + 1)).send (s.applied + 1) ⟨op, config⟩ right
    refine ⟨within, ?_, sent.channels, sent.handlers⟩
    simp only
    rw [replay_take_succ here, sound.state, Option.bind_some, applied, Option.map_some]

end Server

namespace System

variable {sys sys' : System} {s : Nat} {server : Server} {a : Action} {clientID : Int}

/-- All servers and replies are sound, and only what was asked for is started. -/
structure Sound (sys : System) : Prop where
  servers : ∀ s, Server.Sound sys.ledger.log sys.ledger.calls (sys.server s)
  replies : ∀ {j config}, (j, .ok config) ∈ sys.replies →
    ∃ call, sys.ledger.calls[j]? = some call ∧ Granted sys.ledger.log call.op config
  started : ∀ op ∈ sys.started, ∃ call ∈ sys.ledger.calls, call.op = op

theorem sound_initial : Sound initial where
  servers _ := Server.sound_start _ _
  replies member := by cases member
  started _ member := by cases member

/-- The clerks and the log move on. -/
theorem Sound.ledger {l : Ledger Op (Option Config)} (sound : Sound sys)
    (grows : sys.ledger.log <+: l.log) (same : SameCalls sys.ledger.calls l.calls) :
    Sound { sys with ledger := l } where
  servers s := (sound.servers s).mono grows same
  replies member := by
    obtain ⟨call, here, granted⟩ := sound.replies member
    obtain ⟨call', here', is⟩ := same _ _ here
    exact ⟨call', here', by rw [is]; exact granted.mono grows⟩
  started op member := by
    obtain ⟨call, inside, rfl⟩ := sound.started op member
    obtain ⟨i, here⟩ := List.mem_iff_getElem?.mp inside
    obtain ⟨call', here', is⟩ := same _ _ here
    exact ⟨call', List.mem_of_getElem? here', is⟩

theorem Sound.setServer (sound : Sound sys)
    (new : Server.Sound sys.ledger.log sys.ledger.calls server) : Sound (sys.setServer s server) where
  servers t := by
    unfold System.setServer
    by_cases here : t = s
    · subst here
      simpa only [Function.update_self] using new
    · simpa only [Function.update_of_ne here] using sound.servers t
  replies := sound.replies
  started := sound.started

theorem Sound.serverStep {step : Server → Option Server} (sound : Sound sys)
    (next : sys.serverStep s step = some sys')
    (keeps : ∀ {server}, step (sys.server s) = some server →
      Server.Sound sys.ledger.log sys.ledger.calls server) :
    Sound sys' ∧ sys'.ledger = sys.ledger := by
  obtain ⟨server, moved, rfl⟩ := Option.map_eq_some_iff.mp next
  exact ⟨sound.setServer (keeps moved), rfl⟩

theorem Sound.answer {result : Option (Server × Nat × Reply)} (sound : Sound sys)
    (next : sys.answer s result = some sys')
    (keeps : ∀ {server j given}, result = some (server, j, given) →
      Server.Sound sys.ledger.log sys.ledger.calls server ∧ ∀ config, given = .ok config →
        ∃ call, sys.ledger.calls[j]? = some call ∧ Granted sys.ledger.log call.op config) :
    Sound sys' ∧ sys'.ledger = sys.ledger := by
  obtain ⟨⟨server, j, given⟩, moved, rfl⟩ := Option.map_eq_some_iff.mp next
  obtain ⟨kept, granted⟩ := keeps moved
  have moved := sound.setServer (s := s) kept
  refine ⟨⟨moved.servers, fun {k config} member => ?_, moved.started⟩, rfl⟩
  rcases List.mem_append.mp member with old | new
  · exact sound.replies old
  · cases List.mem_singleton.mp new
    exact granted config rfl

theorem Sound.handle {i : Nat} (sound : Sound sys) (next : sys.handle s i = some sys') :
    Sound sys' ∧ sys'.ledger = sys.ledger := by
  obtain ⟨call, found, rfl⟩ := Option.map_eq_some_iff.mp next
  obtain ⟨applied, state, channels, handlers⟩ := sound.servers s
  refine ⟨sound.setServer ⟨applied, state, channels, fun handler member => ?_⟩, rfl⟩
  rcases List.mem_append.mp member with old | new
  · exact handlers handler old
  · rw [List.mem_singleton.mp new]
    exact ⟨call, found, rfl⟩

theorem Sound.callStart {h : Nat} {given : Option Nat} (sound : Sound sys)
    (next : sys.callStart s h given = some sys') : Sound sys' ∧ sys'.ledger = sys.ledger := by
  unfold System.callStart at next
  split at next
  next => cases next
  next handler found =>
    obtain ⟨server, moved, rfl⟩ := Option.map_eq_some_iff.mp next
    have kept := sound.setServer (s := s) ((sound.servers s).callStart moved)
    refine ⟨⟨kept.servers, kept.replies, fun op member => ?_⟩, rfl⟩
    simp only at member
    split at member
    next =>
      rcases List.mem_append.mp member with old | new
      · exact sound.started op old
      · rw [List.mem_singleton.mp new]
        obtain ⟨call, here, is⟩ := (sound.servers s).handlers handler (List.mem_of_getElem? found)
        exact ⟨call, List.mem_of_getElem? here, is⟩
    next => exact sound.started op member

/-- The clerks of the controller, the log and all results. -/
abbrev Regular (sys : System) : Prop :=
  Ledger.Regular Op.clientID Op.requestID Right sys.ledger

abbrev LedgerStep (sys sys' : System) : Prop :=
  Ledger.Step Op.clientID Op.requestID Right sys.ledger sys'.ledger

theorem Sound.call {request : Request} (sound : Sound sys)
    (next : sys.call clientID request = some sys') : Sound sys' ∧ LedgerStep sys sys' := by
  unfold System.call at next
  simp only at next
  split at next
  next => cases next
  next idle =>
    cases next
    refine ⟨sound.ledger List.prefix_rfl (sameCalls_ask sys.ledger clientID _), ?_⟩
    exact Ledger.Step.ask idle rfl

/-- A clerk takes only a result that is right for its own operation: no other
operation has its number. -/
theorem Sound.receive {i : Nat} (sound : Sound sys) (regular : Regular sys)
    (next : sys.receive clientID i = some sys') : Sound sys' ∧ LedgerStep sys sys' := by
  unfold System.receive at next
  split at next
  next => cases next
  next j pending =>
    split at next
    next call k config found there =>
      split at next
      next same =>
        subst same
        cases next
        refine ⟨sound.ledger List.prefix_rfl (sameCalls_finish clientID config found), ?_⟩
        obtain ⟨asker, here, granted⟩ := sound.replies (List.mem_of_getElem? there)
        cases found.symm.trans here
        refine Ledger.Step.finish pending found (granted.answers fun other inside client number => ?_)
        obtain ⟨p, place⟩ := List.mem_iff_getElem?.mp inside
        obtain ⟨asked, member, rfl, _⟩ := regular.timely.asked place
        obtain ⟨q, position⟩ := List.mem_iff_getElem?.mp member
        rw [(regular.serial.eq_of_op position found client number).2]
      next => cases next
    next => cases next

theorem Sound.commit {i : Nat} (sound : Sound sys) (next : sys.commit i = some sys') :
    Sound sys' ∧ LedgerStep sys sys' := by
  obtain ⟨op, found, rfl⟩ := Option.map_eq_some_iff.mp next
  refine ⟨sound.ledger (List.prefix_append _ _) (SameCalls.refl _), ?_⟩
  obtain ⟨call, member, rfl⟩ := sound.started op (List.mem_of_getElem? found)
  exact Ledger.Step.commit member

/-- Every step keeps all results right, and is a step of the clerks and the log or
none of theirs. -/
theorem Sound.step (sound : Sound sys) (regular : Regular sys) (next : step sys a = some sys') :
    Sound sys' ∧ (sys'.ledger = sys.ledger ∨ LedgerStep sys sys') := by
  cases a with
  | call clientID request => exact (sound.call next).imp_right Or.inr
  | receive clientID i => exact (sound.receive regular next).imp_right Or.inr
  | handle s i => exact (sound.handle next).imp_right Or.inl
  | start s h given => exact (sound.callStart next).imp_right Or.inl
  | register s h =>
    simp only [System.step] at next
    exact (sound.serverStep next (sound.servers s).register).imp_right Or.inl
  | take s h => exact (sound.answer next (sound.servers s).receive).imp_right Or.inl
  | timeout s h =>
    refine (sound.answer next fun moved => ?_).imp_right Or.inl
    obtain ⟨kept, rfl⟩ := (sound.servers s).timeout moved
    exact ⟨kept, fun config is => by (cases is)⟩
  | commit i => exact (sound.commit next).imp_right Or.inr
  | deliver s =>
    simp only [System.step] at next
    exact (sound.serverStep next (sound.servers s).deliver).imp_right Or.inl
  | restart s =>
    cases next
    exact ⟨sound.setServer (Server.sound_start _ _), Or.inl rfl⟩

end System

end DistSys.Shardctrler
