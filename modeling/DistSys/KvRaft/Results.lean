import DistSys.KvRaft.World

namespace DistSys.KvRaft

namespace KVState

variable {kv : KVState} {op : Op} {log : List Op}

theorem replay_concat (log : List Op) (op : Op) :
    replay (log ++ [op]) = ((replay log).applyOp op).1 := by
  rw [replay, List.foldl_append]
  rfl

theorem replay_take_succ {k : Nat} (here : log[k]? = some op) :
    replay (log.take (k + 1)) = ((replay (log.take k)).applyOp op).1 := by
  rw [List.take_add_one, here, Option.toList_some, replay_concat]

theorem applyOp_get (reads : op.opType = .get) : kv.applyOp op = (kv, ⟨op, kv.read op.key⟩) := by
  simp only [applyOp, reads]

theorem applyOp_op (kv : KVState) (op : Op) : (kv.applyOp op).2.op = op := by
  unfold applyOp
  cases op.opType <;> rfl

/-- A write that is not applied changes nothing. -/
theorem applyOp_skip (skipped : kv.shouldApply op.clientID op.requestID = false) :
    (kv.applyOp op).1 = kv := by
  unfold applyOp
  cases op.opType <;> simp [skipped]

theorem applyOp_lastAppliedReq (writes : op.opType ≠ .get)
    (fresh : kv.shouldApply op.clientID op.requestID = true) :
    (kv.applyOp op).1.lastAppliedReq =
      Function.update kv.lastAppliedReq op.clientID (some op.requestID) := by
  unfold applyOp
  cases type : op.opType with
  | get => exact absurd type writes
  | put => simp [fresh, write]
  | append => simp [fresh, write]

/-- The table names writes of the log. -/
theorem mem_of_lastAppliedReq {clientID reqID : Int}
    (last : (replay log).lastAppliedReq clientID = some reqID) :
    ∃ op ∈ log, op.opType ≠ .get ∧ op.clientID = clientID ∧ op.requestID = reqID := by
  induction log using List.reverseRecOn with
  | nil => cases last
  | append_singleton log op ih =>
    have old (before : (replay log).lastAppliedReq clientID = some reqID) :
        ∃ other ∈ log ++ [op], other.opType ≠ .get ∧ other.clientID = clientID ∧
          other.requestID = reqID := by
      obtain ⟨other, member, is⟩ := ih before
      exact ⟨other, List.mem_append_left _ member, is⟩
    rw [replay_concat] at last
    by_cases reads : op.opType = .get
    · rw [applyOp_get reads] at last
      exact old last
    · cases fresh : (replay log).shouldApply op.clientID op.requestID with
      | false =>
        rw [applyOp_skip fresh] at last
        exact old last
      | true =>
        rw [applyOp_lastAppliedReq reads fresh] at last
        by_cases mine : clientID = op.clientID
        · subst mine
          rw [Function.update_self] at last
          exact ⟨op, List.mem_append_right _ (List.mem_singleton.mpr rfl), reads, rfl,
            Option.some.inj last⟩
        · rw [Function.update_of_ne mine] at last
          exact old last

/-- The table has got past every write of the log. -/
theorem le_lastAppliedReq (member : op ∈ log) (writes : op.opType ≠ .get) :
    ∃ last, (replay log).lastAppliedReq op.clientID = some last ∧ op.requestID ≤ last := by
  induction log using List.reverseRecOn with
  | nil => cases member
  | append_singleton log next ih =>
    rw [replay_concat]
    cases fresh : (replay log).shouldApply next.clientID next.requestID with
    | false =>
      rw [applyOp_skip fresh]
      rcases List.mem_append.mp member with old | new
      · exact ih old
      · rw [List.mem_singleton.mp new]
        unfold shouldApply at fresh
        split at fresh
        next last found => exact ⟨last, found, Int.not_lt.mp (of_decide_eq_false fresh)⟩
        next => cases fresh
    | true =>
      by_cases reads : next.opType = .get
      · rw [applyOp_get reads]
        rcases List.mem_append.mp member with old | new
        · exact ih old
        · rw [List.mem_singleton.mp new] at writes
          exact absurd reads writes
      · rw [applyOp_lastAppliedReq reads fresh]
        by_cases mine : op.clientID = next.clientID
        · refine ⟨next.requestID, by rw [mine, Function.update_self], ?_⟩
          rcases List.mem_append.mp member with old | new
          · obtain ⟨last, found, le⟩ := ih old
            rw [mine] at found
            simp only [shouldApply, found, decide_eq_true_eq] at fresh
            omega
          · cases List.mem_singleton.mp new
            exact Int.le_refl _
        · rw [Function.update_of_ne mine]
          rcases List.mem_append.mp member with old | new
          · exact ih old
          · exact absurd (by rw [List.mem_singleton.mp new]) mine

end KVState

/-- A value is the answer to an operation at some place in the common log. -/
def Answers (log : List Op) (op : Op) (value : GoString) : Prop :=
  ∃ p : Nat, log[p]? = some op ∧
    (op.opType = .get → value = (KVState.replay (log.take p)).read op.key)

theorem Answers.mono {log log' : List Op} {op : Op} {value : GoString} (answers : Answers log op value)
    (grows : log <+: log') : Answers log' op value := by
  obtain ⟨p, here, reads⟩ := answers
  obtain ⟨more, rfl⟩ := grows
  have within := (List.getElem?_eq_some_iff.mp here).1
  refine ⟨p, by rw [List.getElem?_append_left within, here], ?_⟩
  rwa [List.take_append_of_le_length within.le]

theorem answers_applyOp {log : List Op} {op : Op} {p : Nat} (here : log[p]? = some op) :
    Answers log ((KVState.replay (log.take p)).applyOp op).2.op
      ((KVState.replay (log.take p)).applyOp op).2.value := by
  rw [KVState.applyOp_op]
  exact ⟨p, here, fun reads => by rw [KVState.applyOp_get reads]⟩

namespace KVServer

variable {s s' : KVServer} {log : List Op} {i : Nat} {handler old : Handler}

/-- A server has the state of a prefix of the common log, and every result that
it keeps anywhere is an answer at some place in the log. -/
structure Sound (log : List Op) (s : KVServer) : Prop where
  applied : s.applied ≤ log.length
  kv : s.kv = KVState.replay (log.take s.applied)
  cached : ∀ {index res}, s.appliedResults index = some res → Answers log res.op res.value
  buffers : ∀ {res}, some res ∈ s.channels → Answers log res.op res.value
  notifying : ∀ {channel res}, s.applier = .notifying channel res → Answers log res.op res.value
  leaving : ∀ {handler index value}, handler ∈ s.handlers →
    handler.state = .leaving index (.ok value) → Answers log handler.op value

/-- No handler appears, and none changes its operation. -/
def SameOps (s s' : KVServer) : Prop :=
  ∀ handler ∈ s'.handlers, ∃ old ∈ s.handlers, old.op = handler.op

theorem SameOps.refl (s : KVServer) : SameOps s s := fun handler member => ⟨handler, member, rfl⟩

theorem Sound.mono {log' : List Op} (sound : Sound log s) (grows : log <+: log') : Sound log' s where
  applied := sound.applied.trans grows.length_le
  kv := by
    obtain ⟨more, rfl⟩ := grows
    rw [List.take_append_of_le_length sound.applied]
    exact sound.kv
  cached found := (sound.cached found).mono grows
  buffers member := (sound.buffers member).mono grows
  notifying is := (sound.notifying is).mono grows
  leaving member is := (sound.leaving member is).mono grows

theorem sound_start (log : List Op) {index : Nat} (within : index ≤ log.length) :
    Sound log (start (KVState.replay (log.take index)) index) where
  applied := within
  kv := rfl
  cached found := by cases found
  buffers member := by cases member
  notifying is := by cases is
  leaving member := by cases member

theorem sameOps_setHandler (found : s.handlers[i]? = some old) (op : handler.op = old.op) :
    SameOps s (s.setHandler i handler) := by
  intro other member
  rcases List.mem_or_eq_of_mem_set member with same | rfl
  · exact ⟨other, same, rfl⟩
  · exact ⟨old, List.mem_of_getElem? found, op.symm⟩

theorem Sound.setHandler (sound : Sound log s) (i : Nat)
    (new : ∀ index value, handler.state = .leaving index (.ok value) → Answers log handler.op value) :
    Sound log (s.setHandler i handler) where
  applied := sound.applied
  kv := sound.kv
  cached := sound.cached
  buffers := sound.buffers
  notifying := sound.notifying
  leaving := by
    intro other index value member is
    rcases List.mem_or_eq_of_mem_set member with same | rfl
    · exact sound.leaving same is
    · exact new index value is

theorem Sound.callStart {answer : Option (Nat × Nat)} (sound : Sound log s)
    (next : s.callStart i answer = some s') : Sound log s' ∧ SameOps s s' := by
  unfold KVServer.callStart at next
  split at next
  next op found =>
    split at next
    next =>
      cases next
      exact ⟨sound.setHandler i fun _ _ is => by (cases is), sameOps_setHandler found rfl⟩
    next =>
      cases next
      exact ⟨sound.setHandler i fun _ _ is => by (cases is), sameOps_setHandler found rfl⟩
  next => cases next

theorem Sound.getNotifyCh (sound : Sound log s) (index : Nat) :
    Sound log (s.getNotifyCh index).1 ∧ (s.getNotifyCh index).1.handlers = s.handlers := by
  unfold KVServer.getNotifyCh
  split
  next => exact ⟨sound, rfl⟩
  next =>
    refine ⟨⟨sound.applied, sound.kv, sound.cached, ?_, sound.notifying, sound.leaving⟩, rfl⟩
    intro res member
    rcases List.mem_append.mp member with old | new
    · exact sound.buffers old
    · exact sound.cached (List.mem_singleton.mp new).symm

theorem Sound.register (sound : Sound log s) (next : s.register i = some s') :
    Sound log s' ∧ SameOps s s' := by
  unfold KVServer.register at next
  split at next
  next op index term found =>
    cases next
    obtain ⟨made, handlers⟩ := sound.getNotifyCh index
    refine ⟨made.setHandler i fun _ _ is => by (cases is), ?_⟩
    rw [← handlers] at found
    have same : SameOps (s.getNotifyCh index).1 ((s.getNotifyCh index).1.setHandler i
        ⟨op, .waiting index term (s.getNotifyCh index).2⟩) := sameOps_setHandler found rfl
    rwa [SameOps, handlers] at same
  next => cases next

/-- A handler answers OK only with a result for its own operation. -/
theorem Sound.receive (sound : Sound log s) (next : s.receive i = some s') :
    Sound log s' ∧ SameOps s s' := by
  unfold KVServer.receive at next
  split at next
  next op index term channel found =>
    split at next
    next res there =>
      cases next
      have answers := sound.buffers (List.mem_of_getElem? there)
      refine ⟨?_, sameOps_setHandler found rfl⟩
      have left : Sound log (s.setHandler i ⟨op, .leaving index
          (if sameOp res.op op then Reply.ok res.value else Reply.wrongLeader)⟩) := by
        refine sound.setHandler i fun _ value is => ?_
        simp only [HandlerState.leaving.injEq] at is
        by_cases same : sameOp res.op op = true
        · rw [if_pos same] at is
          cases is.2
          rwa [sameOp_iff.mp same] at answers
        · rw [if_neg same] at is
          cases is.2
      refine ⟨left.applied, left.kv, left.cached, fun {other} member => ?_, left.notifying, left.leaving⟩
      rcases List.mem_or_eq_of_mem_set member with same | new
      · exact sound.buffers same
      · cases new
    next => cases next
  next => cases next

theorem Sound.timeout {curTerm : Nat} {stillLeader : Bool} (sound : Sound log s)
    (next : s.timeout i curTerm stillLeader = some s') : Sound log s' ∧ SameOps s s' := by
  unfold KVServer.timeout at next
  split at next
  next op index term channel found =>
    split at next
    next =>
      cases next
      exact ⟨sound.setHandler i fun _ _ is => by (cases is), sameOps_setHandler found rfl⟩
    next =>
      cases next
      exact ⟨sound, .refl s⟩
  next => cases next

theorem Sound.forget (sound : Sound log s) {notify : Nat → Option Nat}
    {appliedResults : Nat → Option ApplyResult} {applier : Applier}
    (fewer : ∀ {index res}, appliedResults index = some res → s.appliedResults index = some res)
    (quiet : ∀ {channel res}, applier ≠ .notifying channel res ∨ applier = s.applier) :
    Sound log { s with notify := notify, appliedResults := appliedResults, applier := applier } where
  applied := sound.applied
  kv := sound.kv
  cached found := sound.cached (fewer found)
  buffers := sound.buffers
  notifying is := quiet.elim (fun other => absurd is other)
    fun same => sound.notifying (same.symm.trans is)
  leaving := sound.leaving

theorem Sound.leave {op : Op} {reply : Reply} (sound : Sound log s)
    (next : s.leave i = some (s', op, reply)) :
    Sound log s' ∧ SameOps s s' ∧ ∀ value, reply = .ok value → Answers log op value := by
  unfold KVServer.leave at next
  split at next
  next op index reply found =>
    cases next
    have removed : Sound log (s.removeNotifyCh index) :=
      sound.forget some_of_update_none (Or.inr rfl)
    refine ⟨removed.setHandler i fun _ _ is => by (cases is), sameOps_setHandler found rfl, ?_⟩
    rintro value rfl
    exact sound.leaving (List.mem_of_getElem? found) rfl
  next => cases next

/-- The applier computes an answer at the next place of the log. -/
theorem Sound.deliver (sound : Sound log s) (next : s.deliver log = some s') :
    Sound log s' ∧ SameOps s s' := by
  unfold KVServer.deliver at next
  split at next
  next op _ here =>
    cases next
    have answers := answers_applyOp here
    rw [← sound.kv] at answers
    have within := (List.getElem?_eq_some_iff.mp here).1
    refine ⟨⟨within, ?_, fun {index res} there => ?_, sound.buffers, fun {channel res} is => ?_,
      sound.leaving⟩, .refl _⟩
    · simp only
      rw [KVState.replay_take_succ here, ← sound.kv]
    · simp only at there
      by_cases same : index = s.applied + 1
      · subst same
        rw [Function.update_self] at there
        cases there
        exact answers
      · rw [Function.update_of_ne same] at there
        exact sound.cached there
    · simp only at is
      split at is
      next =>
        cases is
        exact answers
      next => cases is
  next => cases next

theorem Sound.sendNotification (sound : Sound log s) (next : s.sendNotification = some s') :
    Sound log s' ∧ SameOps s s' := by
  unfold KVServer.sendNotification at next
  split at next
  next channel res notifying =>
    have quiet : Sound log { s with applier := .idle } :=
      sound.forget (fun there => there) (Or.inl fun is => by (cases is))
    split at next
    next =>
      cases next
      refine ⟨⟨sound.applied, sound.kv, sound.cached, fun {other} member => ?_, quiet.notifying,
        sound.leaving⟩, .refl _⟩
      rcases List.mem_or_eq_of_mem_set member with same | new
      · exact sound.buffers same
      · cases new
        exact sound.notifying notifying
    next =>
      cases next
      exact ⟨quiet, .refl _⟩
  next => cases next

theorem Sound.install {index : Nat} (sound : Sound log s) (next : s.install log index = some s') :
    Sound log s' ∧ SameOps s s' := by
  unfold KVServer.install at next
  split at next
  next =>
    split at next
    next valid =>
      cases next
      exact ⟨⟨valid.2, rfl, sound.cached, sound.buffers, fun is => by (cases is), sound.leaving⟩, .refl _⟩
    next => cases next
  next => cases next

theorem Sound.trim (sound : Sound log s) (next : s.trim = some s') : Sound log s' ∧ SameOps s s' := by
  unfold KVServer.trim at next
  split at next
  next index _ =>
    cases next
    refine ⟨sound.forget (fun {other res} there => ?_) (Or.inl fun is => by (cases is)), .refl _⟩
    simp only [trimNotifications] at there
    split at there
    next => cases there
    next => exact there
  next => cases next

end KVServer

namespace System

variable {sys sys' : System} {s : Nat} {server : KVServer} {a : Action}

/-- All servers and all replies are sound. -/
structure Sound (sys : System) : Prop where
  servers : ∀ s, KVServer.Sound sys.log (sys.server s)
  replies : ∀ {op value}, (op, .ok value) ∈ sys.replies → Answers sys.log op value

theorem sound_initial : Sound initial where
  servers _ := KVServer.sound_start [] (Nat.le_refl 0)
  replies member := by cases member

theorem Sound.mono (sound : Sound sys) (grows : sys.log <+: sys'.log)
    (server : sys'.server = sys.server) (replies : sys'.replies = sys.replies) : Sound sys' where
  servers s := by
    rw [server]
    exact (sound.servers s).mono grows
  replies member := by
    rw [replies] at member
    exact (sound.replies member).mono grows

theorem setServer_server (sys : System) (s t : Nat) (server : KVServer) :
    (sys.setServer s server).server t = if t = s then server else sys.server t := by
  unfold setServer
  by_cases here : t = s
  · subst here
    simp
  · simp [here]

/-- What a step of the servers and the network does: it leaves the log and the
clerks alone, and handles and starts only what is there. -/
structure Serves (sys sys' : System) : Prop where
  log : sys'.log = sys.log
  calls : sys'.calls = sys.calls
  clerk : sys'.clerk = sys.clerk
  clock : sys'.clock = sys.clock
  sound : Sound sys'
  handlers : ∀ t, ∀ handler ∈ (sys'.server t).handlers,
    (∃ call ∈ sys.calls, call.op = handler.op) ∨ ∃ old ∈ (sys.server t).handlers, old.op = handler.op
  started : ∀ op ∈ sys'.started, op ∈ sys.started ∨
    ∃ t, ∃ handler ∈ (sys.server t).handlers, handler.op = op

/-- One server moves to a new state. -/
theorem Sound.setServer (sound : Sound sys) (new : KVServer.Sound sys.log server)
    (ops : ∀ handler ∈ server.handlers, (∃ call ∈ sys.calls, call.op = handler.op) ∨
      ∃ old ∈ (sys.server s).handlers, old.op = handler.op) :
    Serves sys (sys.setServer s server) where
  log := rfl
  calls := rfl
  clerk := rfl
  clock := rfl
  sound := by
    refine ⟨fun t => ?_, sound.replies⟩
    rw [setServer_server]
    split
    next => exact new
    next => exact sound.servers t
  handlers t handler member := by
    rw [setServer_server] at member
    split at member
    next here =>
      subst here
      exact ops handler member
    next => exact Or.inr ⟨handler, member, rfl⟩
  started _ member := Or.inl member

theorem Sound.serverStep {step : KVServer → Option KVServer} (sound : Sound sys)
    (next : sys.serverStep s step = some sys')
    (keeps : ∀ {server}, step (sys.server s) = some server →
      KVServer.Sound sys.log server ∧ KVServer.SameOps (sys.server s) server) : Serves sys sys' := by
  obtain ⟨server, moved, rfl⟩ := Option.map_eq_some_iff.mp next
  exact sound.setServer (keeps moved).1 fun handler member => Or.inr ((keeps moved).2 handler member)

theorem Sound.handle {i : Nat} (sound : Sound sys) (next : sys.handle s i = some sys') :
    Serves sys sys' := by
  obtain ⟨call, found, rfl⟩ := Option.map_eq_some_iff.mp next
  obtain ⟨applied, kv, cached, buffers, notifying, leaving⟩ := sound.servers s
  refine sound.setServer ⟨applied, kv, cached, buffers, notifying, ?_⟩ ?_
  · intro handler index value member is
    rcases List.mem_append.mp member with old | new
    · exact leaving old is
    · rw [List.mem_singleton.mp new] at is
      cases is
  · intro handler member
    rcases List.mem_append.mp member with old | new
    · exact Or.inr ⟨handler, old, rfl⟩
    · exact Or.inl ⟨call, List.mem_of_getElem? found, by rw [List.mem_singleton.mp new]⟩

theorem Sound.callStart {h : Nat} {answer : Option (Nat × Nat)} (sound : Sound sys)
    (next : sys.callStart s h answer = some sys') : Serves sys sys' := by
  unfold System.callStart at next
  split at next
  next => cases next
  next handler found =>
    obtain ⟨server, moved, rfl⟩ := Option.map_eq_some_iff.mp next
    obtain ⟨kept, same⟩ := (sound.servers s).callStart moved
    obtain ⟨log, calls, clerk, clock, sound', handlers, _⟩ :=
      sound.setServer kept fun handler member => Or.inr (same handler member)
    refine ⟨log, calls, clerk, clock, ⟨sound'.servers, sound'.replies⟩, handlers, fun op member => ?_⟩
    simp only at member
    split at member
    next =>
      rcases List.mem_append.mp member with old | new
      · exact Or.inl old
      · exact Or.inr ⟨s, handler, List.mem_of_getElem? found, (List.mem_singleton.mp new).symm⟩
    next => exact Or.inl member

/-- A reply that goes out with OK is an answer. -/
theorem Sound.leave {h : Nat} (sound : Sound sys) (next : sys.leave s h = some sys') :
    Serves sys sys' := by
  obtain ⟨⟨server, op, reply⟩, left, rfl⟩ := Option.map_eq_some_iff.mp next
  obtain ⟨kept, same, answers⟩ := (sound.servers s).leave left
  obtain ⟨log, calls, clerk, clock, sound', handlers, started⟩ :=
    sound.setServer kept fun handler member => Or.inr (same handler member)
  refine ⟨log, calls, clerk, clock, ⟨sound'.servers, fun {other value} member => ?_⟩, handlers, started⟩
  rcases List.mem_append.mp member with old | new
  · exact sound.replies old
  · cases List.mem_singleton.mp new
    exact answers value rfl

theorem Sound.restart {index : Nat} (sound : Sound sys) (next : sys.restart s index = some sys') :
    Serves sys sys' := by
  unfold System.restart at next
  split at next
  next within =>
    cases next
    exact sound.setServer (KVServer.sound_start sys.log within) fun handler member => by (cases member)
  next => cases next

/-- Every step is one of the servers and the network, a step of a clerk, or a
commit. -/
theorem Sound.step_cases (sound : Sound sys) (next : step sys a = some sys') :
    Serves sys sys' ∨ (∃ clientID opType key value, sys.call clientID opType key value = some sys') ∨
      (∃ clientID i, sys.receive clientID i = some sys') ∨ ∃ i, sys.commit i = some sys' := by
  cases a with
  | call clientID opType key value => exact Or.inr (Or.inl ⟨clientID, opType, key, value, next⟩)
  | receive clientID i => exact Or.inr (Or.inr (Or.inl ⟨clientID, i, next⟩))
  | handle s i => exact Or.inl (sound.handle next)
  | start s h answer => exact Or.inl (sound.callStart next)
  | register s h =>
    simp only [step] at next
    exact Or.inl (sound.serverStep next (sound.servers s).register)
  | take s h =>
    simp only [step] at next
    exact Or.inl (sound.serverStep next (sound.servers s).receive)
  | timeout s h curTerm stillLeader =>
    simp only [step] at next
    exact Or.inl (sound.serverStep next (sound.servers s).timeout)
  | leave s h => exact Or.inl (sound.leave next)
  | commit i => exact Or.inr (Or.inr (Or.inr ⟨i, next⟩))
  | deliver s =>
    simp only [step] at next
    exact Or.inl (sound.serverStep next (sound.servers s).deliver)
  | notify s =>
    simp only [step] at next
    exact Or.inl (sound.serverStep next (sound.servers s).sendNotification)
  | install s index =>
    simp only [step] at next
    exact Or.inl (sound.serverStep next (sound.servers s).install)
  | trim s =>
    simp only [step] at next
    exact Or.inl (sound.serverStep next (sound.servers s).trim)
  | restart s index => exact Or.inl (sound.restart next)

end System

end DistSys.KvRaft
