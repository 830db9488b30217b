import DistSys.Labrpc.Steps

namespace DistSys.Labrpc

variable {E N : Type}

theorem Moves.same {rn : Network E N} {r r' : Request E N} {act : Act} (moves : Moves rn r act r') :
    r'.endname = r.endname ∧ r'.svcMeth = r.svcMeth ∧ r'.args = r.args := by
  cases moves <;> exact ⟨rfl, rfl, rfl⟩

/-- What has been read of the network stays. -/
theorem Moves.info_cases {rn : Network E N} {r r' : Request E N} {act : Act} (moves : Moves rn r act r')
    (consistent : r.Consistent) :
    r'.info = r.info ∨
      (act = .read ∧ r.info = none ∧ r.handler = .absent ∧ r'.info = rn.readEndnameInfo r.endname) := by
  cases moves with
  | locate accepted found =>
    simp only [Request.Consistent, accepted] at consistent
    exact Or.inr ⟨rfl, consistent.2, consistent.1, found.symm⟩
  | _ => exact Or.inl rfl

/-- The reply that has passed the last check of `processReq`. -/
def Progress.reply : Progress → Option GoString
  | .checked reply | .delayed reply | .replying reply | .returned (some reply) => some reply
  | _ => none

theorem Request.Consistent.of_reply {r : Request E N} {reply : GoString} (consistent : r.Consistent)
    (passed : r.progress.reply = some reply) : r.handler = .received reply ∧ r.info.isSome := by
  simp only [Request.Consistent] at consistent
  split at consistent <;> simp_all [Progress.reply]

/-- Only a request that the network has received gets its handler called. -/
theorem Request.Consistent.sent_of_called {r : Request E N} (consistent : r.Consistent) (called : r.called = true) :
    r.sent = true := by
  simp only [Request.Consistent] at consistent
  split at consistent <;> simp_all [Request.called, Request.sent]

/-- A reply passes the check once, while the server is alive and after its handler has returned. -/
theorem Moves.reply_cases {rn : Network E N} {r r' : Request E N} {act : Act} (moves : Moves rn r act r')
    (consistent : r.Consistent) :
    r'.progress.reply = r.progress.reply ∨ r'.progress.reply = none ∨
    ∃ info reply, act = .lastCheck ∧ r'.progress.reply = some reply ∧ r.info = some info ∧ r'.info = some info ∧
      r.handler = .received reply ∧ rn.isServerDead r.endname info = false := by
  cases moves with
  | @pass info reply stopped found alive =>
    simp only [Request.Consistent, stopped] at consistent
    exact Or.inr (Or.inr ⟨info, reply, rfl, rfl, found, found, consistent.1, alive⟩)
  | delay passed | deliver passed =>
    rw [passed]
    exact Or.inl rfl
  | answer passed =>
    left
    rcases passed with passed | passed <;> rw [passed] <;> rfl
  | count | dispatch | invoke | finish | wait => exact Or.inl rfl
  | _ => exact Or.inr (Or.inl rfl)

/-- The replies that the handler of the call `i` has returned. -/
def finishes (i : Nat) (events : List (Event E N)) : List GoString :=
  events.filterMap fun
    | .act j act => if j = i then act.output else none
    | _ => none

theorem finishes_concat (i : Nat) (events : List (Event E N)) (event : Event E N) :
    finishes i (events ++ [event]) = finishes i events ++ finishes i [event] :=
  List.filterMap_append

theorem finishes_other {act : Act} {i j : Nat} (other : i ≠ j) :
    finishes j [Event.act (E := E) (N := N) i act] = [] := by
  simp [finishes, other]

/-- The handlers that have been called for the call `i`. -/
def executions (i : Nat) (executed : List Execution) : List Execution :=
  executed.filter (·.request == i)

theorem Network.Acted.request_cases {rn rn' : Network E N} {i j : Nat} {act : Act} {r r' there : Request E N}
    (acted : Network.Acted rn rn' i act r r') (is : rn'.requests[j]? = some there) :
    (j = i ∧ there = r') ∨ (i ≠ j ∧ rn.requests[j]? = some there) := by
  rw [acted.requests, List.getElem?_set] at is
  split at is
  next same =>
    split at is
    next =>
      cases is
      exact Or.inl ⟨same.symm, rfl⟩
    next => cases is
  next other => exact Or.inr ⟨other, is⟩

theorem Network.Acted.executions_other {rn rn' : Network E N} {i j : Nat} {act : Act} {r r' : Request E N}
    (acted : Network.Acted rn rn' i act r r') (other : i ≠ j) :
    executions j rn'.executed = executions j rn.executed := by
  cases acted.serves with
  | other same => rw [same]
  | dispatch _ _ _ _ _ same => rw [same]
  | invoke _ _ _ more =>
    rw [more, executions, List.filter_append, ← executions]
    simp [other]

namespace Network

variable [DecidableEq E] [DecidableEq N] {events : List (Event E N)} {event : Event E N} {rn rn' : Network E N}
  {i : Nat} {r r' : Request E N}

/-- When `event` came in this execution, the network was as `shape` says. -/
def SeenAt (events : List (Event E N)) (event : Event E N) (shape : Network E N → Prop) : Prop :=
  ∃ before u, before ++ [event] <+: events ∧ after before = some u ∧ shape u

theorem SeenAt.later {shape : Network E N → Prop} {next : Event E N} (seen : SeenAt events event shape) :
    SeenAt (events ++ [next]) event shape := by
  obtain ⟨before, u, part, run, is⟩ := seen
  exact ⟨before, u, part.trans (List.prefix_append _ _), run, is⟩

theorem SeenAt.now {shape : Network E N → Prop} (run : after events = some rn) (is : shape rn) :
    SeenAt (events ++ [event]) event shape :=
  ⟨events, rn, List.prefix_rfl, run, is⟩

/-- What the handlers called so far and the events tell about the call `i`. -/
structure Served (events : List (Event E N)) (executed : List Execution) (i : Nat) (r : Request E N) : Prop where
  recorded : (r.called = false ∧ executions i executed = []) ∨
    ∃ info service method, r.called = true ∧ r.info = some info ∧
      splitMethod r.svcMeth = some (service, method) ∧
      executions i executed = [⟨i, info.server, service, method, r.args⟩]
  named : ∀ service method found, r.handler = .dispatched service method found →
    splitMethod r.svcMeth = some (service, method)
  finished : finishes i events = r.handler.output.toList
  located : ∀ info, r.info = some info → SeenAt events (.act i .read) fun u =>
    u.readEndnameInfo r.endname = some info ∧ ∃ old, u.requests[i]? = some old ∧ old.info = none
  passed : ∀ info reply, r.info = some info → r.progress.reply = some reply →
    SeenAt events (.act i .lastCheck) fun u => u.isServerDead r.endname info = false ∧
      ∃ old, u.requests[i]? = some old ∧ old.handler = .received reply

theorem Served.later {executed executed' : List Execution} (served : Served events executed i r)
    (other : executions i executed' = executions i executed) (silent : finishes i [event] = []) :
    Served (events ++ [event]) executed' i r where
  recorded := by
    rw [other]
    exact served.recorded
  named := served.named
  finished := by rw [finishes_concat, silent, List.append_nil, served.finished]
  located := fun info found => (served.located info found).later
  passed := fun info reply found passed => (served.passed info reply found passed).later

theorem Acted.recorded {act : Act} (acted : Acted rn rn' i act r r') (consistent : r.Consistent)
    (old : Served events rn.executed i r) :
    (r'.called = false ∧ executions i rn'.executed = []) ∨
    ∃ info service method, r'.called = true ∧ r'.info = some info ∧
      splitMethod r'.svcMeth = some (service, method) ∧
      executions i rn'.executed = [⟨i, info.server, service, method, r'.args⟩] := by
  obtain ⟨_, sameMeth, sameArgs⟩ := acted.moves.same
  rw [sameMeth, sameArgs]
  cases acted.serves with
  | other same _ called =>
    rw [same, called]
    rcases old.recorded with ⟨uncalled, none⟩ | ⟨info, service, method, was, found, split, one⟩
    · exact Or.inl ⟨uncalled, none⟩
    · refine Or.inr ⟨info, service, method, was, ?_, split, one⟩
      rcases acted.moves.info_cases consistent with same | ⟨_, _, absent, _⟩
      · rw [same, found]
      · simp [Request.called, absent] at was
  | dispatch spawned _ _ _ now same =>
    rw [same, now]
    rcases old.recorded with ⟨_, none⟩ | ⟨_, _, _, was, _⟩
    · exact Or.inl ⟨rfl, none⟩
    · simp [Request.called, spawned] at was
  | @invoke info service method found dispatched known now more =>
    rw [now]
    refine Or.inr ⟨info, service, method, rfl, known, old.named service method found dispatched, ?_⟩
    rcases old.recorded with ⟨_, none⟩ | ⟨_, _, _, was, _⟩
    · rw [more, executions, List.filter_append, ← executions, none]
      simp
    · simp [Request.called, dispatched] at was

theorem Acted.named {act : Act} (acted : Acted rn rn' i act r r') (old : Served events rn.executed i r)
    {service method : GoString} {found : Option Service} (is : r'.handler = .dispatched service method found) :
    splitMethod r'.svcMeth = some (service, method) := by
  rw [acted.moves.same.2.1]
  cases acted.serves with
  | other _ _ _ _ before => exact old.named service method found (before service method found is)
  | dispatch _ _ split _ now =>
    rw [now] at is
    cases is
    exact split
  | invoke _ _ now =>
    rw [now] at is
    cases is

theorem Acted.served {act : Act} (acted : Acted rn rn' i act r r') (run : after events = some rn)
    (here : rn.requests[i]? = some r) (consistent : r.Consistent) (old : Served events rn.executed i r) :
    Served (events ++ [.act i act]) rn'.executed i r' where
  recorded := acted.recorded consistent old
  named := fun _ _ _ is => acted.named old is
  finished := by
    have new : finishes i [Event.act (E := E) (N := N) i act] = act.output.toList := by
      cases is : act.output <;> simp [finishes, is]
    rw [finishes_concat, new, old.finished]
    rcases acted.outputs with ⟨none, same⟩ | ⟨reply, some, none, is⟩
    · rw [none, same, Option.toList_none, List.append_nil]
    · rw [some, none, is]
      rfl
  located := by
    intro info found
    rw [acted.moves.same.1]
    rcases acted.moves.info_cases consistent with same | ⟨reads, unread, _, read⟩
    · exact (old.located info (same ▸ found)).later
    · subst reads
      exact SeenAt.now run ⟨read ▸ found, r, here, unread⟩
  passed := by
    intro info reply found passed
    rw [acted.moves.same.1]
    rcases acted.moves.reply_cases consistent with same | none | ⟨_, _, checks, is, _, kept, received, alive⟩
    · rw [same] at passed
      have known : r.info = some info := by
        rcases acted.moves.info_cases consistent with same | ⟨_, unread, _⟩
        · rw [← same, found]
        · have read := (consistent.of_reply passed).2
          simp [unread] at read
      exact (old.passed info reply known passed).later
    · rw [none] at passed
      cases passed
    · subst checks
      rw [is] at passed
      cases passed
      rw [kept] at found
      cases found
      exact SeenAt.now run ⟨alive, r, here, received⟩

/-- What every reachable network satisfies. -/
structure Orderly (events : List (Event E N)) (rn : Network E N) : Prop where
  consistent : ∀ (i : Nat) (r : Request E N), rn.requests[i]? = some r → r.Consistent
  served : ∀ (i : Nat) (r : Request E N), rn.requests[i]? = some r → Served events rn.executed i r
  fresh : ∀ i, rn.requests.length ≤ i → executions i rn.executed = [] ∧ finishes i events = []

theorem Orderly.start : Orderly [] (makeNetwork : Network E N) where
  consistent := fun i r here => by simp [makeNetwork] at here
  served := fun i r here => by simp [makeNetwork] at here
  fresh := fun _ _ => ⟨rfl, rfl⟩

theorem Orderly.arrange (old : Orderly events rn) (arranged : Arranged rn rn' event)
    (other : ∀ i act, event ≠ .act i act) : Orderly (events ++ [event]) rn' := by
  have silent : ∀ i, finishes i [event] = [] := by
    intro i
    cases event with
    | act j act => exact absurd rfl (other j act)
    | _ => rfl
  refine ⟨?_, ?_, ?_⟩
  · rw [arranged.requests]
    exact old.consistent
  · intro i r here
    rw [arranged.requests] at here
    rw [arranged.executed]
    exact (old.served i r here).later rfl (silent i)
  · intro i beyond
    rw [arranged.requests] at beyond
    rw [arranged.executed, finishes_concat, silent i, List.append_nil]
    exact old.fresh i beyond

theorem Orderly.call (old : Orderly events rn) (endname : E) (svcMeth args : GoString) :
    Orderly (events ++ [.call endname svcMeth args])
      { rn with requests := rn.requests ++ [newRequest endname svcMeth args] } := by
  refine ⟨?_, ?_, ?_⟩
  · intro i r here
    rcases getElem?_concat_cases here with before | ⟨_, rfl⟩
    · exact old.consistent i r before
    · exact ⟨rfl, rfl⟩
  · intro i r here
    rcases getElem?_concat_cases here with before | ⟨last, rfl⟩
    · exact (old.served i r before).later rfl rfl
    · obtain ⟨unexecuted, unfinished⟩ := old.fresh i (Nat.le_of_eq last.symm)
      refine ⟨Or.inl ⟨rfl, unexecuted⟩, ?_, ?_, ?_, ?_⟩
      · intro service method found is
        cases is
      · rw [finishes_concat, unfinished]
        rfl
      · intro info found
        cases found
      · intro info reply found
        cases found
  · intro i beyond
    rw [List.length_append, List.length_singleton] at beyond
    rw [finishes_concat]
    obtain ⟨unexecuted, unfinished⟩ := old.fresh i (by omega)
    exact ⟨unexecuted, by rw [unfinished]; rfl⟩

theorem Orderly.act {act : Act} (old : Orderly events rn) (run : after events = some rn)
    (here : rn.requests[i]? = some r) (acted : Acted rn rn' i act r r') :
    Orderly (events ++ [.act i act]) rn' := by
  have within := (List.getElem?_eq_some_iff.mp here).1
  refine ⟨?_, ?_, ?_⟩
  · intro j there is
    rcases acted.request_cases is with ⟨rfl, rfl⟩ | ⟨_, before⟩
    · exact acted.moves.consistent (old.consistent j r here)
    · exact old.consistent j there before
  · intro j there is
    rcases acted.request_cases is with ⟨rfl, rfl⟩ | ⟨other, before⟩
    · exact acted.served run here (old.consistent j r here) (old.served j r here)
    · exact (old.served j there before).later (acted.executions_other other) (finishes_other other)
  · intro j beyond
    rw [acted.requests, List.length_set] at beyond
    have other : i ≠ j := by omega
    rw [acted.executions_other other, finishes_concat, finishes_other other, List.append_nil]
    exact old.fresh j beyond

theorem orderly (run : after events = some rn) : Orderly events rn := by
  refine exec_history (P := Orderly) Orderly.start ?_ run
  intro before u event v reached old next
  rcases step_cases old.consistent next with
    ⟨i, act, r, r', rfl, here, acted⟩ | ⟨e, m, a, rfl, rfl⟩ | ⟨other, arranged⟩
  · exact old.act reached here acted
  · exact old.call e m a
  · exact old.arrange arranged other

/-- The handler of a call is called at most once. If the call returns true, it was called
exactly once, at the server that this call's `processReq` found when it read about the
end, with the encoded arguments of the call. What the call returns is what that handler
returned, and the last check of this call found the server alive after that. -/
theorem call_executes_once (run : after events = some rn) (here : rn.requests[i]? = some r) :
    (executions i rn.executed).length ≤ 1 ∧ ∀ reply, r.progress = .returned (some reply) →
      ∃ info service method, r.info = some info ∧ splitMethod r.svcMeth = some (service, method) ∧
        executions i rn.executed = [⟨i, info.server, service, method, r.args⟩] ∧
        finishes i events = [reply] ∧
        SeenAt events (.act i .read) (fun u => u.readEndnameInfo r.endname = some info ∧
          ∃ old, u.requests[i]? = some old ∧ old.info = none) ∧
        SeenAt events (.act i .lastCheck) (fun u => u.isServerDead r.endname info = false ∧
          ∃ old, u.requests[i]? = some old ∧ old.handler = .received reply) := by
  have consistent := (orderly run).consistent i r here
  have served := (orderly run).served i r here
  refine ⟨?_, fun reply returned => ?_⟩
  · rcases served.recorded with ⟨_, none⟩ | ⟨_, _, _, _, _, _, one⟩
    · rw [none]
      exact Nat.zero_le 1
    · rw [one]
      exact Nat.le_refl 1
  · have passed : r.progress.reply = some reply := by rw [returned]; rfl
    have received := (consistent.of_reply passed).1
    rcases served.recorded with ⟨uncalled, _⟩ | ⟨info, service, method, _, found, split, one⟩
    · simp [Request.called, received] at uncalled
    · refine ⟨info, service, method, found, split, one, ?_, served.located info found,
        served.passed info reply found passed⟩
      rw [served.finished, received]
      rfl

/-- One service `K` with the method `G`, and the end and the name of its server are `0`. -/
def setUp : List (Event (Fin 1) (Fin 1)) :=
  [.makeServer, .addService 0 ⟨[75], fun method => method == [71]⟩, .addServer 0 0, .makeEnd 0, .connect 0 0,
    .enable 0 true]

/-- The steps of the call `i` until its handler runs. -/
def entered (i : Nat) : List (Event (Fin 1) (Fin 1)) :=
  [.act i .accept, .act i .count, .act i .start, .act i .read, .act i .spawn, .act i .dispatch, .act i .invoke]

/-- A call of `K.G` that is answered. -/
def answered : List (Event (Fin 1) (Fin 1)) :=
  setUp ++ [.call 0 [75, 46, 71] [1, 2]] ++ entered 0 ++ [.act 0 .tick, .act 0 (.finish [7]), .act 0 .receive,
    .act 0 .lastCheck, .act 0 .answer, .act 0 .deliver]

/-- A call whose handler has returned to `processReq` when the server is deleted, and a call
that has passed the last check by then. -/
def crossing : List (Event (Fin 1) (Fin 1)) :=
  setUp ++ [.call 0 [75, 46, 71] [1], .call 0 [75, 46, 71] [2]] ++ entered 0 ++ entered 1 ++
    [.act 0 (.finish [7]), .act 1 (.finish [8]), .act 0 .receive, .act 1 .receive, .act 1 .lastCheck, .deleteServer 0]

/-- A call that is counted everywhere and whose handler is not called yet. -/
def entering : List (Event (Fin 1) (Fin 1)) :=
  setUp ++ [.call 0 [75, 46, 71] [1, 2], .call 0 [75, 46, 71] []] ++ (entered 0).dropLast ++ [.act 1 .accept]

/-- The progress of the call `i` after these events. -/
def progressOf (events : List (Event E N)) (i : Nat) : Option Progress := do
  let rn ← after events
  let r ← rn.requests[i]?
  some r.progress

theorem progressOf_eq_some {progress : Progress} (is : progressOf events i = some progress) :
    ∃ rn r, after events = some rn ∧ rn.requests[i]? = some r ∧ r.progress = progress := by
  obtain ⟨rn, run, is⟩ := Option.bind_eq_some_iff.mp is
  obtain ⟨r, here, is⟩ := Option.bind_eq_some_iff.mp is
  exact ⟨rn, r, run, here, Option.some.inj is⟩

theorem progressOf_append {progress : Progress} {later : List (Event E N)}
    (is : progressOf (events ++ later) i = some progress) :
    ∃ t rn r, after events = some t ∧ exec step t later = some rn ∧ rn.requests[i]? = some r ∧
      r.progress = progress := by
  obtain ⟨rn, r, run, here, is⟩ := progressOf_eq_some is
  rw [after, exec_append] at run
  obtain ⟨t, first, rest⟩ := Option.bind_eq_some_iff.mp run
  exact ⟨t, rn, r, first, rest, here, is⟩

theorem call_executes_once_answered : ∃ rn r, after answered = some rn ∧ rn.requests[0]? = some r ∧
    r.progress = .returned (some [7]) ∧ (executions 0 rn.executed).length ≤ 1 ∧ finishes 0 answered = [[7]] := by
  obtain ⟨rn, r, run, here, is⟩ := progressOf_eq_some
    (by decide +kernel : progressOf answered 0 = some (.returned (some [7])))
  obtain ⟨once, returned⟩ := call_executes_once run here
  obtain ⟨_, _, _, _, _, _, finished, _⟩ := returned [7] is
  exact ⟨rn, r, run, here, is, once, finished⟩

/-- What the counters count. -/
structure Counted (rn : Network E N) : Prop where
  sent : ∃ n, rn.requests.countP Request.sent = n + rn.listener.uncounted ∧ rn.count = Int32.ofNat n
  traffic : rn.bytes = Int64.ofNat (rn.requests.map Request.traffic).sum
  called : rn.executed.length = rn.requests.countP Request.called
  servers : ∀ s, ((rn.heap.map (·.count))[s]?).getD 0 =
    rn.executed.countP (·.server == s) + rn.requests.countP (Request.entering s)

section
omit [DecidableEq E] [DecidableEq N]

theorem Counted.act_sent {act : Act} (old : Counted rn) (here : rn.requests[i]? = some r)
    (acted : Acted rn rn' i act r r') :
    ∃ n, rn'.requests.countP Request.sent = n + rn'.listener.uncounted ∧ rn'.count = Int32.ofNat n := by
  have sent := countP_set_add here r' Request.sent
  rw [← acted.requests] at sent
  obtain ⟨n, total, count⟩ := old.sent
  rcases acted.tallies.count with ⟨same, moved⟩ | ⟨more, was, now, same⟩
  · exact ⟨n, by omega, same.trans count⟩
  · rw [same] at sent
    refine ⟨n + 1, by omega, ?_⟩
    rw [more, count, Int32.ofNat_add]
    rfl

theorem Counted.act_called {act : Act} (old : Counted rn) (here : rn.requests[i]? = some r)
    (acted : Acted rn rn' i act r r') : rn'.executed.length = rn'.requests.countP Request.called := by
  have called := countP_set_add here r' Request.called
  rw [← acted.requests] at called
  have before := old.called
  cases acted.serves with
  | other same _ is =>
    rw [is] at called
    rw [same]
    omega
  | dispatch spawned _ _ _ now same =>
    have was : r.called = false := by simp [Request.called, spawned]
    have is : r'.called = false := by rw [now]; rfl
    rw [was, is] at called
    rw [same]
    omega
  | invoke dispatched _ now more =>
    have was : r.called = false := by simp [Request.called, dispatched]
    have is : r'.called = true := by rw [now]; rfl
    rw [was, is, Bool.toNat_true, Bool.toNat_false] at called
    rw [more, List.length_append, List.length_singleton]
    omega

theorem Counted.act_servers {act : Act} (old : Counted rn) (here : rn.requests[i]? = some r)
    (acted : Acted rn rn' i act r r') (s : Nat) :
    ((rn'.heap.map (·.count))[s]?).getD 0 =
      rn'.executed.countP (·.server == s) + rn'.requests.countP (Request.entering s) := by
  have entering := countP_set_add here r' (Request.entering s)
  rw [← acted.requests] at entering
  have before := old.servers s
  cases acted.serves with
  | other same heap _ is =>
    rw [is s] at entering
    rw [same, heap]
    omega
  | @dispatch info rs service method found spawned known _ there now same heap =>
    have was : r.entering s = false := by simp [Request.entering, spawned]
    have is : r'.entering s = (info.server == s) := by rw [now]; simp [Request.entering, known]
    rw [was, is] at entering
    rw [same, heap, List.map_set, List.getElem?_set]
    obtain ⟨within, held⟩ := List.getElem?_eq_some_iff.mp there
    split
    next at_ =>
      subst at_
      have count : ((rn.heap.map (·.count))[info.server]?).getD 0 = rs.count := by simp [within, held]
      simp only [beq_self_eq_true, Bool.toNat_true, Bool.toNat_false, List.length_map, within, if_true,
        Option.getD_some] at entering ⊢
      omega
    next other =>
      simp only [beq_eq_false_iff_ne.mpr other, Bool.toNat_false] at entering
      omega
  | @invoke info service method found dispatched known now more heap =>
    have was : r.entering s = (info.server == s) := by simp [Request.entering, dispatched, known]
    have is : r'.entering s = false := by rw [now]; rfl
    rw [was, is] at entering
    rw [more, heap, before, List.countP_append, List.countP_singleton]
    cases at_ : info.server == s <;> simp [at_] at entering ⊢ <;> omega

theorem Counted.act {act : Act} (old : Counted rn) (here : rn.requests[i]? = some r)
    (acted : Acted rn rn' i act r r') : Counted rn' where
  sent := old.act_sent here acted
  traffic := by
    obtain ⟨more, bytes, traffic⟩ := acted.tallies.bytes
    have sum := sum_set_add here r' Request.traffic
    rw [← acted.requests, traffic] at sum
    rw [bytes, old.traffic, ← Int64.ofNat_add]
    congr 1
    omega
  called := old.act_called here acted
  servers := old.act_servers here acted

theorem Counted.arrange (old : Counted rn) (arranged : Arranged rn rn' event) : Counted rn' where
  sent := by
    rw [arranged.count, arranged.requests, arranged.uncounted]
    exact old.sent
  traffic := by rw [arranged.bytes, arranged.requests, old.traffic]
  called := by rw [arranged.executed, arranged.requests, old.called]
  servers := by
    intro s
    rw [arranged.executed, arranged.requests, ← old.servers s]
    rcases arranged.heap with same | more
    · rw [same]
    · rw [more, List.getElem?_append]
      split
      next => rfl
      next beyond =>
        rw [List.getElem?_eq_none (by omega : _ ≤ s)]
        cases s - (rn.heap.map (·.count)).length <;> rfl

theorem Counted.call (old : Counted rn) (endname : E) (svcMeth args : GoString) :
    Counted { rn with requests := rn.requests ++ [newRequest endname svcMeth args] } where
  sent := by
    rw [List.countP_append]
    exact old.sent
  traffic := by
    rw [List.map_append, List.sum_append]
    exact old.traffic
  called := by
    rw [List.countP_append]
    exact old.called
  servers := by
    intro s
    rw [List.countP_append]
    exact old.servers s

end

theorem counted (run : after events = some rn) : Counted rn := by
  refine exec_history (P := fun _ u => Counted u) ⟨⟨0, rfl, rfl⟩, rfl, rfl, fun _ => rfl⟩ ?_ run
  intro before u event v reached old next
  rcases step_cases (orderly reached).consistent next with
    ⟨i, act, r, r', rfl, here, acted⟩ | ⟨e, m, a, rfl, rfl⟩ | ⟨_, arranged⟩
  · exact old.act here acted
  · exact old.call e m a
  · exact old.arrange arranged

/-- What the statistics say at any moment. The total count is the number of the requests that
the network goroutine has received, without the one that it is about to count, as an
`int32`. The bytes are those of the arguments and the replies of all calls, as an `int64`.
The count of a server is the number of handlers that were called there, and of the calls
that `Server.dispatch` has counted and `Service.dispatch` has still to decode. No handler
is called for a request that was not received. -/
theorem counts_agree (run : after events = some rn) :
    (∃ n, rn.requests.countP Request.sent = n + rn.listener.uncounted ∧
      rn.getTotalCount = (n : Int).bmod Int32.size) ∧
    rn.getTotalBytes = (((rn.requests.map Request.traffic).sum : Nat) : Int).bmod Int64.size ∧
    (∀ servername n, rn.getCount servername = some n →
      ∃ server, rn.servers servername = some server ∧
        n = rn.executed.countP (·.server == server) + rn.requests.countP (Request.entering server)) ∧
    rn.executed.length ≤ rn.requests.countP Request.sent := by
  have counts := counted run
  refine ⟨?_, ?_, ?_, ?_⟩
  · obtain ⟨n, total, count⟩ := counts.sent
    refine ⟨n, total, ?_⟩
    rw [getTotalCount, count, Int32.toInt_ofNat']
  · rw [getTotalBytes, counts.traffic, Int64.toInt_ofNat']
  · intro servername n is
    obtain ⟨server, there, is⟩ := Option.bind_eq_some_iff.mp is
    obtain ⟨rs, here, same⟩ := Option.bind_eq_some_iff.mp is
    cases same
    have total := counts.servers server
    rw [List.getElem?_map, here] at total
    exact ⟨server, there, total⟩
  · rw [counts.called]
    refine List.countP_mono_left ?_
    intro r member called
    obtain ⟨i, here⟩ := List.mem_iff_getElem?.mp member
    exact ((orderly run).consistent i r here).sent_of_called called

/-- Two requests are received and one of them is counted, in total and by the server, and no
handler is called yet. -/
theorem counts_agree_entering : ∃ rn, after entering = some rn ∧ rn.executed.length = 0 ∧
    rn.getCount 0 = some 1 ∧ rn.requests.countP Request.sent = 2 ∧ rn.getTotalCount = 1 ∧
    ∃ n, 2 = n + rn.listener.uncounted ∧ rn.getTotalCount = (n : Int).bmod Int32.size := by
  have observed : (after entering).any (fun rn => decide (rn.executed.length = 0 ∧ rn.getCount 0 = some 1 ∧
      rn.requests.countP Request.sent = 2 ∧ rn.getTotalCount = 1)) = true := by decide +kernel
  obtain ⟨rn, run, seen⟩ := Option.any_eq_true _ _ |>.mp observed
  obtain ⟨none, one, two, total⟩ := of_decide_eq_true seen
  have counts := (counts_agree run).1
  rw [two] at counts
  exact ⟨rn, run, none, one, two, total, counts⟩

end Network

end DistSys.Labrpc
