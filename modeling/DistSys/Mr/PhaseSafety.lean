import DistSys.Mr.Phases

namespace DistSys.Mr.Coordinator

variable {c c' : Coordinator} {a : Action} {as : List Action} {t task : Task} {tracer : Tracer}
variable {i k : Nat} {s s' : TraceState}

theorem eraseIdx_perm {α : Type*} {l : List α} {x : α} (here : l[k]? = some x) :
    (x :: l.eraseIdx k).Perm l := by
  obtain ⟨bound, rfl⟩ := List.getElem?_eq_some_iff.mp here
  exact List.getElem_cons_eraseIdx_perm bound

/-- A tracer keeps its task. -/
theorem map_task_set {l : List Tracer} (here : l[k]? = some ⟨task, s⟩) :
    (l.set k ⟨task, s'⟩).map Tracer.task = l.map Tracer.task := by
  rw [List.map_set]
  refine List.ext_getElem? fun j => ?_
  by_cases same : k = j
  · subst same
    have bound := (List.getElem?_eq_some_iff.mp here).1
    rw [List.getElem?_set_self (by rwa [List.length_map]), List.getElem?_map, here, Option.map_some]
  · rw [List.getElem?_set_ne same]

/-- Other tracers stay as they are. -/
theorem mem_set_of_ne {l : List Tracer} {new : Tracer} (here : l[k]? = some ⟨task, s⟩)
    (member : tracer ∈ l) (other : tracer ≠ ⟨task, s⟩) : tracer ∈ l.set k new := by
  obtain ⟨j, there⟩ := List.mem_iff_getElem?.mp member
  have away : k ≠ j := by
    rintro rfl
    cases here.symm.trans there
    exact other rfl
  rw [← List.getElem?_set_ne away] at there
  exact List.mem_of_getElem? there

theorem countedOf_set {l : List Tracer} (new : Tracer) (here : l[k]? = some ⟨task, s⟩)
    (p : Tracer → Bool) (before : p ⟨task, s⟩ = false) :
    (l.set k new).countP p = l.countP p + if p new then 1 else 0 := by
  obtain ⟨bound, is⟩ := List.getElem?_eq_some_iff.mp here
  rw [List.countP_set bound, is, before]
  simp

/-- Two tracers never meet. -/
theorem Conserved.not_relay {sender : Nat} (conserved : Conserved c)
    (here : c.tracers[k]? = some ⟨task, .waiting⟩) :
    c.tracers[sender]? ≠ some ⟨task, .sending⟩ := by
  intro there
  have same := conserved.unique here there rfl
  subst same
  cases here.symm.trans there

/-- What is counted stays counted. -/
theorem Counted.moves (counted : c.Counted t) (conserved : Conserved c) (moves : Moves c a c') :
    c'.Counted t := by
  obtain ⟨tracer, member, is, passed⟩ := counted
  have different {task : Task} (state : TraceState) (before : Tracer.counted ⟨task, state⟩ = false) :
      tracer ≠ ⟨task, state⟩ := by
    rintro rfl
    rw [before] at passed
    cases passed
  cases moves with
  | request | wait | lock | stop | giveUp | report => exact ⟨tracer, member, is, passed⟩
  | advance =>
    refine ⟨tracer, ?_, is, passed⟩
    rcases nextPhase_cases c with ⟨_, same⟩ | ⟨_, same⟩
    · simp only [same]
      exact member
    · simp only [same]
      exact member
  | dispatch => exact ⟨tracer, List.mem_append_left _ member, is, passed⟩
  | receive here => exact ⟨tracer, mem_set_of_ne here member (different .waiting rfl), is, passed⟩
  | relay here there => exact absurd there (conserved.not_relay here)
  | count here => exact ⟨tracer, mem_set_of_ne here member (different .received rfl), is, passed⟩
  | timeout here =>
    rcases List.mem_cons.mp ((eraseIdx_perm here).mem_iff.mpr member) with same | other
    · exact absurd same (different .waiting rfl)
    · exact ⟨tracer, other, is, passed⟩

theorem Conserved.same (conserved : Conserved c) (files : c'.files = c.files) (nR : c'.nR = c.nR)
    (phase : c'.phase ≠ .map ↔ c.phase ≠ .map)
    (tokens : ∀ t, t.taskType ≠ .finished → c'.tokens t = c.tokens t)
    (traced : ∀ tracer ∈ c'.tracers, tracer.task.taskType ≠ .finished) : Conserved c' := by
  have started (t : Task) : c'.Started t ↔ c.Started t := by
    unfold Started mM
    rw [files, nR, phase]
  constructor
  case one =>
    intro t is
    have real : t.taskType ≠ .finished := by
      rcases is with map | ⟨_, reduce⟩
      · rw [(mem_tasksOf.mp map).1]
        exact TaskType.noConfusion
      · rw [(mem_tasksOf.mp reduce).1]
        exact TaskType.noConfusion
    rw [tokens t real]
    exact conserved.one ((started t).mp is)
  case none =>
    intro t real isNot
    rw [tokens t real]
    exact conserved.none real fun is => isNot ((started t).mpr is)
  case traced => exact traced

/-- The reduce tasks get their tokens when the map phase ends. -/
theorem Conserved.toReduce (conserved : Conserved c) (mapping : c.phase = .map)
    (files : c'.files = c.files) (nR : c'.nR = c.nR) (phase : c'.phase = .reduce)
    (taskCh : c'.taskCh = c.taskCh ++ tasksOf .reduce c.nR) (tracers : c'.tracers = c.tracers) :
    Conserved c' := by
  have tokens (t : Task) : c'.tokens t = c.tokens t + (tasksOf .reduce c.nR).count t := by
    unfold Coordinator.tokens
    rw [taskCh, tracers, List.count_append]
    omega
  have after (t : Task) : c'.Started t ↔ t ∈ tasksOf .map c.mM ∨ t ∈ tasksOf .reduce c.nR := by
    unfold Started mM
    rw [files, nR, phase]
    simp
  have before (t : Task) : c.Started t ↔ t ∈ tasksOf .map c.mM :=
    ⟨fun is => is.resolve_right fun later => later.1 mapping, Or.inl⟩
  constructor
  case one =>
    intro t is
    rw [tokens]
    rcases (after t).mp is with map | reduce
    · have absent : t ∉ tasksOf .reduce c.nR := by
        intro inside
        have type := (mem_tasksOf.mp map).1
        rw [(mem_tasksOf.mp inside).1] at type
        cases type
      rw [conserved.one ((before t).mpr map), List.count_eq_zero_of_not_mem absent]
    · have absent : ¬ c.Started t := by
        rw [before]
        intro inside
        have type := (mem_tasksOf.mp reduce).1
        rw [(mem_tasksOf.mp inside).1] at type
        cases type
      have real : t.taskType ≠ .finished := by
        rw [(mem_tasksOf.mp reduce).1]
        exact TaskType.noConfusion
      rw [conserved.none real absent, List.count_eq_one_of_mem (nodup_tasksOf _ _) reduce]
  case none =>
    intro t real isNot
    rw [after, not_or] at isNot
    rw [tokens, List.count_eq_zero_of_not_mem isNot.2]
    exact conserved.none real fun is => isNot.1 ((before t).mp is)
  case traced =>
    rw [tracers]
    exact conserved.traced

theorem Conserved.traced_set (conserved : Conserved c) (here : c.tracers[k]? = some ⟨task, s⟩) :
    ∀ tracer ∈ c.tracers.set k ⟨task, s'⟩, tracer.task.taskType ≠ .finished := by
  intro tracer member
  rcases List.mem_or_eq_of_mem_set member with old | rfl
  · exact conserved.traced tracer old
  · have real := conserved.traced _ (List.mem_of_getElem? here)
    exact real

/-- No step makes or loses a token. -/
theorem Conserved.moves (conserved : Conserved c) (moves : Moves c a c') : Conserved c' := by
  cases moves with
  | request | wait | lock | giveUp | report =>
    exact ⟨conserved.one, conserved.none, conserved.traced⟩
  | advance =>
    rcases nextPhase_cases c with ⟨phase, same⟩ | ⟨phase, same⟩
    · rw [same]
      exact conserved.toReduce phase rfl rfl rfl rfl rfl
    · rw [same]
      refine conserved.same rfl rfl ⟨fun _ => phase, fun _ => TaskType.noConfusion⟩ (fun t real => ?_)
        conserved.traced
      have absent : t ∉ [(⟨.finished, -1⟩ : Task)] := by
        intro inside
        rw [List.mem_singleton.mp inside] at real
        exact real rfl
      simp only [tokens, List.count_append, List.count_eq_zero_of_not_mem absent, Nat.add_zero]
  | @dispatch i task _ queued real =>
    refine conserved.same rfl rfl Iff.rfl (fun t _ => ?_) fun tracer member => ?_
    · unfold tokens
      rw [List.map_append, List.count_append]
      have positive := List.count_pos_iff.mpr queued
      by_cases same : t = task
      · subst same
        simp only [List.count_erase_self, List.map_cons, List.map_nil, List.count_singleton_self]
        omega
      · have other : task ≠ t := fun is => same is.symm
        simp [List.count_erase_of_ne same, other]
    · rcases List.mem_append.mp member with old | new
      · exact conserved.traced tracer old
      · rw [List.mem_singleton.mp new]
        exact real
  | @stop i task _ last =>
    refine conserved.same rfl rfl Iff.rfl (fun t real => ?_) conserved.traced
    have other : t ≠ task := by
      rintro rfl
      exact real last
    simp only [tokens, List.count_erase_of_ne other]
  | receive here =>
    refine conserved.same rfl rfl Iff.rfl (fun t _ => ?_) (conserved.traced_set here)
    simp only [tokens, map_task_set here]
  | relay here there => exact absurd there (conserved.not_relay here)
  | count here =>
    refine conserved.same rfl rfl Iff.rfl (fun t _ => ?_) (conserved.traced_set here)
    simp only [tokens, map_task_set here]
  | @timeout k task here =>
    refine conserved.same rfl rfl Iff.rfl (fun t _ => ?_) fun tracer member => ?_
    · have count := ((eraseIdx_perm here).map Tracer.task).count_eq t
      rw [List.map_cons, List.count_cons] at count
      simp only [tokens, List.count_append, List.count_singleton, ← count]
      omega
    · exact conserved.traced tracer (List.mem_of_mem_eraseIdx member)

/-! The counter -/

theorem started_map (type : t.taskType = .map) (started : c.Started t) : t ∈ tasksOf .map c.mM := by
  rcases started with map | ⟨_, reduce⟩
  · exact map
  · rw [(mem_tasksOf.mp reduce).1] at type
    cases type

theorem started_reduce (type : t.taskType = .reduce) (started : c.Started t) :
    c.phase ≠ .map ∧ t ∈ tasksOf .reduce c.nR := by
  rcases started with map | reduce
  · rw [(mem_tasksOf.mp map).1] at type
    cases type
  · exact reduce

/-- The counter never passes the number of tasks of a phase, and has reached it only
if all of them are counted. -/
theorem Tallied.bounded (tallied : Tallied c) (conserved : Conserved c) (going : c.phase ≠ .finished) :
    c.taskFinished ≤ c.taskQuantity ∧
      (c.taskFinished = c.taskQuantity → ∀ t, t.taskType = c.phase → c.Started t → c.Counted t) := by
  cases phase : c.phase with
  | finished => exact absurd phase going
  | map =>
    obtain ⟨quantity, finished⟩ := tallied.map phase
    have most := conserved.countedOf_le .map (by simp) (started_map ·)
    refine ⟨by omega, fun complete t type started => ?_⟩
    exact conserved.all_counted .map (by simp) (started_map ·) (by omega) t
      (started_map type started)
  | reduce =>
    obtain ⟨quantity, finished⟩ := tallied.reduce phase
    have most := conserved.countedOf_le .reduce (by simp) fun type started =>
      (started_reduce type started).2
    refine ⟨by omega, fun complete t type started => ?_⟩
    exact conserved.all_counted .reduce (by simp)
      (fun type started => (started_reduce type started).2) (by omega) t
      (started_reduce type started).2

/-- A tracer that has not counted its task belongs to the present phase, which is
not complete. -/
theorem Tallied.incomplete (tallied : Tallied c) (conserved : Conserved c)
    (here : c.tracers[k]? = some tracer) (uncounted : tracer.counted = false) :
    c.phase = tracer.task.taskType ∧ c.taskFinished ≠ c.taskQuantity := by
  have member := List.mem_of_getElem? here
  have real := conserved.traced tracer member
  have started := conserved.started real (tokens_pos_of_tracer member)
  have not := conserved.not_counted here uncounted
  have present : c.phase = tracer.task.taskType := by
    cases type : tracer.task.taskType with
    | finished => exact absurd type real
    | map =>
      by_contra later
      exact not (tallied.mapped later _ (started_map type started))
    | reduce =>
      obtain ⟨later, inside⟩ := started_reduce type started
      cases phase : c.phase with
      | map => exact absurd phase later
      | reduce => rfl
      | finished => exact absurd (tallied.reduced phase _ inside) not
  refine ⟨present, fun complete => not ?_⟩
  exact (tallied.bounded conserved (by rwa [present])).2 complete _ present.symm started

theorem Tallied.same (tallied : Tallied c) (conserved : Conserved c) (moves : Moves c a c')
    (files : c'.files = c.files) (nR : c'.nR = c.nR) (phase : c'.phase = c.phase)
    (quantity : c'.taskQuantity = c.taskQuantity) (finished : c'.taskFinished = c.taskFinished)
    (counted : ∀ type, c'.countedOf type = c.countedOf type) : Tallied c' := by
  have mM : c'.mM = c.mM := by rw [Coordinator.mM, files, Coordinator.mM]
  constructor
  case map => rw [phase, quantity, finished, mM, counted]; exact tallied.map
  case reduce => rw [phase, quantity, finished, nR, counted]; exact tallied.reduce
  case finished => rw [phase, quantity, finished]; exact tallied.finished
  case mapped =>
    rw [phase, mM]
    exact fun later t member => (tallied.mapped later t member).moves conserved moves
  case reduced =>
    rw [phase, nR]
    exact fun done t member => (tallied.reduced done t member).moves conserved moves

theorem Tallied.count (tallied : Tallied c) (conserved : Conserved c)
    (here : c.tracers[k]? = some ⟨task, .received⟩) :
    Tallied { c with tracers := c.tracers.set k ⟨task, .sending⟩, taskFinished := c.taskFinished + 1 } := by
  have moves : Moves c (.count k) _ := .count here
  obtain ⟨present, _⟩ := tallied.incomplete conserved here rfl
  have counted (type : TaskType) : ({ c with
      tracers := c.tracers.set k ⟨task, .sending⟩
      taskFinished := c.taskFinished + 1 } : Coordinator).countedOf type =
      c.countedOf type + if task.taskType = type then 1 else 0 := by
    have one := countedOf_set ⟨task, .sending⟩ here (fun tracer =>
      tracer.counted && tracer.task.taskType = type) rfl
    simpa [Coordinator.countedOf, Tracer.counted] using one
  have phase : c.phase = task.taskType := present
  constructor
  case map =>
    intro mapping
    obtain ⟨quantity, finished⟩ := tallied.map mapping
    refine ⟨quantity, ?_⟩
    rw [counted, if_pos (phase.symm.trans mapping)]
    simp only
    omega
  case reduce =>
    intro reducing
    obtain ⟨quantity, finished⟩ := tallied.reduce reducing
    refine ⟨quantity, ?_⟩
    rw [counted, if_pos (phase.symm.trans reducing)]
    simp only
    omega
  case finished =>
    intro done
    exact absurd (phase.symm.trans done) (conserved.traced _ (List.mem_of_getElem? here))
  case mapped => exact fun later t member => (tallied.mapped later t member).moves conserved moves
  case reduced => exact fun done t member => (tallied.reduced done t member).moves conserved moves

/-- A phase begins with nothing counted, and the one before is complete. -/
theorem Tallied.advance (tallied : Tallied c) (conserved : Conserved c) (locked : Locked c)
    (here : c.calls[i]? = some .locked) :
    Tallied { c.nextPhase with calls := c.calls.set i .selecting, phaseLock := none } := by
  have complete := locked.complete (locked.holder here)
  have moves : Moves c (.advance i) _ := .advance here
  rcases nextPhase_cases c with ⟨phase, same⟩ | ⟨phase, same⟩
  · have all := (tallied.bounded conserved (by rw [phase]; exact TaskType.noConfusion)).2 complete
    have none : c.countedOf .reduce = 0 := by
      refine List.countP_eq_zero.mpr fun tracer member is => ?_
      rw [Bool.and_eq_true, decide_eq_true_eq] at is
      have started := conserved.started (conserved.traced tracer member) (tokens_pos_of_tracer member)
      exact (started_reduce is.2 started).1 phase
    rw [same] at moves ⊢
    constructor
    case map => intro mapping; cases mapping
    case reduce => exact fun _ => ⟨rfl, congrArg Int.ofNat none.symm⟩
    case finished => intro done; cases done
    case mapped =>
      intro _ t member
      have type : t.taskType = c.phase := (mem_tasksOf.mp member).1.trans phase.symm
      exact (all t type (Or.inl member)).moves conserved moves
    case reduced => intro done; cases done
  · rw [same] at moves ⊢
    constructor
    case map => intro mapping; cases mapping
    case reduce => intro reducing; cases reducing
    case finished => exact fun _ => ⟨rfl, rfl⟩
    case mapped => exact fun _ t member => (tallied.mapped phase t member).moves conserved moves
    case reduced =>
      intro _ t member
      refine Counted.moves ?_ conserved moves
      cases present : c.phase with
      | map => exact absurd present phase
      | finished => exact tallied.reduced present t member
      | reduce =>
        have all := (tallied.bounded conserved (by rw [present]; exact TaskType.noConfusion)).2 complete
        exact all t ((mem_tasksOf.mp member).1.trans present.symm) (Or.inr ⟨phase, member⟩)

theorem Tallied.moves (tallied : Tallied c) (conserved : Conserved c) (locked : Locked c)
    (moves : Moves c a c') : Tallied c' := by
  cases moves with
  | request | wait | lock | stop | giveUp | report =>
    exact ⟨tallied.map, tallied.reduce, tallied.finished, tallied.mapped, tallied.reduced⟩
  | advance here => exact tallied.advance conserved locked here
  | dispatch here queued real =>
    refine tallied.same conserved (.dispatch here queued real) rfl rfl rfl rfl rfl fun type => ?_
    simp [countedOf, Tracer.counted]
  | @receive k task here heard =>
    refine tallied.same conserved (.receive here heard) rfl rfl rfl rfl rfl fun type => ?_
    have none := countedOf_set ⟨task, .received⟩ here (fun tracer =>
      tracer.counted && tracer.task.taskType = type) rfl
    simpa [countedOf, Tracer.counted] using none
  | relay here there => exact absurd there (conserved.not_relay here)
  | count here => exact tallied.count conserved here
  | timeout here =>
    refine tallied.same conserved (.timeout here) rfl rfl rfl rfl rfl fun type => ?_
    have erased := (eraseIdx_perm here).countP_eq fun tracer =>
      tracer.counted && tracer.task.taskType = type
    rw [List.countP_cons_of_neg (by simp [Tracer.counted])] at erased
    exact erased

/-! The lock, the reports and the replies -/

/-- A call that moves to another state than the lock leaves the lock alone. -/
theorem Locked.setCall {call : CallState} (locked : Locked c) (other : call ≠ .locked)
    (calls : c'.calls = c.calls.set i call) (phaseLock : c'.phaseLock = c.phaseLock)
    (finished : c'.taskFinished = c.taskFinished) (quantity : c'.taskQuantity = c.taskQuantity) :
    Locked c' where
  holder := by
    intro j here
    rw [calls] at here
    by_cases same : i = j
    · subst same
      have bound : i < c.calls.length := by
        have inside := (List.getElem?_eq_some_iff.mp here).1
        rwa [List.length_set] at inside
      rw [List.getElem?_set_self bound] at here
      exact absurd (Option.some.inj here) other
    · rw [List.getElem?_set_ne same] at here
      rw [phaseLock]
      exact locked.holder here
  complete held := by
    rw [phaseLock] at held
    rw [finished, quantity]
    exact locked.complete held

theorem Locked.moves (locked : Locked c) (tallied : Tallied c) (conserved : Conserved c)
    (moves : Moves c a c') : Locked c' := by
  cases moves with
  | request =>
    refine ⟨fun {j} here => ?_, locked.complete⟩
    rcases getElem?_concat_cases here with old | ⟨_, new⟩
    · exact locked.holder old
    · cases new
  | wait | dispatch | stop | giveUp => exact locked.setCall CallState.noConfusion rfl rfl rfl rfl
  | @lock i here free complete =>
    refine ⟨fun {j} there => ?_, fun _ => complete⟩
    by_cases same : i = j
    · rw [same]
    · rw [List.getElem?_set_ne same] at there
      have held := locked.holder there
      rw [free] at held
      cases held
  | @advance i here =>
    refine ⟨fun {j} there => ?_, fun {j} held => by (cases held)⟩
    simp only at there
    by_cases same : i = j
    · subst same
      have bound := (List.getElem?_eq_some_iff.mp here).1
      rw [List.getElem?_set_self bound] at there
      cases there
    · rw [List.getElem?_set_ne same] at there
      have held := (locked.holder here).symm.trans (locked.holder there)
      exact absurd (Option.some.inj held) same
  | report | receive | timeout => exact ⟨locked.holder, locked.complete⟩
  | relay here there => exact absurd there (conserved.not_relay here)
  | count here =>
    refine ⟨locked.holder, fun {j} held => ?_⟩
    exact absurd (locked.complete held) (tallied.incomplete conserved here rfl).2

theorem Heard.moves (heard : Heard as c) (conserved : Conserved c) (moves : Moves c a c') :
    Heard (as ++ [a]) c' := by
  have later {t : Task} (before : Action.report t ∈ as) : Action.report t ∈ as ++ [a] :=
    List.mem_append_left _ before
  have old : Heard (as ++ [a]) c :=
    ⟨fun t member => later (heard.reports t member), fun tracer member past =>
      later (heard.tracers tracer member past)⟩
  cases moves with
  | request | wait | lock | stop | giveUp => exact ⟨old.reports, old.tracers⟩
  | advance =>
    rcases nextPhase_cases c with ⟨_, same⟩ | ⟨_, same⟩
    · rw [same]
      exact ⟨old.reports, old.tracers⟩
    · rw [same]
      exact ⟨old.reports, old.tracers⟩
  | dispatch =>
    refine ⟨old.reports, fun tracer member past => ?_⟩
    rcases List.mem_append.mp member with before | new
    · exact old.tracers tracer before past
    · rw [List.mem_singleton.mp new] at past
      exact absurd rfl past
  | @report task =>
    refine ⟨fun t member => ?_, old.tracers⟩
    rcases List.mem_append.mp member with before | new
    · exact old.reports t before
    · rw [List.mem_singleton.mp new]
      exact List.mem_append_right _ (List.mem_singleton.mpr rfl)
  | receive here reported =>
    refine ⟨fun t member => old.reports t (List.mem_of_mem_erase member), fun tracer member past => ?_⟩
    rcases List.mem_or_eq_of_mem_set member with before | rfl
    · exact old.tracers tracer before past
    · exact old.reports _ reported
  | relay here there => exact absurd there (conserved.not_relay here)
  | count here =>
    refine ⟨old.reports, fun tracer member past => ?_⟩
    rcases List.mem_or_eq_of_mem_set member with before | rfl
    · exact old.tracers tracer before past
    · have received := old.tracers _ (List.mem_of_getElem? here) TraceState.noConfusion
      exact received
  | timeout =>
    exact ⟨old.reports, fun tracer member past => old.tracers tracer (List.mem_of_mem_eraseIdx member) past⟩

/-- The coordinator never goes back to the map phase. -/
theorem Moves.past_map (moves : Moves c a c') (conserved : Conserved c) (later : c.phase ≠ .map) :
    c'.phase ≠ .map := by
  cases moves with
  | advance =>
    rcases nextPhase_cases c with ⟨_, same⟩ | ⟨_, same⟩
    · rw [same]
      exact TaskType.noConfusion
    · rw [same]
      exact TaskType.noConfusion
  | relay here there => exact absurd there (conserved.not_relay here)
  | _ => exact later

theorem Given.moves (given : Given c) (conserved : Conserved c) (moves : Moves c a c') : Given c' := by
  intro reply member type
  by_cases old : CallState.returned reply ∈ c.calls
  · exact moves.past_map conserved (given reply old type)
  · cases moves with
    | request =>
      rcases List.mem_append.mp member with before | new
      · exact absurd before old
      · cases List.mem_singleton.mp new
    | @dispatch i task _ queued real =>
      rcases List.mem_or_eq_of_mem_set member with before | new
      · exact absurd before old
      · cases new
        exact (started_reduce type (conserved.started real (tokens_pos_of_queue queued))).1
    | stop _ last =>
      rcases List.mem_or_eq_of_mem_set member with before | new
      · exact absurd before old
      · cases new
        rw [getTaskReply, last] at type
        cases type
    | wait | lock | advance | giveUp =>
      rcases List.mem_or_eq_of_mem_set member with before | new
      · exact absurd before old
      · cases new
    | report | receive | count | timeout => exact absurd member old
    | relay here there => exact absurd there (conserved.not_relay here)

/-- All that is known of the coordinator after some actions. -/
structure Inv (files : List GoString) (nReduce : Nat) (as : List Action) (c : Coordinator) : Prop where
  files : c.files = files
  nR : c.nR = nReduce
  conserved : Conserved c
  tallied : Tallied c
  locked : Locked c
  heard : Heard as c
  given : Given c

theorem Moves.fixed (moves : Moves c a c') (conserved : Conserved c) :
    c'.files = c.files ∧ c'.nR = c.nR := by
  cases moves with
  | advance =>
    rcases nextPhase_cases c with ⟨_, same⟩ | ⟨_, same⟩
    · rw [same]
      exact ⟨rfl, rfl⟩
    · rw [same]
      exact ⟨rfl, rfl⟩
  | relay here there => exact absurd there (conserved.not_relay here)
  | _ => exact ⟨rfl, rfl⟩

theorem inv_makeCoordinator (files : List GoString) (nReduce : Nat) :
    Inv files nReduce [] (makeCoordinator files nReduce) := by
  have queue : (makeCoordinator files nReduce).taskCh = tasksOf .map files.length := by
    have positive : (files.length : Int) ≠ -1 := by omega
    simp [makeCoordinator, execPhase, positive]
  have tokens (t : Task) :
      (makeCoordinator files nReduce).tokens t = (tasksOf .map files.length).count t := by
    rw [Coordinator.tokens, queue]
    rfl
  have started (t : Task) :
      (makeCoordinator files nReduce).Started t ↔ t ∈ tasksOf .map files.length :=
    ⟨fun is => is.resolve_right fun later => later.1 rfl, Or.inl⟩
  constructor
  case files => rfl
  case nR => rfl
  case conserved =>
    refine ⟨fun {t} is => ?_, fun {t} _ isNot => ?_, fun tracer member => by (cases member)⟩
    · rw [tokens, List.count_eq_one_of_mem (nodup_tasksOf _ _) ((started t).mp is)]
    · rw [tokens, List.count_eq_zero_of_not_mem fun inside => isNot ((started t).mpr inside)]
  case tallied =>
    exact ⟨fun _ => ⟨rfl, rfl⟩, fun reducing => by (cases reducing), fun done => by (cases done),
      fun later => absurd rfl later, fun done => by (cases done)⟩
  case locked => exact ⟨fun here => by (cases here), fun held => by (cases held)⟩
  case heard => exact ⟨fun t member => by (cases member), fun tracer member => by (cases member)⟩
  case given => exact fun reply member => by (cases member)

theorem inv_after {files : List GoString} {nReduce : Nat} (run : after files nReduce as = some c) :
    Inv files nReduce as c := by
  refine exec_history (P := Inv files nReduce) (inv_makeCoordinator files nReduce) ?_ run
  intro as c a c' _ inv next
  have moves := moves_of_step next
  obtain ⟨sameFiles, sameR⟩ := moves.fixed inv.conserved
  exact ⟨sameFiles.trans inv.files, sameR.trans inv.nR, inv.conserved.moves moves,
    inv.tallied.moves inv.conserved inv.locked moves, inv.locked.moves inv.tallied inv.conserved moves,
    inv.heard.moves inv.conserved moves, inv.given.moves inv.conserved moves⟩

theorem Conserved.counted_le_one (conserved : Conserved c) (t : Task) :
    c.tracers.countP (fun tracer => tracer.task = t && tracer.counted) ≤ 1 := by
  have most := List.nodup_iff_count_le_one.mp conserved.nodup t
  rw [List.count_eq_countP, List.countP_map] at most
  refine le_trans (List.countP_mono_left fun tracer _ is => ?_) most
  rw [Bool.and_eq_true, decide_eq_true_eq] at is
  exact beq_iff_eq.mpr is.1

/-- The token of a task that is not counted is in the queue or with one active
tracer. -/
theorem Conserved.queued_or_traced (conserved : Conserved c) (started : c.Started t)
    (uncounted : ¬ c.Counted t) :
    (c.taskCh.count t = 1 ∧ c.tracers.countP (fun tracer => tracer.task = t && tracer.active) = 0) ∨
      (c.taskCh.count t = 0 ∧ c.tracers.countP (fun tracer => tracer.task = t && tracer.active) = 1) := by
  have one := conserved.one started
  have same : (c.tracers.map Tracer.task).count t =
      c.tracers.countP fun tracer => tracer.task = t && tracer.active := by
    rw [List.count_eq_countP, List.countP_map]
    refine List.countP_congr fun tracer member => ?_
    rw [Function.comp_apply, beq_iff_eq, Bool.and_eq_true, decide_eq_true_eq]
    refine ⟨fun is => ⟨is, ?_⟩, And.left⟩
    have passed : tracer.counted ≠ true := fun counted => uncounted ⟨tracer, member, is, counted⟩
    obtain ⟨task, state⟩ := tracer
    cases state with
    | waiting | received => rfl
    | sending | ended => exact absurd rfl passed
  rw [tokens, same] at one
  omega

theorem Inv.reported {files : List GoString} {nReduce : Nat} (inv : Inv files nReduce as c)
    (counted : c.Counted t) : Action.report t ∈ as := by
  obtain ⟨tracer, member, rfl, passed⟩ := counted
  refine inv.heard.tracers tracer member fun waits => ?_
  rw [Tracer.counted, waits] at passed
  cases passed

/-- The phases are safe, for any numbers of tasks and in every interleaving of
requests, dispatches, timeouts, and late or repeated reports. Every task is
counted at most once, so the counter cannot run past the number of tasks; a
task of the present phase that is not counted is either once in the queue or
has one active tracer; reduce tasks are given out only after every map task was
reported, and the job is done only after every reduce task was. -/
theorem coordinator_phase_safety {files : List GoString} {nReduce : Nat}
    (run : after files nReduce as = some c) :
    (∀ t, c.tracers.countP (fun tracer => tracer.task = t && tracer.counted) ≤ 1) ∧
    (¬ c.Done → c.taskFinished = c.countedOf c.phase ∧ c.taskFinished ≤ c.taskQuantity) ∧
    (∀ t ∈ tasksOf c.phase c.taskQuantity.toNat, ¬ c.Counted t →
      (c.taskCh.count t = 1 ∧ c.tracers.countP (fun tracer => tracer.task = t && tracer.active) = 0) ∨
      (c.taskCh.count t = 0 ∧ c.tracers.countP (fun tracer => tracer.task = t && tracer.active) = 1)) ∧
    (∀ reply, CallState.returned reply ∈ c.calls → reply.task.taskType = .reduce →
      ∀ t ∈ tasksOf .map files.length, Action.report t ∈ as) ∧
    (c.Done → ∀ t ∈ tasksOf .reduce nReduce, Action.report t ∈ as) := by
  have inv := inv_after run
  refine ⟨inv.conserved.counted_le_one, fun going => ⟨?_, (inv.tallied.bounded inv.conserved going).1⟩,
    fun t member uncounted => inv.conserved.queued_or_traced ?_ uncounted, ?_, ?_⟩
  · cases phase : c.phase with
    | map => exact (inv.tallied.map phase).2
    | reduce => exact (inv.tallied.reduce phase).2
    | finished => exact absurd phase going
  · cases phase : c.phase with
    | map =>
      rw [phase, (inv.tallied.map phase).1] at member
      exact Or.inl member
    | reduce =>
      rw [phase, (inv.tallied.reduce phase).1] at member
      exact Or.inr ⟨by rw [phase]; exact TaskType.noConfusion, member⟩
    | finished =>
      rw [(inv.tallied.finished phase).1] at member
      cases member
  · intro reply returned type t member
    refine inv.reported (inv.tallied.mapped (inv.given reply returned type) t ?_)
    rwa [mM, inv.files]
  · intro done t member
    refine inv.reported (inv.tallied.reduced done t ?_)
    rwa [inv.nR]

/-- Two map tasks and one reduce task. The second map task times out, is reported
late and once more, and is counted through its second tracer. -/
def lateReport : List Action :=
  [.request, .compare 0, .dispatch 0 ⟨.map, 0⟩, .request, .compare 1, .dispatch 1 ⟨.map, 1⟩,
    .report ⟨.map, 0⟩, .timeout 1, .receive 0, .count 0, .report ⟨.map, 1⟩, .request, .compare 2,
    .dispatch 2 ⟨.map, 1⟩, .receive 1, .report ⟨.map, 1⟩, .count 1, .request, .compare 3, .advance 3,
    .dispatch 3 ⟨.reduce, 0⟩, .report ⟨.reduce, 0⟩, .receive 2, .count 2, .request, .compare 4,
    .advance 4, .dispatch 4 ⟨.finished, -1⟩]

theorem coordinator_phase_safety_lateReport :
    ∃ c, after [[], []] 1 lateReport = some c ∧ c.Done ∧ c.reports = [⟨.map, 1⟩] ∧
      ∀ t ∈ tasksOf .reduce 1, Action.report t ∈ lateReport := by
  have runs : (after [[], []] 1 lateReport).isSome = true := by decide
  obtain ⟨c, run⟩ := Option.isSome_iff_exists.mp runs
  have done : c.Done := by
    have phase : (after [[], []] 1 lateReport).map Coordinator.phase = some .finished := by decide
    rw [run] at phase
    exact Option.some.inj phase
  have left : c.reports = [⟨.map, 1⟩] := by
    have reports : (after [[], []] 1 lateReport).map Coordinator.reports = some [⟨.map, 1⟩] := by decide
    rw [run] at reports
    exact Option.some.inj reports
  exact ⟨c, run, done, left, (coordinator_phase_safety run).2.2.2.2 done⟩

end DistSys.Mr.Coordinator
