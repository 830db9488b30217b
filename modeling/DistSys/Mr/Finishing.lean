import DistSys.Mr.Joint

namespace DistSys.Mr

namespace Coordinator

variable {c c' : Coordinator} {a : Action}

/-- Who has the lock will move on to the next phase. -/
def Held (c : Coordinator) : Prop :=
  ∀ i, c.phaseLock = some i → c.calls[i]? = some .locked

/-- A call that does not hold the lock goes on. -/
theorem Held.set {i : Nat} {old new : CallState} (held : Held c) (here : c.calls[i]? = some old)
    (other : old ≠ .locked) :
    ∀ j, c.phaseLock = some j → (c.calls.set i new)[j]? = some .locked := by
  intro j lock
  have there := held j lock
  have apart : i ≠ j := by
    rintro rfl
    rw [here] at there
    exact other (Option.some.inj there)
  rwa [List.getElem?_set_ne apart]

theorem Held.moves (held : Held c) (conserved : Conserved c) (moves : Moves c a c') : Held c' := by
  cases moves with
  | request =>
    intro i lock
    have there := held i lock
    rw [List.getElem?_append_left (List.getElem?_eq_some_iff.mp there).1]
    exact there
  | wait here => exact held.set here CallState.noConfusion
  | @lock i here free complete =>
    intro j lock
    cases lock
    exact List.getElem?_set_self (List.getElem?_eq_some_iff.mp here).1
  | advance here =>
    intro j lock
    cases lock
  | dispatch here | stop here => exact held.set here CallState.noConfusion
  | giveUp here => exact held.set here CallState.noConfusion
  | report | receive | count | timeout => exact held
  | relay here there => exact absurd there (conserved.not_relay here)

theorem held_after {files : List GoString} {nReduce : Nat} {as : List Action}
    (run : after files nReduce as = some c) : Held c := by
  refine exec_history (P := fun _ c => Held c) (fun i lock => by cases lock) ?_ run
  intro as c a c' before held next
  exact held.moves (inv_after before).conserved (moves_of_step next)

/-- While a phase is not complete, one of its tasks is not counted. -/
theorem exists_uncounted (phase : TaskType) (quantity : Nat) (short : c.countedOf phase < quantity) :
    ∃ t ∈ tasksOf phase quantity, ¬ c.Counted t := by
  by_contra none
  have all : ∀ t ∈ tasksOf phase quantity, t ∈ c.countedTasks phase := by
    intro t member
    rw [mem_countedTasks]
    refine ⟨(mem_tasksOf.mp member).1, ?_⟩
    by_contra uncounted
    exact none ⟨t, member, uncounted⟩
  have fits := ((nodup_tasksOf phase quantity).subperm all).length_le
  rw [length_tasksOf, length_countedTasks] at fits
  omega

end Coordinator

namespace System

variable {plugin : Plugin} {s s' s'' : System} {files : List GoString} {nReduce : Nat} {t : Task} {p e : Nat}
  {reply : GetTaskReply}

/-- The system can come from one state to another. -/
def Reaches (plugin : Plugin) (s s' : System) : Prop :=
  ∃ as, exec (step plugin) s as = some s'

theorem Reaches.refl (s : System) : Reaches plugin s s :=
  ⟨[], rfl⟩

theorem Reaches.trans (first : Reaches plugin s s') (second : Reaches plugin s' s'') : Reaches plugin s s'' := by
  obtain ⟨as, before⟩ := first
  obtain ⟨bs, later⟩ := second
  exact ⟨as ++ bs, by rw [exec_append, before, Option.bind_some, later]⟩

theorem reaches_step {a : SystemAction} (next : step plugin s a = some s') : Reaches plugin s s' :=
  ⟨[a], by rw [exec, next, Option.bind_some, exec]⟩

theorem reaches_coordinator {a : Action} {c : Coordinator} (internal : a.internal = true)
    (next : s.coordinator.step a = some c) : Reaches plugin s { s with coordinator := c } := by
  refine reaches_step (a := .coordinator a) ?_
  rw [step, if_pos internal, next, Option.map_some]

theorem Joint.reaches (joint : Joint plugin files nReduce s) (readsBack : (plugin.job files nReduce).ReadsBack)
    (reach : Reaches plugin s s') : Joint plugin files nReduce s' := by
  obtain ⟨as, run⟩ := reach
  exact exec_invariant joint (fun _ _ _ old next => old.step readsBack next) run

/-- A new process asks for a task. -/
theorem reaches_questTask (s : System) : Reaches plugin s { s with
    coordinator := { s.coordinator with calls := s.coordinator.calls ++ [.checking] }
    processes := s.processes ++ [.asking s.coordinator.calls.length] } := by
  refine ⟨[.launch, .questTask s.processes.length], ?_⟩
  simp [exec, step, questTask, Coordinator.step, setProcess]

/-- A new process gets a task that is in the queue. -/
theorem reaches_dispatch (free : s.coordinator.phaseLock = none)
    (short : s.coordinator.taskFinished ≠ s.coordinator.taskQuantity) (queued : t ∈ s.coordinator.taskCh)
    (real : t.taskType ≠ .finished) : Reaches plugin s { s with
    coordinator := { s.coordinator with
      calls := s.coordinator.calls ++ [.returned (s.coordinator.getTaskReply t)]
      taskCh := s.coordinator.taskCh.erase t
      tracers := s.coordinator.tracers ++ [⟨t, .waiting⟩] }
    processes := s.processes ++ [.asking s.coordinator.calls.length] } := by
  refine (reaches_questTask s).trans ?_
  refine ⟨[.coordinator (.compare s.coordinator.calls.length),
    .coordinator (.dispatch s.coordinator.calls.length t)], ?_⟩
  simp [exec, step, Action.internal, Coordinator.step, Coordinator.compare,
    Coordinator.dispatch, Coordinator.setCall, free,
    short, queued, real, Coordinator.getTaskReply, Coordinator.mM]

/-- A process in the loop of `MapTask` can rename all its files. -/
theorem reaches_renamed {x : Nat} {temp : List GoString} {rest : List Nat}
    (working : s.processes[p]? = some (.working reply e))
    (here : s.workers.executions[e]? = some (.mapping x temp rest))
    (small : ∀ y ∈ rest, y < temp.length) : ∃ w, Reaches plugin s { s with workers := w } ∧
      w.executions[e]? = some (.mapping x temp []) := by
  induction rest generalizing s with
  | nil => exact ⟨s.workers, .refl s, here⟩
  | cons y rest ih =>
    obtain ⟨content, entry⟩ : ∃ content, temp[y]? = some content :=
      ⟨_, List.getElem?_eq_getElem (small y List.mem_cons_self)⟩
    let w₁ : Workers := ⟨Function.update s.workers.dir (intermediateName x y) (some content),
      s.workers.executions.set e (.mapping x temp rest)⟩
    have next : step plugin s (.turn p (.rename y)) = some { s with workers := w₁ } := by
      simp [step, turn, working, Plugin.turn, Job.rename, here, entry, w₁]
    have within := (List.getElem?_eq_some_iff.mp here).1
    obtain ⟨w, reach, done⟩ := ih (s := { s with workers := w₁ }) working (List.getElem?_set_self within)
      fun z member => small z (List.mem_cons_of_mem y member)
    exact ⟨w, (reaches_step next).trans reach, done⟩

/-- A process in the loop of `readTempFiles` can read all files. -/
theorem reaches_read {y k n : Nat} {temp : List KeyValue} (joint : Joint plugin files nReduce s)
    (readsBack : (plugin.job files nReduce).ReadsBack) (working : s.processes[p]? = some (.working reply e))
    (here : s.workers.executions[e]? = some (.reading y k temp)) (left : k + n = files.length) :
    ∃ w all, Reaches plugin s { s with workers := w } ∧ w.executions[e]? = some (.reading y files.length all) := by
  induction n generalizing s k temp with
  | zero => exact ⟨s.workers, temp, .refl s, by rw [here, ← left, Nat.add_zero]⟩
  | succ n ih =>
    have mMap := (joint.working reply e (List.mem_of_getElem? working)).1
    have more : k < (plugin.known reply).mMap := by
      rw [Job.mMap, Plugin.known, List.length_replicate, mMap]
      omega
    obtain ⟨kva, found⟩ := Option.ne_none_iff_exists'.mp
      (joint.readable readsBack (List.mem_of_getElem? here) (by omega))
    let w₁ : Workers := ⟨s.workers.dir, s.workers.executions.set e (.reading y (k + 1) (temp ++ kva))⟩
    have next : step plugin s (.turn p .read) = some { s with workers := w₁ } := by
      have known : (s.workers.dir (intermediateName k y)).bind (plugin.known reply).readRecords = some kva := found
      simp [step, turn, working, Plugin.turn, Job.read, here, more, known, w₁]
    have within := (List.getElem?_eq_some_iff.mp here).1
    obtain ⟨w, all, reach, done⟩ := ih (s := { s with workers := w₁ }) (joint.step readsBack next) working
      (List.getElem?_set_self within) (by omega)
    exact ⟨w, all, (reaches_step next).trans reach, done⟩

/-- The input file of a map task that was given out is there. -/
theorem Joint.input (joint : Joint plugin files nReduce s)
    (readable : ∀ name ∈ files, (plugin.input name).isSome = true)
    (returned : CallState.returned reply ∈ s.coordinator.calls) (type : reply.task.taskType = .map) :
    ∃ content, plugin.input reply.fileName = some content := by
  obtain ⟨as, inv⟩ := joint.inv
  obtain ⟨is, started⟩ := joint.answered reply returned
  have real : reply.task.taskType ≠ .finished := by
    rw [type]
    exact TaskType.noConfusion
  have name := Coordinator.fileName_answered is (started real) type
  rw [inv.files] at name
  exact Option.isSome_iff_exists.mp (readable _ (List.mem_of_getElem? name))

section runnable

variable {sort : List KeyValue → List KeyValue} (positive : 0 < nReduce)
  (readsBack : (plugin.job files nReduce).ReadsBack) (readable : ∀ name ∈ files, (plugin.input name).isSome = true)
  (sorts : ∀ kva, (sort kva).Perm kva ∧ SortedByKey (sort kva))
include positive readsBack readable sorts

/-- A process that got a task can execute it. -/
theorem reaches_complete {call : Nat} (joint : Joint plugin files nReduce s)
    (asking : s.processes[p]? = some (.asking call))
    (returned : s.coordinator.calls[call]? = some (.returned reply)) (real : reply.task.taskType ≠ .finished) :
    ∃ w x, Reaches plugin s
        { s with workers := w, processes := s.processes.set p (.working reply s.workers.executions.length) } ∧
      w.executions[s.workers.executions.length]? = some x ∧ x.complete = true := by
  have within := (List.getElem?_eq_some_iff.mp asking).1
  have working : (s.processes.set p (.working reply s.workers.executions.length))[p]? =
      some (.working reply s.workers.executions.length) := List.getElem?_set_self within
  cases type : reply.task.taskType with
  | map =>
    obtain ⟨content, found⟩ := joint.input readable (List.mem_of_getElem? returned) type
    obtain ⟨as, inv⟩ := joint.inv
    have number : reply.nReduce = nReduce :=
      (congrArg GetTaskReply.nReduce (joint.answered reply (List.mem_of_getElem? returned)).1).trans inv.nR
    let temp := (List.range reply.nReduce).map
      (partitionText plugin.json reply.nReduce (plugin.mapFunc reply.fileName content))
    let s₁ : System := { s with
      workers := { s.workers with
        executions := s.workers.executions ++ [.mapping reply.task.id.toNat temp (List.range reply.nReduce)] }
      processes := s.processes.set p (.working reply s.workers.executions.length) }
    have next : step plugin s (.start p) = some s₁ := by
      have made := createTempFiles_eq plugin.json (number ▸ positive) (plugin.mapFunc reply.fileName content)
      simp [step, start, asking, returned, type, Plugin.mapTask, found, made, setProcess, s₁, temp]
    have small : ∀ y ∈ List.range reply.nReduce, y < temp.length := by
      intro y member
      rw [List.length_map, List.length_range]
      exact List.mem_range.mp member
    obtain ⟨w, reach, done⟩ := reaches_renamed (s := s₁) working List.getElem?_concat_length small
    exact ⟨w, _, (reaches_step next).trans reach, done, rfl⟩
  | reduce =>
    let s₁ : System := { s with
      workers := Plugin.reduceTask s.workers reply
      processes := s.processes.set p (.working reply s.workers.executions.length) }
    have next : step plugin s (.start p) = some s₁ := by
      simp [step, start, asking, returned, type, setProcess, s₁]
    have joint₁ := joint.step readsBack next
    obtain ⟨w, all, reach, read⟩ := reaches_read (s := s₁) joint₁ readsBack working
      List.getElem?_concat_length (Nat.zero_add files.length)
    have mMap := (joint₁.working reply _ (List.mem_of_getElem? working)).1
    have last : step plugin { s₁ with workers := w } (.turn p (.output (sort all))) = some { s₁ with workers :=
        ⟨Function.update w.dir (outputName reply.task.id.toNat) (some (reduceLoop plugin.reduceFunc (sort all))),
          w.executions.set s.workers.executions.length (.reduced reply.task.id.toNat)⟩ } := by
      have known : files.length = (plugin.known reply).mMap := by
        rw [Job.mMap, Plugin.known, List.length_replicate, mMap]
      simp [step, turn, working, s₁, Plugin.turn, Job.output, read, known, sorts all, Plugin.known]
    refine ⟨_, .reduced reply.task.id.toNat, (reaches_step next).trans (reach.trans (reaches_step last)), ?_, rfl⟩
    exact List.getElem?_set_self (List.getElem?_eq_some_iff.mp read).1
  | finished => exact absurd type real

omit positive readsBack readable sorts in
/-- A task that has been executed and has a tracer can be reported and counted. -/
theorem reaches_counted {k : Nat} {x : Execution} (working : s.processes[p]? = some (.working reply e))
    (there : s.workers.executions[e]? = some x) (complete : x.complete = true)
    (tracer : s.coordinator.tracers[k]? = some ⟨reply.task, .waiting⟩) :
    ∃ s', Reaches plugin s s' ∧ s'.coordinator.phase = s.coordinator.phase ∧
      s'.coordinator.taskQuantity = s.coordinator.taskQuantity ∧
      s'.coordinator.taskFinished = s.coordinator.taskFinished + 1 := by
  have within := (List.getElem?_eq_some_iff.mp tracer).1
  let c₁ : Coordinator := { s.coordinator with reports := s.coordinator.reports ++ [reply.task] }
  let s₁ : System := { s with coordinator := c₁, processes := s.processes.set p .idle }
  let c₂ : Coordinator := { c₁ with
    tracers := c₁.tracers.set k ⟨reply.task, .received⟩
    reports := c₁.reports.erase reply.task }
  let c₃ : Coordinator := { c₂ with
    tracers := c₂.tracers.set k ⟨reply.task, .sending⟩
    taskFinished := c₂.taskFinished + 1 }
  have reported : step plugin s (.finishTask p) = some s₁ := by
    simp [step, finishTask, working, there, complete, Coordinator.step, setProcess, s₁, c₁]
  have received : c₁.step (.receive k) = some c₂ := by
    simp [Coordinator.step, Coordinator.receive, c₁, c₂, tracer, Coordinator.setTracer]
  have counted : c₂.step (.count k) = some c₃ := by
    simp [Coordinator.step, Coordinator.count, c₁, c₂, c₃, within, Coordinator.setTracer]
  refine ⟨{ s₁ with coordinator := c₃ }, (reaches_step reported).trans ?_, rfl, rfl, rfl⟩
  exact (reaches_coordinator (s := s₁) rfl received).trans
    (reaches_coordinator (s := { s₁ with coordinator := c₂ }) rfl counted)

/-- A task in the queue can be executed and counted. -/
theorem reaches_queued_counted (joint : Joint plugin files nReduce s) (free : s.coordinator.phaseLock = none)
    (short : s.coordinator.taskFinished ≠ s.coordinator.taskQuantity) (queued : t ∈ s.coordinator.taskCh)
    (real : t.taskType ≠ .finished) :
    ∃ s', Reaches plugin s s' ∧ s'.coordinator.phase = s.coordinator.phase ∧
      s'.coordinator.taskQuantity = s.coordinator.taskQuantity ∧
      s'.coordinator.taskFinished = s.coordinator.taskFinished + 1 := by
  let s₁ : System := { s with
    coordinator := { s.coordinator with
      calls := s.coordinator.calls ++ [.returned (s.coordinator.getTaskReply t)]
      taskCh := s.coordinator.taskCh.erase t
      tracers := s.coordinator.tracers ++ [⟨t, .waiting⟩] }
    processes := s.processes ++ [.asking s.coordinator.calls.length] }
  have given : Reaches plugin s s₁ := reaches_dispatch free short queued real
  obtain ⟨w, x, reach, there, complete⟩ := reaches_complete (s := s₁) positive readsBack readable sorts
    (joint.reaches readsBack given) List.getElem?_concat_length List.getElem?_concat_length real
  let s₂ : System := { s₁ with
    workers := w
    processes := s₁.processes.set s.processes.length
      (.working (s.coordinator.getTaskReply t) s.workers.executions.length) }
  have working : s₂.processes[s.processes.length]? =
      some (.working (s.coordinator.getTaskReply t) s.workers.executions.length) :=
    List.getElem?_set_self (by simp [s₁])
  obtain ⟨s', counted, phase, quantity, more⟩ := reaches_counted (s := s₂) working there complete
    List.getElem?_concat_length
  exact ⟨s', given.trans (reach.trans counted), phase, quantity, more⟩

omit positive readsBack readable sorts in
/-- A task that was given out comes back into the queue or is counted. -/
theorem reaches_queued (joint : Joint plugin files nReduce s) (started : s.coordinator.Started t)
    (uncounted : ¬ s.coordinator.Counted t) :
    ∃ s', Reaches plugin s s' ∧ s'.coordinator.phase = s.coordinator.phase ∧
      s'.coordinator.taskQuantity = s.coordinator.taskQuantity ∧ s'.coordinator.phaseLock = s.coordinator.phaseLock ∧
      (s'.coordinator.taskFinished = s.coordinator.taskFinished + 1 ∨
        (s'.coordinator.taskFinished = s.coordinator.taskFinished ∧ t ∈ s'.coordinator.taskCh)) := by
  obtain ⟨as, inv⟩ := joint.inv
  rcases inv.conserved.queued_or_traced started uncounted with ⟨queued, _⟩ | ⟨_, traced⟩
  · exact ⟨s, .refl s, rfl, rfl, rfl, Or.inr ⟨rfl, List.count_pos_iff.mp (by omega)⟩⟩
  · obtain ⟨⟨task, state⟩, member, is⟩ := List.countP_pos_iff.mp (by rw [traced]; exact Nat.one_pos)
    rw [Bool.and_eq_true, decide_eq_true_eq] at is
    obtain ⟨rfl, active⟩ := is
    obtain ⟨k, here⟩ := List.mem_iff_getElem?.mp member
    cases state with
    | waiting =>
      have back : s.coordinator.step (.timeout k) = some { s.coordinator with
          tracers := s.coordinator.tracers.eraseIdx k, taskCh := s.coordinator.taskCh ++ [task] } := by
        simp [Coordinator.step, Coordinator.timeout, here]
      refine ⟨_, reaches_coordinator rfl back, rfl, rfl, rfl, Or.inr ⟨rfl, ?_⟩⟩
      exact List.mem_append_right _ List.mem_cons_self
    | received =>
      have counted : s.coordinator.step (.count k) = some { s.coordinator with
          tracers := s.coordinator.tracers.set k ⟨task, .sending⟩
          taskFinished := s.coordinator.taskFinished + 1 } := by
        simp [Coordinator.step, Coordinator.count, here, Coordinator.setTracer]
      exact ⟨_, reaches_coordinator rfl counted, rfl, rfl, rfl, Or.inl rfl⟩
    | sending | ended => cases active

/-- While a phase is not complete, one more of its tasks can be counted. -/
theorem reaches_one_more (joint : Joint plugin files nReduce s) (going : s.coordinator.phase ≠ .finished)
    (short : s.coordinator.taskFinished < s.coordinator.taskQuantity) :
    ∃ s', Reaches plugin s s' ∧ s'.coordinator.phase = s.coordinator.phase ∧
      s'.coordinator.taskQuantity = s.coordinator.taskQuantity ∧
      s'.coordinator.taskFinished = s.coordinator.taskFinished + 1 := by
  obtain ⟨as, inv⟩ := joint.inv
  have free : s.coordinator.phaseLock = none := by
    by_contra held
    obtain ⟨i, lock⟩ := Option.ne_none_iff_exists'.mp held
    have full := inv.locked.complete lock
    omega
  obtain ⟨t, real, started, uncounted⟩ : ∃ t : Task, t.taskType ≠ .finished ∧ s.coordinator.Started t ∧
      ¬ s.coordinator.Counted t := by
    cases phase : s.coordinator.phase with
    | map =>
      obtain ⟨quantity, finished⟩ := inv.tallied.map phase
      obtain ⟨t, member, uncounted⟩ := Coordinator.exists_uncounted
        (c := s.coordinator) .map s.coordinator.mM (by omega)
      exact ⟨t, by rw [(mem_tasksOf.mp member).1]; exact TaskType.noConfusion, Or.inl member, uncounted⟩
    | reduce =>
      obtain ⟨quantity, finished⟩ := inv.tallied.reduce phase
      obtain ⟨t, member, uncounted⟩ := Coordinator.exists_uncounted
        (c := s.coordinator) .reduce s.coordinator.nR (by omega)
      have later : s.coordinator.phase ≠ .map := by
        rw [phase]
        exact TaskType.noConfusion
      exact ⟨t, by rw [(mem_tasksOf.mp member).1]; exact TaskType.noConfusion, Or.inr ⟨later, member⟩, uncounted⟩
    | finished => exact absurd phase going
  obtain ⟨s₁, reach, phase, quantity, lock, counted | ⟨same, queued⟩⟩ := reaches_queued joint started uncounted
  · exact ⟨s₁, reach, phase, quantity, counted⟩
  · obtain ⟨s₂, more, phase₂, quantity₂, counted⟩ := reaches_queued_counted positive readsBack readable sorts
      (joint.reaches readsBack reach) (lock.trans free) (by omega) queued real
    exact ⟨s₂, reach.trans more, phase₂.trans phase, quantity₂.trans quantity, by omega⟩

/-- Every phase can be completed. -/
theorem reaches_phase_end (joint : Joint plugin files nReduce s) (going : s.coordinator.phase ≠ .finished) :
    ∃ s', Reaches plugin s s' ∧ s'.coordinator.phase = s.coordinator.phase ∧
      s'.coordinator.taskFinished = s'.coordinator.taskQuantity := by
  obtain ⟨n, left⟩ : ∃ n : Nat, s.coordinator.taskFinished + n = s.coordinator.taskQuantity := by
    obtain ⟨as, inv⟩ := joint.inv
    have bound := (inv.tallied.bounded inv.conserved going).1
    exact ⟨(s.coordinator.taskQuantity - s.coordinator.taskFinished).toNat, by omega⟩
  induction n generalizing s with
  | zero => exact ⟨s, .refl s, rfl, by omega⟩
  | succ n ih =>
    obtain ⟨s₁, reach, phase, quantity, more⟩ :=
      reaches_one_more positive readsBack readable sorts joint going (by omega)
    obtain ⟨s₂, rest, phase₂, full⟩ := ih (joint.reaches readsBack reach) (by rwa [phase]) (by omega)
    exact ⟨s₂, reach.trans rest, phase₂.trans phase, full⟩

end runnable

/-- When a phase is complete, the next one can begin: whoever holds the lock goes on, or a
new process calls `getTask`. -/
theorem reaches_next_phase (joint : Joint plugin files nReduce s)
    (full : s.coordinator.taskFinished = s.coordinator.taskQuantity) :
    ∃ s', Reaches plugin s s' ∧ s'.coordinator.phase = s.coordinator.nextPhase.phase := by
  obtain ⟨as, run, _⟩ := joint.coordinator
  cases lock : s.coordinator.phaseLock with
  | some i =>
    have here := Coordinator.held_after run i lock
    have next : s.coordinator.step (.advance i) = some { s.coordinator.nextPhase.setCall i .selecting with
        phaseLock := none } := by
      simp [Coordinator.step, Coordinator.advance, here]
    exact ⟨_, reaches_coordinator rfl next, rfl⟩
  | none =>
    let c₁ : Coordinator := { s.coordinator with calls := s.coordinator.calls ++ [.checking] }
    let c₂ : Coordinator := { c₁ with
      calls := s.coordinator.calls ++ [.locked]
      phaseLock := some s.coordinator.calls.length }
    let s₁ : System := { s with
      coordinator := c₁
      processes := s.processes ++ [.asking s.coordinator.calls.length] }
    have compared : s₁.coordinator.step (.compare s.coordinator.calls.length) = some c₂ := by
      simp [Coordinator.step, Coordinator.compare, Coordinator.setCall, s₁, c₁, c₂, lock, full]
    have next : c₂.step (.advance s.coordinator.calls.length) =
        some { c₂.nextPhase.setCall s.coordinator.calls.length .selecting with phaseLock := none } := by
      simp [Coordinator.step, Coordinator.advance, c₂]
    refine ⟨_, (reaches_questTask s).trans ((reaches_coordinator (s := s₁) rfl compared).trans
      (reaches_coordinator (s := { s₁ with coordinator := c₂ }) rfl next)), ?_⟩
    show c₂.nextPhase.phase = s.coordinator.nextPhase.phase
    rw [Coordinator.nextPhase, Coordinator.nextPhase]
    cases s.coordinator.phase <;> rfl

/-- A job that can be executed never gets stuck: its input files can be read, its
intermediate files are read back, and there is a reduce task. From whatever state, with
whatever calls waiting, reports lost and processes dead, there is a way on which all tasks
are executed and `Done` becomes true. -/
theorem done_reachable {sort : List KeyValue → List KeyValue} {as : List SystemAction} (positive : 0 < nReduce)
    (readsBack : (plugin.job files nReduce).ReadsBack) (readable : ∀ name ∈ files, (plugin.input name).isSome = true)
    (sorts : ∀ kva, (sort kva).Perm kva ∧ SortedByKey (sort kva)) (run : after plugin files nReduce as = some s) :
    ∃ bs s', exec (step plugin) s bs = some s' ∧ s'.coordinator.Done := by
  have reduces : ∀ s, Joint plugin files nReduce s → s.coordinator.phase = .reduce →
      ∃ s', Reaches plugin s s' ∧ s'.coordinator.Done := by
    intro s joint phase
    obtain ⟨s₁, reach, same, full⟩ := reaches_phase_end positive readsBack readable sorts joint (by simp [phase])
    obtain ⟨s₂, next, is⟩ := reaches_next_phase (joint.reaches readsBack reach) full
    refine ⟨s₂, reach.trans next, ?_⟩
    rw [Coordinator.nextPhase, same, phase] at is
    exact is
  have joint := joint_after readsBack run
  suffices ∃ s', Reaches plugin s s' ∧ s'.coordinator.Done by
    obtain ⟨s', ⟨bs, way⟩, done⟩ := this
    exact ⟨bs, s', way, done⟩
  cases phase : s.coordinator.phase with
  | map =>
    obtain ⟨s₁, reach, same, full⟩ := reaches_phase_end positive readsBack readable sorts joint (by simp [phase])
    have joint₁ := joint.reaches readsBack reach
    obtain ⟨s₂, next, is⟩ := reaches_next_phase joint₁ full
    rw [Coordinator.nextPhase, same, phase] at is
    obtain ⟨s₃, rest, done⟩ := reduces s₂ (joint₁.reaches readsBack next) is
    exact ⟨s₃, reach.trans (next.trans rest), done⟩
  | reduce => exact reduces s joint phase
  | finished => exact ⟨s, .refl s, phase⟩

/-- The first process has crashed in its map task, and no other one is there. -/
theorem done_reachable_crashed : ∃ s, after letters [[102]] 1 (crashed.take 7) = some s ∧
    ∃ bs s', exec (step letters) s bs = some s' ∧ s'.coordinator.Done := by
  have runs : (after letters [[102]] 1 (crashed.take 7)).isSome = true := by decide +kernel
  obtain ⟨s, run⟩ := Option.isSome_iff_exists.mp runs
  have readsBack : (letters.job [[102]] 1).ReadsBack := by
    unfold Job.ReadsBack
    decide +kernel
  exact ⟨s, run, done_reachable Nat.one_pos readsBack (fun _ _ => rfl) Job.sortByKey_sorts run⟩

end System

end DistSys.Mr
