import DistSys.Mr.Equivalence
import DistSys.Mr.PhaseSafety
import DistSys.Mr.Process

namespace DistSys.Mr

/-! ### What the coordinator answers -/

namespace Coordinator

variable {c c' : Coordinator} {a : Action} {t : Task}

/-- A task of a phase stays one. -/
theorem Started.moves (started : c.Started t) (conserved : Conserved c) (moves : Moves c a c') : c'.Started t := by
  obtain ⟨files, nR⟩ := moves.fixed conserved
  rcases started with map | ⟨later, reduce⟩
  · exact Or.inl (by rwa [mM, files])
  · exact Or.inr ⟨moves.past_map conserved later, by rwa [nR]⟩

/-- Every reply is about a task that was started, with the numbers of the job. -/
def Answered (c : Coordinator) : Prop :=
  ∀ reply, CallState.returned reply ∈ c.calls →
    reply = c.getTaskReply reply.task ∧ (reply.task.taskType ≠ .finished → c.Started reply.task)

theorem Answered.moves (answered : Answered c) (conserved : Conserved c) (moves : Moves c a c') : Answered c' := by
  intro reply member
  have replies : ∀ task, c'.getTaskReply task = c.getTaskReply task := by
    intro task
    obtain ⟨files, nR⟩ := moves.fixed conserved
    simp only [getTaskReply, mM, files, nR]
  rw [replies]
  by_cases old : CallState.returned reply ∈ c.calls
  · obtain ⟨is, started⟩ := answered reply old
    exact ⟨is, fun real => (started real).moves conserved moves⟩
  · have whole := moves
    cases moves with
    | request =>
      rcases List.mem_append.mp member with before | new
      · exact absurd before old
      · cases List.mem_singleton.mp new
    | @dispatch i task _ queued real =>
      rcases List.mem_or_eq_of_mem_set member with before | new
      · exact absurd before old
      · cases new
        refine ⟨rfl, fun _ => ?_⟩
        exact (conserved.started real (tokens_pos_of_queue queued)).moves conserved whole
    | stop _ last =>
      rcases List.mem_or_eq_of_mem_set member with before | new
      · exact absurd before old
      · cases new
        exact ⟨rfl, fun real => absurd last real⟩
    | wait | lock | advance | giveUp =>
      rcases List.mem_or_eq_of_mem_set member with before | new
      · exact absurd before old
      · cases new
    | report | receive | count | timeout => exact absurd member old
    | relay here there => exact absurd there (conserved.not_relay here)

/-- The reply for a map task names its input file. -/
theorem fileName_answered {reply : GetTaskReply} (is : reply = c.getTaskReply reply.task)
    (started : c.Started reply.task) (type : reply.task.taskType = .map) :
    c.files[reply.task.id.toNat]? = some reply.fileName := by
  obtain ⟨_, lower, upper⟩ := mem_tasksOf.mp (started_map type started)
  have within : reply.task.id.toNat < c.files.length := by
    rw [mM] at upper
    omega
  have fileName := congrArg GetTaskReply.fileName is
  simp only [getTaskReply, type, if_true, List.getElem?_eq_getElem within, Option.getD_some] at fileName
  rw [fileName, List.getElem?_eq_getElem within]

end Coordinator

/-! ### What an execution is for -/

/-- The execution is one of this task. -/
def Execution.Serves (task : Task) : Execution → Prop
  | .mapping x _ _ => task.taskType = .map ∧ x = task.id.toNat
  | .reading y _ _ | .reduced y => task.taskType = .reduce ∧ y = task.id.toNat
  | .exited => True

namespace Job

variable {job : Job} {w w' : Workers} {e : Nat} {x : Execution}

/-- A step leaves every execution with its task, and one that is complete as it is. -/
theorem Works.stays (works : Works job w w') (here : w.executions[e]? = some x) :
    ∃ x', w'.executions[e]? = some x' ∧ (∀ task, x.Serves task → x'.Serves task) ∧ (x.complete = true → x' = x) := by
  have within := (List.getElem?_eq_some_iff.mp here).1
  have kept : ∀ {e₁ : Nat} {old new : Execution}, w.executions[e₁]? = some old →
      (∀ task, old.Serves task → new.Serves task) → old.complete = false →
      ∃ x', (w.executions.set e₁ new)[e]? = some x' ∧ (∀ task, x.Serves task → x'.Serves task) ∧
        (x.complete = true → x' = x) := by
    intro e₁ old new there serves incomplete
    by_cases same : e₁ = e
    · subst same
      rw [here] at there
      cases there
      refine ⟨new, List.getElem?_set_self within, serves, fun complete => ?_⟩
      rw [incomplete] at complete
      cases complete
    · exact ⟨x, by rw [List.getElem?_set_ne same, here], fun _ is => is, fun _ => rfl⟩
  cases works with
  | mapTask | reduceTask =>
    exact ⟨x, by rw [List.getElem?_append_left within, here], fun _ is => is, fun _ => rfl⟩
  | @rename _ _ _ _ rest _ there member _ =>
    refine kept there (fun _ is => is) ?_
    cases rest with
    | nil => cases member
    | cons => rfl
  | read there | output there => exact kept there (fun _ is => is) rfl
  | exit there => exact kept there (fun _ _ => trivial) rfl

/-- Only a reduce task that cannot read a file exits. -/
theorem Works.exited_cases (works : Works job w w') (member : Execution.exited ∈ w'.executions) :
    Execution.exited ∈ w.executions ∨ ∃ y next temp, Execution.reading y next temp ∈ w.executions ∧ next < job.mMap ∧
      (w.dir (intermediateName next y)).bind job.readRecords = none := by
  cases works with
  | mapTask | reduceTask =>
    rcases List.mem_append.mp member with old | new
    · exact Or.inl old
    · cases List.mem_singleton.mp new
  | rename | read | output =>
    rcases List.mem_or_eq_of_mem_set member with old | new
    · exact Or.inl old
    · cases new
  | @exit _ y next temp there more missing =>
    exact Or.inr ⟨y, next, temp, List.mem_of_getElem? there, more, missing⟩

end Job

/-- An execution of the task has come to its end. -/
def Workers.Completed (w : Workers) (task : Task) : Prop :=
  ∃ x ∈ w.executions, x.complete = true ∧ x.Serves task

theorem Workers.Completed.works {job : Job} {w w' : Workers} {task : Task} (completed : w.Completed task)
    (works : Job.Works job w w') : w'.Completed task := by
  obtain ⟨x, member, complete, serves⟩ := completed
  obtain ⟨e, here⟩ := List.mem_iff_getElem?.mp member
  obtain ⟨x', there, _, same⟩ := works.stays here
  rw [same complete] at there
  exact ⟨x, List.mem_of_getElem? there, complete, serves⟩

/-! ### What a step of the system does -/

namespace System

variable {plugin : Plugin} {s s' : System}

/-- No process has begun a task. -/
def Fewer (old new : List Process) : Prop :=
  ∀ reply e, Process.working reply e ∈ new → Process.working reply e ∈ old

/-- At most one process has begun a task, this one. -/
def OneMore (old new : List Process) (reply : GetTaskReply) (e : Nat) : Prop :=
  ∀ reply' e', Process.working reply' e' ∈ new → Process.working reply' e' ∈ old ∨ (reply' = reply ∧ e' = e)

theorem fewer_set {old : List Process} {p : Nat} {new : Process} (other : ∀ reply e, new ≠ .working reply e) :
    Fewer old (old.set p new) := by
  intro reply e member
  rcases List.mem_or_eq_of_mem_set member with before | is
  · exact before
  · exact absurd is.symm (other reply e)

theorem oneMore_set {old : List Process} {p e : Nat} {reply : GetTaskReply} :
    OneMore old (old.set p (.working reply e)) reply e := by
  intro reply' e' member
  rcases List.mem_or_eq_of_mem_set member with before | is
  · exact Or.inl before
  · cases is
    exact Or.inr ⟨rfl, rfl⟩

inductive Goes (plugin : Plugin) (s : System) : System → Prop
  | same {processes : List Process} : Fewer s.processes processes → Goes plugin s { s with processes := processes }
  | call {a : Action} {c : Coordinator} {processes : List Process} : s.coordinator.step a = some c →
      (∀ task, a ≠ .report task) → Fewer s.processes processes →
      Goes plugin s { s with coordinator := c, processes := processes }
  | report {reply : GetTaskReply} {e : Nat} {x : Execution} {c : Coordinator} {processes : List Process} :
      Process.working reply e ∈ s.processes → s.workers.executions[e]? = some x → x.complete = true →
      s.coordinator.step (.report reply.task) = some c → Fewer s.processes processes →
      Goes plugin s { s with coordinator := c, processes := processes }
  | map {reply : GetTaskReply} {w : Workers} {processes : List Process} :
      CallState.returned reply ∈ s.coordinator.calls → reply.task.taskType = .map →
      plugin.mapTask s.workers reply = some w →
      OneMore s.processes processes reply s.workers.executions.length →
      Goes plugin s { s with workers := w, processes := processes }
  | reduce {reply : GetTaskReply} {processes : List Process} :
      CallState.returned reply ∈ s.coordinator.calls → reply.task.taskType = .reduce →
      OneMore s.processes processes reply s.workers.executions.length →
      Goes plugin s { s with workers := Plugin.reduceTask s.workers reply, processes := processes }
  | turn {reply : GetTaskReply} {e : Nat} {turn : Turn} {w : Workers} : Process.working reply e ∈ s.processes →
      plugin.turn s.workers reply e turn = some w → Goes plugin s { s with workers := w }

theorem goes_of_start {p : Nat} (next : s.start plugin p = some s') : Goes plugin s s' := by
  simp only [start] at next
  split at next
  next call asking =>
    split at next
    next reply returned =>
      have member := List.mem_of_getElem? returned
      split at next
      next type =>
        split at next
        next w began =>
          cases next
          exact .map member type began oneMore_set
        next =>
          cases next
          exact .same (fewer_set (by simp))
      next type =>
        cases next
        exact .reduce member type oneMore_set
      next =>
        cases next
        exact .same (fewer_set (by simp))
    next => cases next
  next => cases next

theorem goes_of_finishTask {p : Nat} (next : s.finishTask p = some s') : Goes plugin s s' := by
  simp only [finishTask] at next
  split at next
  next reply e working =>
    split at next
    next x there =>
      split at next
      next complete =>
        obtain ⟨c, reported, rfl⟩ := Option.map_eq_some_iff.mp next
        exact .report (List.mem_of_getElem? working) there complete reported (fewer_set (by simp))
      next => cases next
    next => cases next
  next => cases next

theorem goes_of_step {a : SystemAction} (next : step plugin s a = some s') : Goes plugin s s' := by
  cases a with
  | launch =>
    cases next
    refine .same fun reply e member => ?_
    simpa using member
  | questTask p =>
    simp only [step, questTask] at next
    split at next
    next =>
      obtain ⟨c, asked, rfl⟩ := Option.map_eq_some_iff.mp next
      exact .call asked (by simp) (fewer_set (by simp))
    next => cases next
  | coordinator a =>
    simp only [step] at next
    split at next
    next internal =>
      obtain ⟨c, moved, rfl⟩ := Option.map_eq_some_iff.mp next
      refine .call moved ?_ (fun _ _ member => member)
      rintro task rfl
      cases internal
    next => cases next
  | start p => exact goes_of_start next
  | turn p turn =>
    simp only [step, System.turn] at next
    split at next
    next reply e working =>
      obtain ⟨w, turned, rfl⟩ := Option.map_eq_some_iff.mp next
      exact .turn (List.mem_of_getElem? working) turned
    next => cases next
  | finishTask p => exact goes_of_finishTask next
  | crash p =>
    cases next
    exact .same (fewer_set (by simp))

/-! ### The processes work on the job -/

variable {files : List GoString} {nReduce : Nat} {reply : GetTaskReply} {w w' : Workers}

/-- The action of the job that a turn is. -/
def turnAction (e : Nat) : Turn → WorkerAction
  | .rename id => .rename e id
  | .read => .read e
  | .output sorted => .output e sorted

/-- With the number of map tasks in the reply, a turn of a process is a step of the job. -/
theorem step_of_turn {e : Nat} {turn : Turn} (mMap : reply.mMap = files.length)
    (turned : plugin.turn w reply e turn = some w') :
    (plugin.job files nReduce).step w (turnAction e turn) = some w' := by
  have same : (plugin.known reply).mMap = (plugin.job files nReduce).mMap := by
    simp only [Job.mMap, Plugin.known, Plugin.job, List.length_replicate, List.length_map, mMap]
  rw [← turned]
  cases turn with
  | rename id => rfl
  | read =>
    simp only [turnAction, Job.step, Plugin.turn, Job.read, same]
    rfl
  | output sorted =>
    simp only [turnAction, Job.step, Plugin.turn, Job.output, same]
    rfl

theorem length_of_turn {e : Nat} {turn : Turn} (turned : plugin.turn w reply e turn = some w') :
    w'.executions.length = w.executions.length := by
  cases turn with
  | rename id =>
    simp only [Plugin.turn, Job.rename] at turned
    split at turned
    next =>
      split at turned
      next =>
        obtain ⟨_, _, rfl⟩ := Option.map_eq_some_iff.mp turned
        exact List.length_set
      next => cases turned
    next => cases turned
  | read =>
    simp only [Plugin.turn, Job.read] at turned
    split at turned
    next =>
      split at turned
      next =>
        split at turned
        next => cases turned; exact List.length_set
        next => cases turned; exact List.length_set
      next => cases turned
    next => cases turned
  | output sorted =>
    simp only [Plugin.turn, Job.output] at turned
    split at turned
    next =>
      split at turned
      next => cases turned; exact List.length_set
      next => cases turned
    next => cases turned

theorem mapTask_began (began : plugin.mapTask w reply = some w') :
    ∃ content tempFiles, plugin.input reply.fileName = some content ∧
      createTempFiles plugin.json reply.nReduce (plugin.mapFunc reply.fileName content) = some tempFiles ∧
      w' = { w with
        executions := w.executions ++ [.mapping reply.task.id.toNat tempFiles (List.range reply.nReduce)] } := by
  obtain ⟨content, found, began⟩ := Option.bind_eq_some_iff.mp began
  obtain ⟨tempFiles, made, is⟩ := Option.bind_eq_some_iff.mp began
  cases is
  exact ⟨content, tempFiles, found, made, rfl⟩

/-- With the file name of the reply, a map task of a process is one of the job. -/
theorem step_of_mapTask {c : Coordinator} (names : c.files = files) (numbers : c.nR = nReduce)
    (is : reply = c.getTaskReply reply.task) (started : c.Started reply.task) (type : reply.task.taskType = .map)
    (began : plugin.mapTask w reply = some w') :
    (plugin.job files nReduce).step w (.mapTask reply.task.id.toNat) = some w' := by
  obtain ⟨content, tempFiles, found, made, rfl⟩ := mapTask_began began
  have name := Coordinator.fileName_answered is started type
  rw [names] at name
  have number : reply.nReduce = nReduce := (congrArg GetTaskReply.nReduce is).trans numbers
  rw [number] at made
  simp [Job.step, Job.mapTask, Plugin.job, name, found, made, number]

theorem step_of_reduceTask {c : Coordinator} (numbers : c.nR = nReduce) (started : c.Started reply.task)
    (type : reply.task.taskType = .reduce) :
    (plugin.job files nReduce).step w (.reduceTask reply.task.id.toNat) = some (Plugin.reduceTask w reply) := by
  have bound := mem_tasksOf.mp (Coordinator.started_reduce type started).2
  rw [numbers] at bound
  have within : reply.task.id.toNat < (plugin.job files nReduce).nReduce := by
    show reply.task.id.toNat < nReduce
    omega
  simp only [Job.step, Job.reduceTask, within, if_true]
  rfl

/-- What holds of the coordinator and the workers together. -/
structure Joint (plugin : Plugin) (files : List GoString) (nReduce : Nat) (s : System) : Prop where
  coordinator : ∃ as, Coordinator.after files nReduce as = some s.coordinator ∧
    ∀ task, Action.report task ∈ as → s.workers.Completed task
  answered : s.coordinator.Answered
  right : Job.Right (plugin.job files nReduce) s.workers
  working : ∀ reply e, Process.working reply e ∈ s.processes →
    reply.mMap = files.length ∧ ∃ x, s.workers.executions[e]? = some x ∧ x.Serves reply.task
  executions : ∀ x ∈ s.workers.executions, x ≠ .exited ∧ ∃ task, s.coordinator.Started task ∧ x.Serves task

theorem Joint.inv (joint : Joint plugin files nReduce s) : ∃ as, Coordinator.Inv files nReduce as s.coordinator := by
  obtain ⟨as, run, _⟩ := joint.coordinator
  exact ⟨as, Coordinator.inv_after run⟩

/-- A task that the coordinator has counted has been executed. -/
theorem Joint.completed {task : Task} (joint : Joint plugin files nReduce s)
    (counted : s.coordinator.Counted task) : s.workers.Completed task := by
  obtain ⟨as, run, completed⟩ := joint.coordinator
  exact completed task ((Coordinator.inv_after run).reported counted)

/-- After the map phase all intermediate files are there. -/
theorem Joint.intermediate_there (joint : Joint plugin files nReduce s) (later : s.coordinator.phase ≠ .map)
    {x y : Nat} (small : x < files.length) (bound : y < nReduce) : s.workers.dir (intermediateName x y) ≠ none := by
  obtain ⟨as, inv⟩ := joint.inv
  have task : (⟨.map, x⟩ : Task) ∈ tasksOf .map s.coordinator.mM := by
    rw [mem_tasksOf, Coordinator.mM, inv.files]
    exact ⟨rfl, Int.natCast_nonneg x, Int.ofNat_lt.mpr small⟩
  obtain ⟨execution, member, complete, serves⟩ := joint.completed (inv.tallied.mapped later _ task)
  cases execution with
  | mapping x' temp rest =>
    obtain ⟨_, rfl⟩ := serves
    cases rest with
    | nil =>
      obtain ⟨_, _, _, renamed⟩ := joint.right.mapping member
      exact (renamed y bound).resolve_left List.not_mem_nil
    | cons => cases complete
  | reading => cases complete
  | reduced => cases serves.1
  | exited => cases complete

/-- A reduce task finds every intermediate file, and all its lines are records. -/
theorem Joint.readable (joint : Joint plugin files nReduce s) (readsBack : (plugin.job files nReduce).ReadsBack)
    {y next : Nat} {temp : List KeyValue} (member : Execution.reading y next temp ∈ s.workers.executions)
    (more : next < files.length) :
    (s.workers.dir (intermediateName next y)).bind (plugin.job files nReduce).readRecords ≠ none := by
  obtain ⟨_, task, started, type, _⟩ := joint.executions _ member
  obtain ⟨bound, _⟩ := joint.right.reading member
  have there := joint.intermediate_there (Coordinator.started_reduce type started).1 more bound
  obtain ⟨content, is⟩ := Option.ne_none_iff_exists'.mp there
  obtain ⟨file, input, _, rfl⟩ := joint.right.intermediate is
  rw [is, Option.bind_some, readsBack file (List.mem_of_getElem? input) y bound]
  exact Option.some_ne_none _

theorem Joint.init (plugin : Plugin) (files : List GoString) (nReduce : Nat) :
    Joint plugin files nReduce (init files nReduce) where
  coordinator := ⟨[], rfl, fun _ member => by cases member⟩
  answered := fun _ member => by cases member
  right := Job.right_start _
  working := fun _ _ member => by cases member
  executions := fun _ member => by cases member

/-- A step of the coordinator; what is reported to it has been executed. -/
theorem Joint.toCoordinator {a : Action} {c : Coordinator} {processes : List Process}
    (joint : Joint plugin files nReduce s) (moved : s.coordinator.step a = some c)
    (fewer : Fewer s.processes processes) (reports : ∀ task, a = .report task → s.workers.Completed task) :
    Joint plugin files nReduce { s with coordinator := c, processes := processes } := by
  obtain ⟨as, run, completed⟩ := joint.coordinator
  have conserved := (Coordinator.inv_after run).conserved
  have moves := Coordinator.moves_of_step moved
  refine ⟨⟨as ++ [a], exec_concat run moved, fun task member => ?_⟩,
    joint.answered.moves conserved moves, joint.right,
    fun reply e member => joint.working reply e (fewer reply e member), fun x member => ?_⟩
  · rcases List.mem_append.mp member with before | new
    · exact completed task before
    · exact reports task (List.mem_singleton.mp new).symm
  · obtain ⟨running, task, started, serves⟩ := joint.executions x member
    exact ⟨running, task, started.moves conserved moves, serves⟩

/-- A step of the workers; a new execution is one of a task that was started. -/
theorem Joint.toWorkers {a : WorkerAction} {w : Workers} {processes : List Process}
    (joint : Joint plugin files nReduce s) (readsBack : (plugin.job files nReduce).ReadsBack)
    (next : (plugin.job files nReduce).step s.workers a = some w)
    (working : ∀ reply e, Process.working reply e ∈ processes → Process.working reply e ∈ s.processes ∨
      (reply.mMap = files.length ∧ ∃ x, w.executions[e]? = some x ∧ x.Serves reply.task))
    (new : ∀ (e : Nat) (x : Execution), w.executions[e]? = some x → s.workers.executions.length ≤ e →
      ∃ task, s.coordinator.Started task ∧ x.Serves task) :
    Joint plugin files nReduce { s with workers := w, processes := processes } := by
  have works := Job.works_of_step next
  obtain ⟨as, run, completed⟩ := joint.coordinator
  refine ⟨⟨as, run, fun task member => (completed task member).works works⟩, joint.answered,
    joint.right.step readsBack next, fun reply e member => ?_, fun x member => ⟨?_, ?_⟩⟩
  · rcases working reply e member with before | now
    · obtain ⟨mMap, x, here, serves⟩ := joint.working reply e before
      obtain ⟨x', there, still, _⟩ := works.stays here
      exact ⟨mMap, x', there, still _ serves⟩
    · exact now
  · rintro rfl
    rcases works.exited_cases member with before | ⟨y, k, temp, reading, more, missing⟩
    · exact (joint.executions _ before).1 rfl
    · have small : k < files.length := by
        simpa only [Job.mMap, Plugin.job, List.length_map] using more
      exact joint.readable readsBack reading small missing
  · obtain ⟨e, there⟩ := List.mem_iff_getElem?.mp member
    rcases Nat.lt_or_ge e s.workers.executions.length with old | beyond
    · obtain ⟨_, task, started, serves⟩ := joint.executions _ (List.getElem_mem old)
      obtain ⟨x', now, still, _⟩ := works.stays (List.getElem?_eq_getElem old)
      cases now.symm.trans there
      exact ⟨task, started, still task serves⟩
    · exact new e x there beyond

theorem getElem?_of_length_le {α : Type} {l : List α} {x y : α} {i : Nat} (here : (l ++ [x])[i]? = some y)
    (beyond : l.length ≤ i) : y = x := by
  rcases getElem?_concat_cases here with before | ⟨_, is⟩
  · have within := (List.getElem?_eq_some_iff.mp before).1
    omega
  · exact is.symm

/-- A process starts a task: the new execution is the last one. -/
theorem Joint.starts {a : WorkerAction} {w : Workers} {x : Execution} {processes : List Process}
    (joint : Joint plugin files nReduce s) (readsBack : (plugin.job files nReduce).ReadsBack)
    (returned : CallState.returned reply ∈ s.coordinator.calls) (real : reply.task.taskType ≠ .finished)
    (next : (plugin.job files nReduce).step s.workers a = some w)
    (added : w.executions = s.workers.executions ++ [x]) (serves : x.Serves reply.task)
    (more : OneMore s.processes processes reply s.workers.executions.length) :
    Joint plugin files nReduce { s with workers := w, processes := processes } := by
  obtain ⟨as, inv⟩ := joint.inv
  obtain ⟨is, started⟩ := joint.answered reply returned
  have mMap : reply.mMap = files.length := by
    rw [is, ← inv.files]
    rfl
  refine joint.toWorkers readsBack next (fun reply' e member => ?_) fun e x' there beyond => ?_
  · rcases more reply' e member with before | ⟨rfl, rfl⟩
    · exact Or.inl before
    · exact Or.inr ⟨mMap, x, by rw [added, List.getElem?_concat_length], serves⟩
  · rw [added] at there
    rw [getElem?_of_length_le there beyond]
    exact ⟨reply.task, started real, serves⟩

theorem Joint.step (joint : Joint plugin files nReduce s) (readsBack : (plugin.job files nReduce).ReadsBack)
    {a : SystemAction} (next : step plugin s a = some s') : Joint plugin files nReduce s' := by
  obtain ⟨as, inv⟩ := joint.inv
  cases goes_of_step next with
  | same fewer =>
    exact ⟨joint.coordinator, joint.answered, joint.right,
      fun reply e member => joint.working reply e (fewer reply e member), joint.executions⟩
  | call moved other fewer => exact joint.toCoordinator moved fewer fun task is => absurd is (other task)
  | @report reply e x c processes working there complete reported fewer =>
    refine joint.toCoordinator reported fewer fun task is => ?_
    cases is
    obtain ⟨_, x', here, serves⟩ := joint.working reply e working
    cases here.symm.trans there
    exact ⟨x, List.mem_of_getElem? there, complete, serves⟩
  | @map reply w processes returned type began more =>
    obtain ⟨is, started⟩ := joint.answered reply returned
    have real : reply.task.taskType ≠ .finished := by
      rw [type]
      exact TaskType.noConfusion
    have step := step_of_mapTask inv.files inv.nR is (started real) type began
    obtain ⟨content, _, _, _, rfl⟩ := mapTask_began began
    exact joint.starts readsBack returned real step rfl ⟨type, rfl⟩ more
  | @reduce reply processes returned type more =>
    have real : reply.task.taskType ≠ .finished := by
      rw [type]
      exact TaskType.noConfusion
    have started := (joint.answered reply returned).2 real
    exact joint.starts readsBack returned real (step_of_reduceTask inv.nR started type) rfl ⟨type, rfl⟩ more
  | @turn reply e turn w working turned =>
    have mMap := (joint.working reply e working).1
    refine joint.toWorkers readsBack (step_of_turn mMap turned) (fun _ _ member => Or.inl member) ?_
    intro e' x there beyond
    have within := (List.getElem?_eq_some_iff.mp there).1
    have length := length_of_turn turned
    omega

theorem joint_after (readsBack : (plugin.job files nReduce).ReadsBack) {as : List SystemAction}
    (run : after plugin files nReduce as = some s) : Joint plugin files nReduce s :=
  exec_invariant (Joint.init plugin files nReduce) (fun _ _ _ old next => old.step readsBack next) run

/-- When the job is done, every reduce task has been executed. -/
theorem Joint.all_reduced (joint : Joint plugin files nReduce s) (done : s.coordinator.Done) {y : Nat}
    (bound : y < nReduce) : Execution.reduced y ∈ s.workers.executions := by
  obtain ⟨as, inv⟩ := joint.inv
  have task : (⟨.reduce, y⟩ : Task) ∈ tasksOf .reduce s.coordinator.nR := by
    rw [mem_tasksOf, inv.nR]
    exact ⟨rfl, Int.natCast_nonneg y, Int.ofNat_lt.mpr bound⟩
  obtain ⟨execution, member, complete, serves⟩ := joint.completed (inv.tallied.reduced done _ task)
  cases execution with
  | reduced z =>
    obtain ⟨_, rfl⟩ := serves
    exact member
  | mapping => cases serves.1
  | reading | exited => cases complete

end System

/-- Once every reduce task has been executed, the outputs hold what the groups of all records reduce to. -/
theorem Job.Right.outputs {job : Job} {w : Workers} (right : Job.Right job w) (positive : 0 < job.nReduce)
    (depends : ∀ key vs vs', vs.Perm vs' → linesOf job.reduceFunc key vs = linesOf job.reduceFunc key vs')
    (all : ∀ y < job.nReduce, Execution.reduced y ∈ w.executions) :
    ∑ y ∈ Finset.range job.nReduce, (lines ((w.dir (outputName y)).getD []) : Multiset GoString) =
      Grouping.collect (linesOf job.reduceFunc) depends
        (Grouping.groups KeyValue.key KeyValue.value job.intermediate) := by
  rw [← Job.sum_groups_records positive, ← Grouping.collect_sum]
  refine Finset.sum_congr rfl fun y member => ?_
  obtain ⟨content, there⟩ := Option.ne_none_iff_exists'.mp (right.reduced (all y (Finset.mem_range.mp member)))
  obtain ⟨sorted, perm, order, rfl⟩ := right.output there
  rw [there, Option.getD_some, lines_of_sorted depends perm order]

namespace System

variable {plugin : Plugin} {s : System} {files : List GoString} {nReduce : Nat}

/-- The whole program: whatever the coordinator, the timeouts and the crashing worker
processes do, no reduce task fails to read an intermediate file, and when `Done` is true the
output files are all there and have together the lines that `mrsequential` prints. -/
theorem done_implies_output {sort : List KeyValue → List KeyValue} {as : List SystemAction} (positive : 0 < nReduce)
    (depends : ∀ key vs vs', vs.Perm vs' → plugin.reduceFunc key vs = plugin.reduceFunc key vs')
    (readsBack : (plugin.job files nReduce).ReadsBack)
    (sorts : ∀ kva, (sort kva).Perm kva ∧ SortedByKey (sort kva)) (run : after plugin files nReduce as = some s) :
    Execution.exited ∉ s.workers.executions ∧
    (s.coordinator.Done → (∀ y < nReduce, s.workers.dir (outputName y) ≠ none) ∧
      ∑ y ∈ Finset.range nReduce, (lines ((s.workers.dir (outputName y)).getD []) : Multiset GoString) =
        lines (mrsequential sort plugin.mapFunc plugin.reduceFunc (plugin.job files nReduce).files)) := by
  have joint := joint_after readsBack run
  refine ⟨fun exited => (joint.executions _ exited).1 rfl, fun done => ?_⟩
  refine ⟨fun y bound => joint.right.reduced (joint.all_reduced done bound), ?_⟩
  have linesDepend : ∀ key vs vs', vs.Perm vs' →
      linesOf plugin.reduceFunc key vs = linesOf plugin.reduceFunc key vs' := by
    intro key vs vs' perm
    rw [linesOf, linesOf, depends key vs vs' perm]
  obtain ⟨perm, order⟩ := sorts (plugin.job files nReduce).intermediate
  have outputs := joint.right.outputs positive linesDepend fun y => joint.all_reduced done
  exact outputs.trans (lines_of_sorted linesDepend perm order).symm

/-- Counts the letters of one file. -/
def letters : Plugin where
  mapFunc := Job.letterCount.mapFunc
  reduceFunc := Job.letterCount.reduceFunc
  json := Job.letterCount.json
  input _ := some [98, 97, 98]

/-- The first process crashes in its map task; the second one gets the task after the
timeout, and then the reduce task. -/
def crashed : List SystemAction :=
  [.launch, .launch, .questTask 0, .coordinator (.compare 0), .coordinator (.dispatch 0 ⟨.map, 0⟩),
    .start 0, .crash 0, .questTask 1, .coordinator (.compare 1), .coordinator (.timeout 0),
    .coordinator (.dispatch 1 ⟨.map, 0⟩), .start 1, .turn 1 (.rename 0), .finishTask 1,
    .coordinator (.receive 0), .coordinator (.count 0), .questTask 1, .coordinator (.compare 2),
    .coordinator (.advance 2), .coordinator (.dispatch 2 ⟨.reduce, 0⟩), .start 1, .turn 1 .read,
    .turn 1 (.output [⟨[97], [49]⟩, ⟨[98], [49]⟩, ⟨[98], [49]⟩]), .finishTask 1,
    .coordinator (.receive 1), .coordinator (.count 1), .questTask 1, .coordinator (.compare 3),
    .coordinator (.advance 3)]

theorem done_implies_output_crashed : ∃ s, after letters [[102]] 1 crashed = some s ∧ s.coordinator.Done ∧
    ∑ y ∈ Finset.range 1, (lines ((s.workers.dir (outputName y)).getD []) : Multiset GoString) =
      lines (mrsequential Job.sortByKey letters.mapFunc letters.reduceFunc (letters.job [[102]] 1).files) := by
  have ends : (after letters [[102]] 1 crashed).any fun s => s.coordinator.phase = .finished := by decide +kernel
  obtain ⟨s, run, done⟩ := Option.any_eq_true _ _ |>.mp ends
  have readsBack : (letters.job [[102]] 1).ReadsBack := by
    unfold Job.ReadsBack
    decide +kernel
  have depends : ∀ key vs vs', vs.Perm vs' → letters.reduceFunc key vs = letters.reduceFunc key vs' :=
    fun _ _ _ perm => congrArg itoa perm.length_eq
  have finished : s.coordinator.Done := of_decide_eq_true done
  exact ⟨s, run, finished, ((done_implies_output (by decide) depends readsBack Job.sortByKey_sorts run).2 finished).2⟩

end System

end DistSys.Mr
