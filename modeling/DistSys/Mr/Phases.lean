import DistSys.Mr.Coordinator
import Mathlib.Data.List.Nodup
import Mathlib.Data.List.Perm.Subperm

namespace DistSys.Mr

theorem mem_tasksOf {t : Task} {phase : TaskType} {quantity : Nat} :
    t ∈ tasksOf phase quantity ↔ t.taskType = phase ∧ 0 ≤ t.id ∧ t.id < quantity := by
  obtain ⟨type, id⟩ := t
  simp only [tasksOf, List.mem_map, List.mem_range, Task.mk.injEq]
  constructor
  · rintro ⟨i, inside, same, rfl⟩
    exact ⟨same.symm, by omega, by omega⟩
  · rintro ⟨same, lower, upper⟩
    exact ⟨id.toNat, by omega, same.symm, by omega⟩

theorem nodup_tasksOf (phase : TaskType) (quantity : Nat) : (tasksOf phase quantity).Nodup := by
  refine List.Nodup.map ?_ List.nodup_range
  intro i j same
  exact Int.ofNat_inj.mp (Task.mk.inj same).2

theorem length_tasksOf (phase : TaskType) (quantity : Nat) :
    (tasksOf phase quantity).length = quantity := by
  rw [tasksOf, List.length_map, List.length_range]

namespace Coordinator

variable {c c' : Coordinator} {as : List Action} {t task : Task} {tracer : Tracer} {i k : Nat}

/-- How often a task is in the queue or with a tracer. -/
def tokens (c : Coordinator) (t : Task) : Nat :=
  c.taskCh.count t + (c.tracers.map Tracer.task).count t

/-- How many tasks of a phase have been counted. -/
def countedOf (c : Coordinator) (phase : TaskType) : Nat :=
  c.tracers.countP fun tracer => tracer.counted && tracer.task.taskType = phase

/-- Those tasks. -/
def countedTasks (c : Coordinator) (phase : TaskType) : List Task :=
  (c.tracers.filter fun tracer => tracer.counted && tracer.task.taskType = phase).map Tracer.task

def Counted (c : Coordinator) (t : Task) : Prop :=
  ∃ tracer ∈ c.tracers, tracer.task = t ∧ tracer.counted = true

/-- The tasks that have been put into the queue. -/
def Started (c : Coordinator) (t : Task) : Prop :=
  t ∈ tasksOf .map c.mM ∨ c.phase ≠ .map ∧ t ∈ tasksOf .reduce c.nR

/-- Each task that was started has one token, which is in the queue or with one
tracer; a tracer that has counted its task keeps the token. -/
structure Conserved (c : Coordinator) : Prop where
  one : ∀ {t}, c.Started t → c.tokens t = 1
  none : ∀ {t}, t.taskType ≠ .finished → ¬ c.Started t → c.tokens t = 0
  traced : ∀ tracer ∈ c.tracers, tracer.task.taskType ≠ .finished

/-- The counter shows the tasks of the phase that are counted; past phases are
complete. -/
structure Tallied (c : Coordinator) : Prop where
  map : c.phase = .map → c.taskQuantity = c.mM ∧ c.taskFinished = c.countedOf .map
  reduce : c.phase = .reduce → c.taskQuantity = c.nR ∧ c.taskFinished = c.countedOf .reduce
  finished : c.phase = .finished → c.taskQuantity = -1 ∧ c.taskFinished = 0
  mapped : c.phase ≠ .map → ∀ t ∈ tasksOf .map c.mM, c.Counted t
  reduced : c.phase = .finished → ∀ t ∈ tasksOf .reduce c.nR, c.Counted t

/-- Who holds the lock found the phase complete, and it still is. -/
structure Locked (c : Coordinator) : Prop where
  holder : ∀ {i}, c.calls[i]? = some .locked → c.phaseLock = some i
  complete : ∀ {i}, c.phaseLock = some i → c.taskFinished = c.taskQuantity

/-- Only what was reported is counted. -/
structure Heard (as : List Action) (c : Coordinator) : Prop where
  reports : ∀ t ∈ c.reports, Action.report t ∈ as
  tracers : ∀ tracer ∈ c.tracers, tracer.state ≠ .waiting → Action.report tracer.task ∈ as

/-- Reduce tasks are given out only after the map phase. -/
def Given (c : Coordinator) : Prop :=
  ∀ reply, CallState.returned reply ∈ c.calls → reply.task.taskType = .reduce → c.phase ≠ .map

/-! Tokens -/

theorem Conserved.le_one (conserved : Conserved c) (real : t.taskType ≠ .finished) : c.tokens t ≤ 1 := by
  by_cases started : c.Started t
  · exact (conserved.one started).le
  · rw [conserved.none real started]
    exact Nat.zero_le 1

theorem Conserved.started (conserved : Conserved c) (real : t.taskType ≠ .finished)
    (positive : 0 < c.tokens t) : c.Started t := by
  by_contra absent
  rw [conserved.none real absent] at positive
  exact absurd positive (Nat.lt_irrefl 0)

theorem tokens_pos_of_queue (member : t ∈ c.taskCh) : 0 < c.tokens t :=
  (List.count_pos_iff.mpr member).trans_le (Nat.le_add_right _ _)

theorem tokens_pos_of_tracer (member : tracer ∈ c.tracers) : 0 < c.tokens tracer.task :=
  (List.count_pos_iff.mpr (List.mem_map_of_mem member)).trans_le (Nat.le_add_left _ _)

theorem Conserved.nodup (conserved : Conserved c) : (c.tracers.map Tracer.task).Nodup := by
  rw [List.nodup_iff_count_le_one]
  intro t
  by_cases real : t.taskType ≠ .finished
  · exact (Nat.le_add_left _ _).trans (conserved.le_one real)
  · rw [List.count_eq_zero_of_not_mem]
    · exact Nat.zero_le 1
    · intro member
      obtain ⟨tracer, inside, rfl⟩ := List.mem_map.mp member
      exact real (conserved.traced tracer inside)

/-- A task has one tracer. -/
theorem Conserved.unique {other : Tracer} {j : Nat} (conserved : Conserved c)
    (here : c.tracers[k]? = some tracer) (there : c.tracers[j]? = some other)
    (same : tracer.task = other.task) : k = j := by
  have first : (c.tracers.map Tracer.task)[k]? = some tracer.task := by
    rw [List.getElem?_map, here, Option.map_some]
  have second : (c.tracers.map Tracer.task)[j]? = some tracer.task := by
    rw [List.getElem?_map, there, Option.map_some, same]
  have bound := (List.getElem?_eq_some_iff.mp first).1
  exact (List.getElem?_inj bound conserved.nodup).mp (first.trans second.symm)

/-- A tracer that has not counted its task holds the only token, so the task is
not counted. -/
theorem Conserved.not_counted (conserved : Conserved c) (here : c.tracers[k]? = some tracer)
    (uncounted : tracer.counted = false) : ¬ c.Counted tracer.task := by
  rintro ⟨other, member, same, counted⟩
  obtain ⟨j, there⟩ := List.mem_iff_getElem?.mp member
  have index := conserved.unique here there same.symm
  subst index
  cases here.symm.trans there
  rw [uncounted] at counted
  cases counted

theorem mem_countedTasks {phase : TaskType} :
    t ∈ c.countedTasks phase ↔ t.taskType = phase ∧ c.Counted t := by
  simp only [countedTasks, Counted, List.mem_map, List.mem_filter, Bool.and_eq_true, decide_eq_true_eq]
  constructor
  · rintro ⟨tracer, ⟨member, counted, rfl⟩, rfl⟩
    exact ⟨rfl, tracer, member, rfl, counted⟩
  · rintro ⟨rfl, tracer, member, rfl, counted⟩
    exact ⟨tracer, ⟨member, counted, rfl⟩, rfl⟩

theorem length_countedTasks (c : Coordinator) (phase : TaskType) :
    (c.countedTasks phase).length = c.countedOf phase := by
  rw [countedTasks, List.length_map, ← List.countP_eq_length_filter, countedOf]

section
variable {quantity : Nat} (conserved : Conserved c) (phase : TaskType) (real : phase ≠ .finished)
variable (started : ∀ {t}, t.taskType = phase → c.Started t → t ∈ tasksOf phase quantity)
include conserved real started

/-- Every task of a phase is counted at most once, and nothing else is. -/
theorem Conserved.countedTasks_subperm : (c.countedTasks phase).Subperm (tasksOf phase quantity) := by
  refine ((List.filter_sublist.map _).nodup conserved.nodup).subperm fun t member => ?_
  obtain ⟨type, tracer, traced, rfl, _⟩ := mem_countedTasks.mp member
  refine started type (conserved.started ?_ (tokens_pos_of_tracer traced))
  rwa [type]

/-- The counter does not pass the number of tasks. -/
theorem Conserved.countedOf_le : c.countedOf phase ≤ quantity := by
  have fits := (conserved.countedTasks_subperm phase real started).length_le
  rwa [length_tasksOf, length_countedTasks] at fits

/-- When the counter has reached the number of tasks, all of them are counted. -/
theorem Conserved.all_counted (all : c.countedOf phase = quantity) :
    ∀ t ∈ tasksOf phase quantity, c.Counted t := by
  have perm := (conserved.countedTasks_subperm phase real started).perm_of_length_le (by
    rw [length_tasksOf, length_countedTasks]
    exact all.ge)
  intro t member
  exact (mem_countedTasks.mp (perm.mem_iff.mpr member)).2

end

/-! What a step can do -/

inductive Moves (c : Coordinator) : Action → Coordinator → Prop
  | request : Moves c .request { c with calls := c.calls ++ [.checking] }
  | wait {i : Nat} : c.calls[i]? = some .checking → Moves c (.compare i) (c.setCall i .selecting)
  | lock {i : Nat} : c.calls[i]? = some .checking → c.phaseLock = none →
      c.taskFinished = c.taskQuantity →
      Moves c (.compare i) { c with calls := c.calls.set i .locked, phaseLock := some i }
  | advance {i : Nat} : c.calls[i]? = some .locked →
      Moves c (.advance i)
        { c.nextPhase with calls := c.calls.set i .selecting, phaseLock := none }
  | dispatch {i : Nat} {task : Task} : c.calls[i]? = some .selecting → task ∈ c.taskCh →
      task.taskType ≠ .finished →
      Moves c (.dispatch i task) { c with
        calls := c.calls.set i (.returned (c.getTaskReply task))
        taskCh := c.taskCh.erase task
        tracers := c.tracers ++ [⟨task, .waiting⟩] }
  | stop {i : Nat} {task : Task} : c.calls[i]? = some .selecting → task.taskType = .finished →
      Moves c (.dispatch i task) { c with
        calls := c.calls.set i (.returned (c.getTaskReply task))
        taskCh := c.taskCh.erase task }
  | giveUp {i : Nat} : c.calls[i]? = some .selecting → Moves c (.giveUp i) (c.setCall i .checking)
  | report {task : Task} : Moves c (.report task) { c with reports := c.reports ++ [task] }
  | receive {k : Nat} {task : Task} : c.tracers[k]? = some ⟨task, .waiting⟩ → task ∈ c.reports →
      Moves c (.receive k)
        { c with tracers := c.tracers.set k ⟨task, .received⟩, reports := c.reports.erase task }
  | relay {k sender : Nat} {task : Task} {c' : Coordinator} : c.tracers[k]? = some ⟨task, .waiting⟩ →
      c.tracers[sender]? = some ⟨task, .sending⟩ → Moves c (.receiveFrom k sender) c'
  | count {k : Nat} {task : Task} : c.tracers[k]? = some ⟨task, .received⟩ →
      Moves c (.count k) { c with
        tracers := c.tracers.set k ⟨task, .sending⟩
        taskFinished := c.taskFinished + 1 }
  | timeout {k : Nat} {task : Task} : c.tracers[k]? = some ⟨task, .waiting⟩ →
      Moves c (.timeout k)
        { c with tracers := c.tracers.eraseIdx k, taskCh := c.taskCh ++ [task] }

theorem moves_of_step {a : Action} (next : step c a = some c') : Moves c a c' := by
  cases a with
  | request => cases next; exact .request
  | compare i =>
    simp only [step, compare] at next
    split at next
    next here free =>
      split at next
      next complete => cases next; exact .lock here free complete
      next => cases next; exact .wait here
    next => cases next
  | advance i =>
    simp only [step, advance] at next
    split at next
    next here =>
      cases next
      have same : (c.nextPhase.setCall i .selecting).calls = c.calls.set i .selecting := by
        unfold nextPhase setCall execPhase
        split <;> rfl
      have moves := Moves.advance here
      rwa [← same] at moves
    next => cases next
  | dispatch i task =>
    simp only [step, dispatch] at next
    split at next
    next here =>
      split at next
      next queued =>
        cases next
        by_cases real : task.taskType ≠ .finished
        · rw [if_pos real]
          exact .dispatch here queued real
        · rw [if_neg real]
          exact .stop here (not_not.mp real)
      next => cases next
    next => cases next
  | giveUp i =>
    simp only [step, giveUp] at next
    split at next
    next here => cases next; exact .giveUp here
    next => cases next
  | report task => cases next; exact .report
  | receive k =>
    simp only [step, receive] at next
    split at next
    next task here =>
      split at next
      next reported => cases next; exact .receive here reported
      next => cases next
    next => cases next
  | receiveFrom k sender =>
    simp only [step, receiveFrom] at next
    split at next
    next task other here there =>
      split at next
      next same =>
        subst same
        exact .relay here there
      next => cases next
    next => cases next
  | count k =>
    simp only [step, count] at next
    split at next
    next task here => cases next; exact .count here
    next => cases next
  | timeout k =>
    simp only [step, timeout] at next
    split at next
    next task here => cases next; exact .timeout here
    next => cases next

/-- The next phase starts with all its tasks in the queue; the last one has only
the task that tells a worker to stop. -/
theorem nextPhase_cases (c : Coordinator) :
    (c.phase = .map ∧ c.nextPhase = { c with
      phase := .reduce
      taskQuantity := c.nR
      taskFinished := 0
      taskCh := c.taskCh ++ tasksOf .reduce c.nR }) ∨
    (c.phase ≠ .map ∧ c.nextPhase = { c with
      phase := .finished
      taskQuantity := -1
      taskFinished := 0
      taskCh := c.taskCh ++ [⟨.finished, -1⟩] }) := by
  have last : c.execPhase .finished (-1) = { c with
      phase := .finished
      taskQuantity := -1
      taskFinished := 0
      taskCh := c.taskCh ++ [⟨.finished, -1⟩] } := by
    unfold execPhase
    simp [tasksOf]
  unfold nextPhase
  cases phase : c.phase with
  | map =>
    left
    refine ⟨rfl, ?_⟩
    have positive : (c.nR : Int) ≠ -1 := by omega
    unfold execPhase
    simp [positive]
  | reduce => exact Or.inr ⟨by simp, last⟩
  | finished => exact Or.inr ⟨by simp, last⟩

end Coordinator

end DistSys.Mr
