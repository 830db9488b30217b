import DistSys.Core.Exec
import DistSys.Core.GoValues

namespace DistSys.Mr

/-- The type of a task, and the phase in which such tasks are given out. -/
inductive TaskType
  | map
  | reduce
  | finished
  deriving DecidableEq

structure Task where
  taskType : TaskType
  id : Int
  deriving DecidableEq

structure GetTaskReply where
  task : Task
  fileName : GoString
  nReduce : Nat
  mMap : Nat

/-- Where a call of `getTask` stands: before the lock, under the lock after it
found the phase complete, in the select, or back with a task. -/
inductive CallState
  | checking
  | locked
  | selecting
  | returned (reply : GetTaskReply)

/-- Where a `traceTask` goroutine stands: in the select, after it received from its
channel, blocked in its own send after it counted the task, or at its end. -/
inductive TraceState
  | waiting
  | received
  | sending
  | ended
  deriving DecidableEq

structure Tracer where
  task : Task
  state : TraceState

/-- A tracer has passed the line that counts its task. -/
def Tracer.counted (tracer : Tracer) : Bool :=
  tracer.state = .sending || tracer.state = .ended

/-- A tracer still has to count its task or to give it back. -/
def Tracer.active (tracer : Tracer) : Bool :=
  tracer.state = .waiting || tracer.state = .received

/-- The coordinator with its goroutines. The channels have no buffers: `taskCh`
holds the tasks of the goroutines that are blocked in a send to it, and
`reports` those of the goroutines of `FinishTaskHandler`, each blocked in a
send to the trace channel of its task. A report of a task that has no trace
channel is blocked for ever. -/
structure Coordinator where
  files : List GoString
  nR : Nat
  phase : TaskType
  taskQuantity : Int
  taskFinished : Int
  phaseLock : Option Nat
  taskCh : List Task
  tracers : List Tracer
  reports : List Task
  calls : List CallState

inductive Action
  | request
  | compare (call : Nat)
  | advance (call : Nat)
  | dispatch (call : Nat) (task : Task)
  | giveUp (call : Nat)
  | report (task : Task)
  | receive (tracer : Nat)
  | receiveFrom (tracer sender : Nat)
  | count (tracer : Nat)
  | timeout (tracer : Nat)

/-- The tasks of a phase. -/
def tasksOf (phase : TaskType) (quantity : Nat) : List Task :=
  (List.range quantity).map fun i : Nat => ⟨phase, i⟩

namespace Coordinator

variable (c : Coordinator)

def mM : Nat := c.files.length

/-- Each task gets a goroutine that sends it to `taskCh`. -/
def execPhase (phase : TaskType) (taskQuantity : Int) : Coordinator :=
  { c with
    phase := phase
    taskQuantity := taskQuantity
    taskFinished := 0
    taskCh := c.taskCh ++ (if taskQuantity = -1 then [⟨.finished, -1⟩] else []) ++
      tasksOf phase taskQuantity.toNat }

def makeCoordinator (files : List GoString) (nReduce : Nat) : Coordinator :=
  execPhase
    { files := files
      nR := nReduce
      phase := .map
      taskQuantity := 0
      taskFinished := 0
      phaseLock := none
      taskCh := []
      tracers := []
      reports := []
      calls := [] } .map files.length

/-- The switch of `getTask` when all tasks of a phase are finished. -/
def nextPhase : Coordinator :=
  match c.phase with
  | .map => c.execPhase .reduce c.nR
  | .reduce => c.execPhase .finished (-1)
  | .finished => c.execPhase .finished (-1)

def setCall (i : Nat) (call : CallState) : Coordinator :=
  { c with calls := c.calls.set i call }

def setTracer (k : Nat) (tracer : Tracer) : Coordinator :=
  { c with tracers := c.tracers.set k tracer }

/-- `getTask` takes the lock and compares; it keeps the lock to move on to the next
phase. -/
def compare (i : Nat) : Option Coordinator :=
  match c.calls[i]?, c.phaseLock with
  | some .checking, none =>
    if c.taskFinished = c.taskQuantity then
      let holding := c.setCall i .locked
      some { holding with phaseLock := some i }
    else some (c.setCall i .selecting)
  | _, _ => none

def advance (i : Nat) : Option Coordinator :=
  match c.calls[i]? with
  | some .locked =>
    let next := c.nextPhase.setCall i .selecting
    some { next with phaseLock := none }
  | _ => none

/-- What `GetTaskHandler` answers. -/
def getTaskReply (task : Task) : GetTaskReply where
  task := task
  fileName := if task.taskType = .map then (c.files[task.id.toNat]?).getD [] else []
  nReduce := c.nR
  mMap := c.mM

/-- `getTask` receives a task, has it traced and returns it. -/
def dispatch (i : Nat) (task : Task) : Option Coordinator :=
  match c.calls[i]? with
  | some .selecting =>
    if task ∈ c.taskCh then
      let given := c.setCall i (.returned (c.getTaskReply task))
      some { given with
        taskCh := c.taskCh.erase task
        tracers := if task.taskType ≠ .finished then c.tracers ++ [⟨task, .waiting⟩] else c.tracers }
    else none
  | _ => none

/-- After 3 s without a task `getTask` starts again. -/
def giveUp (i : Nat) : Option Coordinator :=
  match c.calls[i]? with
  | some .selecting => some (c.setCall i .checking)
  | _ => none

/-- A tracer receives from a goroutine of `FinishTaskHandler`. -/
def receive (k : Nat) : Option Coordinator :=
  match c.tracers[k]? with
  | some ⟨task, .waiting⟩ =>
    if task ∈ c.reports then
      let moved := c.setTracer k ⟨task, .received⟩
      some { moved with reports := c.reports.erase task }
    else none
  | _ => none

/-- A tracer receives from another one of the same task, which has counted it. -/
def receiveFrom (k sender : Nat) : Option Coordinator :=
  match c.tracers[k]?, c.tracers[sender]? with
  | some ⟨task, .waiting⟩, some ⟨other, .sending⟩ =>
    if task = other then
      some ((c.setTracer k ⟨task, .received⟩).setTracer sender ⟨other, .ended⟩)
    else none
  | _, _ => none

def count (k : Nat) : Option Coordinator :=
  match c.tracers[k]? with
  | some ⟨task, .received⟩ =>
    let counted := c.setTracer k ⟨task, .sending⟩
    some { counted with taskFinished := c.taskFinished + 1 }
  | _ => none

/-- After 10 s a tracer becomes a sender of its task. -/
def timeout (k : Nat) : Option Coordinator :=
  match c.tracers[k]? with
  | some ⟨task, .waiting⟩ =>
    some { c with tracers := c.tracers.eraseIdx k, taskCh := c.taskCh ++ [task] }
  | _ => none

def step (c : Coordinator) : Action → Option Coordinator
  | .request => some { c with calls := c.calls ++ [.checking] }
  | .compare i => c.compare i
  | .advance i => c.advance i
  | .dispatch i task => c.dispatch i task
  | .giveUp i => c.giveUp i
  | .report task => some { c with reports := c.reports ++ [task] }
  | .receive k => c.receive k
  | .receiveFrom k sender => c.receiveFrom k sender
  | .count k => c.count k
  | .timeout k => c.timeout k

def after (files : List GoString) (nReduce : Nat) (as : List Action) : Option Coordinator :=
  exec step (makeCoordinator files nReduce) as

def Done : Prop := c.phase = .finished

instance : Decidable c.Done := inferInstanceAs (Decidable (c.phase = .finished))

end Coordinator

end DistSys.Mr
