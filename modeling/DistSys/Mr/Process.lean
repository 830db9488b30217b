import DistSys.Mr.Coordinator
import DistSys.Mr.Worker

namespace DistSys.Mr

/-- What all worker processes have: the functions of the plugin, the standard library, and
the input files by their names. -/
structure Plugin where
  mapFunc : GoString → GoString → List KeyValue
  reduceFunc : GoString → List GoString → GoString
  json : Json
  input : GoString → Option GoString

/-- Where a process stands in the loop of `Worker`: before `questTask`, in this call of the
coordinator, in a task, or at its end. -/
inductive Process
  | idle
  | asking (call : Nat)
  | working (reply : GetTaskReply) (execution : Nat)
  | left

structure System where
  coordinator : Coordinator
  workers : Workers
  processes : List Process

/-- One turn of a loop of `MapTask` or `ReduceTask`. -/
inductive Turn
  | rename (id : Nat)
  | read
  | output (sorted : List KeyValue)

/-- A process can be launched and can crash at any time. -/
inductive SystemAction
  | launch
  | questTask (process : Nat)
  | coordinator (action : Action)
  | start (process : Nat)
  | turn (process : Nat) (turn : Turn)
  | finishTask (process : Nat)
  | crash (process : Nat)

namespace Plugin

variable (plugin : Plugin)

/-- The job of these input files. -/
def job (files : List GoString) (nReduce : Nat) : Job where
  mapFunc := plugin.mapFunc
  reduceFunc := plugin.reduceFunc
  json := plugin.json
  files := files.map fun name => (name, (plugin.input name).getD [])
  nReduce := nReduce

/-- What a process knows of the job after a reply: how many tasks there are. -/
def known (reply : GetTaskReply) : Job where
  mapFunc := plugin.mapFunc
  reduceFunc := plugin.reduceFunc
  json := plugin.json
  files := List.replicate reply.mMap ([], [])
  nReduce := reply.nReduce

/-- `MapTask` up to the renaming, with the numbers and the file name of the reply. It fails if
there is no such file, or if there is a record and no reduce task to write it for. -/
def mapTask (w : Workers) (reply : GetTaskReply) : Option Workers := do
  let content ← plugin.input reply.fileName
  let tempFiles ← createTempFiles plugin.json reply.nReduce (plugin.mapFunc reply.fileName content)
  some { w with
    executions := w.executions ++ [.mapping reply.task.id.toNat tempFiles (List.range reply.nReduce)] }

/-- The start of `ReduceTask`. -/
def reduceTask (w : Workers) (reply : GetTaskReply) : Workers :=
  { w with executions := w.executions ++ [.reading reply.task.id.toNat 0 []] }

def turn (w : Workers) (reply : GetTaskReply) (execution : Nat) : Turn → Option Workers
  | .rename id => Job.rename w execution id
  | .read => (plugin.known reply).read w execution
  | .output sorted => (plugin.known reply).output w execution sorted

end Plugin

/-- The loop of the task has ended. -/
def Execution.complete : Execution → Bool
  | .mapping _ _ [] => true
  | .reduced _ => true
  | _ => false

/-- The steps of the coordinator that are not calls of its handlers. -/
def Action.internal : Action → Bool
  | .request | .report _ => false
  | _ => true

namespace System

variable (s : System)

def setProcess (p : Nat) (process : Process) : System :=
  { s with processes := s.processes.set p process }

/-- `questTask` calls `GetTaskHandler`. -/
def questTask (p : Nat) : Option System :=
  match s.processes[p]? with
  | some .idle =>
    (s.coordinator.step .request).map fun c =>
      { s.setProcess p (.asking s.coordinator.calls.length) with coordinator := c }
  | _ => none

/-- The switch of `Worker` after the reply. -/
def start (plugin : Plugin) (p : Nat) : Option System :=
  match s.processes[p]? with
  | some (.asking call) =>
    match s.coordinator.calls[call]? with
    | some (.returned reply) =>
      match reply.task.taskType with
      | .map =>
        match plugin.mapTask s.workers reply with
        | some w => some { s.setProcess p (.working reply s.workers.executions.length) with workers := w }
        | none => some (s.setProcess p .left)
      | .reduce =>
        some { s.setProcess p (.working reply s.workers.executions.length) with
          workers := Plugin.reduceTask s.workers reply }
      | .finished => some (s.setProcess p .left)
    | _ => none
  | _ => none

def turn (plugin : Plugin) (p : Nat) (turn : Turn) : Option System :=
  match s.processes[p]? with
  | some (.working reply execution) =>
    (plugin.turn s.workers reply execution turn).map fun w => { s with workers := w }
  | _ => none

/-- `finishTask` calls `FinishTaskHandler`, and the loop begins again. -/
def finishTask (p : Nat) : Option System :=
  match s.processes[p]? with
  | some (.working reply execution) =>
    match s.workers.executions[execution]? with
    | some done =>
      if done.complete then
        (s.coordinator.step (.report reply.task)).map fun c => { s.setProcess p .idle with coordinator := c }
      else none
    | none => none
  | _ => none

def step (plugin : Plugin) (s : System) : SystemAction → Option System
  | .launch => some { s with processes := s.processes ++ [.idle] }
  | .questTask p => s.questTask p
  | .coordinator a =>
    if a.internal then (s.coordinator.step a).map fun c => { s with coordinator := c } else none
  | .start p => s.start plugin p
  | .turn p turn => s.turn plugin p turn
  | .finishTask p => s.finishTask p
  | .crash p => some (s.setProcess p .left)

/-- `MakeCoordinator`, in a directory without files of a job. -/
def init (files : List GoString) (nReduce : Nat) : System :=
  ⟨.makeCoordinator files nReduce, ⟨fun _ => none, []⟩, []⟩

def after (plugin : Plugin) (files : List GoString) (nReduce : Nat) (as : List SystemAction) : Option System :=
  exec (step plugin) (init files nReduce) as

end System

end DistSys.Mr
