import DistSys.Core.Exec
import DistSys.Core.GoText
import DistSys.Core.Grouping

namespace DistSys.Mr

structure KeyValue where
  key : GoString
  value : GoString
  deriving DecidableEq

/-- The 32-bit FNV-1a hash of `hash/fnv`. -/
def fnv32a (key : GoString) : UInt32 :=
  key.foldl (fun h b => (h ^^^ b.toUInt32) * 16777619) 2166136261

def ihash (key : GoString) : Nat :=
  (fnv32a key &&& 0x7fffffff).toNat

/-- The order of `sort.Sort(ByKey(...))`: no entry has a key below an earlier one. -/
def SortedByKey (kva : List KeyValue) : Prop :=
  kva.Pairwise fun a b => ¬ b.key < a.key

instance decidableSortedByKey (kva : List KeyValue) : Decidable (SortedByKey kva) :=
  inferInstanceAs (Decidable (kva.Pairwise fun a b => ¬ b.key < a.key))

/-- One line of output, `"%v %v\n"`. -/
def formatLine (key res : GoString) : GoString :=
  key ++ 32 :: res ++ [10]

/-- The loop over `i` and `j` that both programs share: every run of one key is
reduced and printed. -/
def reduceLoop (reduceFunc : GoString → List GoString → GoString) (temp : List KeyValue) : GoString :=
  (Grouping.runs KeyValue.key KeyValue.value temp).flatMap fun run =>
    formatLine run.1 (reduceFunc run.1 run.2)

/-- The file that `mrsequential` writes; `sort` is what `sort.Sort` does. -/
def mrsequential (sort : List KeyValue → List KeyValue) (mapf : GoString → GoString → List KeyValue)
    (reducef : GoString → List GoString → GoString) (files : List (GoString × GoString)) : GoString :=
  reduceLoop reducef (sort (files.flatMap fun file => mapf file.1 file.2))

/-- What the intermediate files are written and read with: `json.Marshal`, the lines
of `bufio.Scanner`, and `json.Unmarshal`, which may fail. -/
structure Json where
  marshal : KeyValue → GoString
  scan : GoString → List GoString
  unmarshal : GoString → Option KeyValue

/-- A job: the plugin's functions, the input files by name and content, and the
number of reduce tasks. -/
structure Job where
  mapFunc : GoString → GoString → List KeyValue
  reduceFunc : GoString → List GoString → GoString
  json : Json
  files : List (GoString × GoString)
  nReduce : Nat

/-- A record goes to the file of its key's partition. The remainder by zero panics. -/
def writeRecord (json : Json) (nReduce : Nat) (tempFiles : List GoString) (kv : KeyValue) : Option (List GoString) :=
  if nReduce = 0 then none
  else some (tempFiles.modify (ihash kv.key % nReduce) fun content => content ++ (json.marshal kv ++ [10]))

/-- The files of one map task. -/
def createTempFiles (json : Json) (nReduce : Nat) (kva : List KeyValue) : Option (List GoString) :=
  kva.foldlM (writeRecord json nReduce) (List.replicate nReduce [])

/-- `"mr-" + taskID + "-" + id`. -/
def intermediateName (taskID id : Nat) : GoString :=
  ascii ['m', 'r', '-'] ++ (itoa taskID ++ 45 :: itoa id)

/-- `"mr-out-" + id`. -/
def outputName (id : Nat) : GoString :=
  ascii ['m', 'r', '-', 'o', 'u', 't', '-'] ++ itoa id

/-- Where the execution of a task stands. `mapping` is a `MapTask` with its
temporary files, of which those of the partitions `rest` are still to be
renamed; `reading` is a `ReduceTask` that has read the files of the map tasks
below `next`. A worker that dies takes no more steps. -/
inductive Execution
  | mapping (id : Nat) (tempFiles : List GoString) (rest : List Nat)
  | reading (id next : Nat) (temp : List KeyValue)
  | reduced (id : Nat)
  | exited

/-- The directory in which the tasks meet, and their executions, in any number and at
the same time. -/
structure Workers where
  dir : GoString → Option GoString
  executions : List Execution

/-- A `ReduceTask` sorts what it has read; `sorted` is the order it got. -/
inductive WorkerAction
  | mapTask (id : Nat)
  | rename (execution id : Nat)
  | reduceTask (id : Nat)
  | read (execution : Nat)
  | output (execution : Nat) (sorted : List KeyValue)

namespace Job

/-- The records of an intermediate file. -/
def readRecords (job : Job) (content : GoString) : Option (List KeyValue) :=
  (job.json.scan content).mapM job.json.unmarshal

def mMap (job : Job) : Nat :=
  job.files.length

/-- `MapTask` up to the renaming: the input is read and mapped and the temporary
files are written. -/
def mapTask (job : Job) (w : Workers) (id : Nat) : Option Workers := do
  let file ← job.files[id]?
  let tempFiles ← createTempFiles job.json job.nReduce (job.mapFunc file.1 file.2)
  some { w with executions := w.executions ++ [.mapping id tempFiles (List.range job.nReduce)] }

/-- One turn of the loop of `renameTempFiles`, which visits the files in any order. -/
def rename (w : Workers) (execution id : Nat) : Option Workers :=
  match w.executions[execution]? with
  | some (.mapping taskID tempFiles rest) =>
    if id ∈ rest then
      tempFiles[id]?.map fun content =>
        { dir := Function.update w.dir (intermediateName taskID id) (some content)
          executions := w.executions.set execution (.mapping taskID tempFiles (rest.erase id)) }
    else none
  | _ => none

def reduceTask (job : Job) (w : Workers) (id : Nat) : Option Workers :=
  if id < job.nReduce then some { w with executions := w.executions ++ [.reading id 0 []] } else none

/-- One turn of the loop of `readTempFiles`. Without the file, or with a line that is
not a record, the worker exits. -/
def read (job : Job) (w : Workers) (execution : Nat) : Option Workers :=
  match w.executions[execution]? with
  | some (.reading id next temp) =>
    if next < job.mMap then
      match (w.dir (intermediateName next id)).bind job.readRecords with
      | some kva => some { w with executions := w.executions.set execution (.reading id (next + 1) (temp ++ kva)) }
      | none => some { w with executions := w.executions.set execution .exited }
    else none
  | _ => none

/-- The rest of `ReduceTask`: sort, the loop, and the renaming of the output. -/
def output (job : Job) (w : Workers) (execution : Nat) (sorted : List KeyValue) : Option Workers :=
  match w.executions[execution]? with
  | some (.reading id next temp) =>
    if next = job.mMap ∧ sorted.Perm temp ∧ SortedByKey sorted then
      some
        { dir := Function.update w.dir (outputName id) (some (reduceLoop job.reduceFunc sorted))
          executions := w.executions.set execution (.reduced id) }
    else none
  | _ => none

def step (job : Job) (w : Workers) : WorkerAction → Option Workers
  | .mapTask id => job.mapTask w id
  | .rename execution id => rename w execution id
  | .reduceTask id => job.reduceTask w id
  | .read execution => job.read w execution
  | .output execution sorted => job.output w execution sorted

/-- The workers after a run that starts in a directory without files of a job. -/
def after (job : Job) (as : List WorkerAction) : Option Workers :=
  exec job.step ⟨fun _ => none, []⟩ as

end Job

end DistSys.Mr
