import DistSys.Mr.Distributed

namespace DistSys.Mr

/-- The lines of what one group of values is reduced to. -/
def linesOf (reduceFunc : GoString → List GoString → GoString) (key : GoString) (values : List GoString) :
    Multiset GoString :=
  (lines (formatLine key (reduceFunc key values)) : Multiset GoString)

theorem lines_reduceLoop (reduceFunc : GoString → List GoString → GoString) (temp : List KeyValue) :
    (lines (reduceLoop reduceFunc temp) : Multiset GoString) =
      ((Grouping.runs KeyValue.key KeyValue.value temp).map fun run => linesOf reduceFunc run.1 run.2).sum := by
  rw [reduceLoop]
  induction Grouping.runs KeyValue.key KeyValue.value temp with
  | nil => rfl
  | cons run rest ih =>
    rw [List.flatMap_cons, List.map_cons, List.sum_cons, ← ih, formatLine, List.append_assoc,
      List.singleton_append, lines_append, ← Multiset.coe_add]
    rfl

/-- The loop on any sorted order of some records prints what their groups reduce to. -/
theorem lines_of_sorted {reduceFunc : GoString → List GoString → GoString}
    (depends : ∀ key vs vs', vs.Perm vs' → linesOf reduceFunc key vs = linesOf reduceFunc key vs')
    {sorted temp : List KeyValue} (perm : sorted.Perm temp) (order : SortedByKey sorted) :
    (lines (reduceLoop reduceFunc sorted) : Multiset GoString) =
      Grouping.collect (linesOf reduceFunc) depends (Grouping.groups KeyValue.key KeyValue.value temp) := by
  have antisymm : ∀ {j k : GoString}, ¬ k < j → ¬ j < k → j = k := fun above below =>
    List.le_antisymm above below
  rw [lines_reduceLoop, Grouping.collect_runs depends antisymm order, Grouping.groups_perm perm]

namespace Job

variable {job : Job} {w w' : Workers} {as : List WorkerAction}

/-- All records of the input, in the order of `mrsequential`. -/
def intermediate (job : Job) : List KeyValue :=
  job.files.flatMap fun file => job.mapFunc file.1 file.2

theorem records_mMap (job : Job) (y : Nat) :
    job.records y job.mMap = job.intermediate.filter fun kv => ihash kv.key % job.nReduce = y := by
  rw [records, mMap, List.take_length, intermediate, List.filter_flatMap]
  rfl

/-- The partitions together have the groups of all records. -/
theorem sum_groups_records (positive : 0 < job.nReduce) :
    ∑ y ∈ Finset.range job.nReduce, Grouping.groups KeyValue.key KeyValue.value (job.records y job.mMap) =
      Grouping.groups KeyValue.key KeyValue.value job.intermediate := by
  simp only [records_mMap]
  exact Grouping.sum_groups_filter (fun key => ihash key % job.nReduce)
    fun kv _ => Nat.mod_lt _ positive

/-- A `MapTask` in its loop can rename all its files. -/
theorem rename_all (job : Job) {e x : Nat} {tempFiles : List GoString} {rest : List Nat}
    (here : w.executions[e]? = some (.mapping x tempFiles rest)) (small : ∀ y ∈ rest, y < tempFiles.length) :
    ∃ bs w', exec job.step w bs = some w' ∧ Execution.mapping x tempFiles [] ∈ w'.executions := by
  induction rest generalizing w with
  | nil => exact ⟨[], w, rfl, List.mem_of_getElem? here⟩
  | cons y rest ih =>
    obtain ⟨content, entry⟩ : ∃ content, tempFiles[y]? = some content :=
      ⟨_, List.getElem?_eq_getElem (small y List.mem_cons_self)⟩
    let w₁ : Workers := ⟨Function.update w.dir (intermediateName x y) (some content),
      w.executions.set e (.mapping x tempFiles rest)⟩
    have next : job.step w (.rename e y) = some w₁ := by
      simp only [step, rename, here, List.mem_cons_self, if_true, entry, Option.map_some,
        List.erase_cons_head, w₁]
    have within := (List.getElem?_eq_some_iff.mp here).1
    have here₁ : w₁.executions[e]? = some (.mapping x tempFiles rest) := List.getElem?_set_self within
    obtain ⟨bs, w', run, done⟩ := ih here₁ fun z member => small z (List.mem_cons_of_mem y member)
    exact ⟨.rename e y :: bs, w', by rw [exec, next, Option.bind_some, run], done⟩

theorem mapTask_completes {x : Nat} (positive : 0 < job.nReduce) (bound : x < job.mMap) (w : Workers) :
    ∃ bs w' temp, exec job.step w bs = some w' ∧ Execution.mapping x temp [] ∈ w'.executions := by
  obtain ⟨file, input⟩ : ∃ file, job.files[x]? = some file := ⟨_, List.getElem?_eq_getElem bound⟩
  let tempFiles := (List.range job.nReduce).map (partitionText job.json job.nReduce (job.mapFunc file.1 file.2))
  let w₁ : Workers := ⟨w.dir, w.executions ++ [.mapping x tempFiles (List.range job.nReduce)]⟩
  have next : job.step w (.mapTask x) = some w₁ := by
    simp [step, mapTask, input, createTempFiles_eq job.json positive, w₁, tempFiles]
  have here : w₁.executions[w.executions.length]? =
      some (.mapping x tempFiles (List.range job.nReduce)) := List.getElem?_concat_length
  obtain ⟨bs, w', run, done⟩ := rename_all job here fun y member => by
    rw [List.length_map, List.length_range]
    exact List.mem_range.mp member
  exact ⟨.mapTask x :: bs, w', tempFiles, by rw [exec, next, Option.bind_some, run], done⟩

/-- A `ReduceTask` whose files are all there can read them all. -/
theorem read_all {e y k n : Nat} {temp : List KeyValue} (readsBack : job.ReadsBack) (right : Right job w)
    (there : ∀ x < job.mMap, w.dir (intermediateName x y) ≠ none)
    (here : w.executions[e]? = some (.reading y k temp)) (left : k + n = job.mMap) :
    ∃ bs w', exec job.step w bs = some w' ∧ Right job w' ∧
      ∃ all, w'.executions[e]? = some (.reading y job.mMap all) := by
  induction n generalizing w k temp with
  | zero => exact ⟨[], w, rfl, right, temp, by rw [here, ← left, Nat.add_zero]⟩
  | succ n ih =>
    have more : k < job.mMap := by omega
    obtain ⟨content, entry⟩ := Option.ne_none_iff_exists'.mp (there k more)
    obtain ⟨file, input, bound, rfl⟩ := right.intermediate entry
    have decoded := readsBack file (List.mem_of_getElem? input) y bound
    let w₁ : Workers := ⟨w.dir, w.executions.set e (.reading y (k + 1) (temp ++ job.partition y file))⟩
    have next : job.step w (.read e) = some w₁ := by
      simp only [step, read, here, more, if_true, entry, Option.bind_some, decoded, w₁]
    have within := (List.getElem?_eq_some_iff.mp here).1
    have here₁ : w₁.executions[e]? = some (.reading y (k + 1) (temp ++ job.partition y file)) :=
      List.getElem?_set_self within
    obtain ⟨bs, w', run, rest⟩ := ih (right.step readsBack next) there here₁ (by omega)
    exact ⟨.read e :: bs, w', by rw [exec, next, Option.bind_some, run], rest⟩

theorem reduceTask_completes {y : Nat} {sort : List KeyValue → List KeyValue} (readsBack : job.ReadsBack)
    (sorts : ∀ kva, (sort kva).Perm kva ∧ SortedByKey (sort kva)) (right : Right job w)
    (mapped : ∀ x < job.mMap, ∃ temp, Execution.mapping x temp [] ∈ w.executions) (bound : y < job.nReduce) :
    ∃ bs w', exec job.step w bs = some w' ∧ Execution.reduced y ∈ w'.executions := by
  have there : ∀ x < job.mMap, w.dir (intermediateName x y) ≠ none := by
    intro x small
    obtain ⟨temp, member⟩ := mapped x small
    obtain ⟨_, _, _, renamed⟩ := right.mapping member
    exact (renamed y bound).resolve_left List.not_mem_nil
  have start : job.step w (.reduceTask y) = some ⟨w.dir, w.executions ++ [.reading y 0 []]⟩ := by
    simp only [step, reduceTask, bound, if_true]
  obtain ⟨bs, w₁, run, right₁, all, here⟩ := read_all readsBack (right.step readsBack start) there
    List.getElem?_concat_length (Nat.zero_add job.mMap)
  let w₂ : Workers := ⟨Function.update w₁.dir (outputName y) (some (reduceLoop job.reduceFunc (sort all))),
    w₁.executions.set w.executions.length (.reduced y)⟩
  have last : job.step w₁ (.output w.executions.length (sort all)) = some w₂ := by
    simp only [step, output, here, sorts all, and_self, if_true, w₂]
  refine ⟨(.reduceTask y :: bs) ++ [.output w.executions.length (sort all)], w₂, ?_, ?_⟩
  · refine exec_concat ?_ last
    rw [exec, start, Option.bind_some, run]
  · exact List.mem_set (List.getElem?_eq_some_iff.mp here).1 _

/-- The distributed job equals the sequential one. Once every reduce task has been
executed, however often and in whatever interleaving the tasks ran, the output
files have together the lines that `mrsequential` prints; and every task can be
executed, a reduce task as soon as every map task has been. -/
theorem distributed_eq_sequential {sort : List KeyValue → List KeyValue} (positive : 0 < job.nReduce)
    (depends : ∀ key vs vs', vs.Perm vs' → job.reduceFunc key vs = job.reduceFunc key vs')
    (readsBack : job.ReadsBack) (sorts : ∀ kva, (sort kva).Perm kva ∧ SortedByKey (sort kva))
    (run : job.after as = some w) :
    ((∀ y < job.nReduce, Execution.reduced y ∈ w.executions) →
      (∀ y < job.nReduce, w.dir (outputName y) ≠ none) ∧
      ∑ y ∈ Finset.range job.nReduce, (lines ((w.dir (outputName y)).getD []) : Multiset GoString) =
        lines (mrsequential sort job.mapFunc job.reduceFunc job.files)) ∧
    (∀ x < job.mMap, ∃ bs w' temp, exec job.step w bs = some w' ∧
      Execution.mapping x temp [] ∈ w'.executions) ∧
    ((∀ x < job.mMap, ∃ temp, Execution.mapping x temp [] ∈ w.executions) →
      ∀ y < job.nReduce, ∃ bs w', exec job.step w bs = some w' ∧ Execution.reduced y ∈ w'.executions) := by
  have right := right_after readsBack run
  refine ⟨fun all => ⟨fun y bound => right.reduced (all y bound), ?_⟩,
    fun x bound => mapTask_completes positive bound w,
    fun mapped y bound => reduceTask_completes readsBack sorts right mapped bound⟩
  have linesDepend : ∀ key vs vs', vs.Perm vs' → linesOf job.reduceFunc key vs = linesOf job.reduceFunc key vs' := by
    intro key vs vs' perm
    rw [linesOf, linesOf, depends key vs vs' perm]
  have outputs : ∀ y ∈ Finset.range job.nReduce,
      (lines ((w.dir (outputName y)).getD []) : Multiset GoString) =
        Grouping.collect (linesOf job.reduceFunc) linesDepend
          (Grouping.groups KeyValue.key KeyValue.value (job.records y job.mMap)) := by
    intro y member
    obtain ⟨content, there⟩ := Option.ne_none_iff_exists'.mp (right.reduced (all y (Finset.mem_range.mp member)))
    obtain ⟨sorted, perm, order, rfl⟩ := right.output there
    rw [there, Option.getD_some, lines_of_sorted linesDepend perm order]
  obtain ⟨perm, order⟩ := sorts job.intermediate
  calc
    _ = ∑ y ∈ Finset.range job.nReduce, Grouping.collect (linesOf job.reduceFunc) linesDepend
          (Grouping.groups KeyValue.key KeyValue.value (job.records y job.mMap)) :=
        Finset.sum_congr rfl outputs
    _ = Grouping.collect (linesOf job.reduceFunc) linesDepend
          (Grouping.groups KeyValue.key KeyValue.value job.intermediate) := by
        rw [Grouping.collect_sum, sum_groups_records positive]
    _ = lines (reduceLoop job.reduceFunc (sort job.intermediate)) :=
        (lines_of_sorted linesDepend perm order).symm

/-- Counts the letters of two files with two reduce tasks. -/
def letterCount : Job where
  mapFunc _ contents := contents.map fun b => ⟨[b], [49]⟩
  reduceFunc _ values := itoa values.length
  json :=
    { marshal := fun kv => kv.key ++ kv.value
      scan := lines
      unmarshal := fun line => if line.length = 2 then some ⟨line.take 1, line.drop 1⟩ else none }
  files := [([97], [98, 97, 98]), ([98], [99, 98])]
  nReduce := 2

/-- The first map task is executed twice, the second time while the reduce tasks run. -/
def letterCountRun : List WorkerAction :=
  [.mapTask 0, .rename 0 1, .mapTask 1, .rename 1 0, .rename 1 1, .rename 0 0, .reduceTask 1, .mapTask 0,
    .read 2, .rename 3 0, .read 2, .output 2 [⟨[98], [49]⟩, ⟨[98], [49]⟩, ⟨[98], [49]⟩], .reduceTask 0,
    .rename 3 1, .read 4, .read 4, .output 4 [⟨[97], [49]⟩, ⟨[99], [49]⟩]]

def sortByKey (kva : List KeyValue) : List KeyValue :=
  kva.mergeSort fun a b => ¬ b.key < a.key

theorem sortByKey_sorts (kva : List KeyValue) : (sortByKey kva).Perm kva ∧ SortedByKey (sortByKey kva) := by
  refine ⟨List.mergeSort_perm kva _, ?_⟩
  have trans : ∀ a b c : KeyValue, decide (¬ b.key < a.key) → decide (¬ c.key < b.key) →
      decide (¬ c.key < a.key) := fun _ _ _ first second =>
    decide_eq_true (List.le_trans (of_decide_eq_true first) (of_decide_eq_true second))
  have total : ∀ a b : KeyValue, decide (¬ b.key < a.key) || decide (¬ a.key < b.key) := by
    intro a b
    rw [Bool.or_eq_true, decide_eq_true_eq, decide_eq_true_eq]
    exact List.le_total a.key b.key
  exact (List.pairwise_mergeSort trans total kva).imp of_decide_eq_true

theorem distributed_eq_sequential_letterCount :
    ∃ w, letterCount.after letterCountRun = some w ∧
      ∑ y ∈ Finset.range 2, (lines ((w.dir (outputName y)).getD []) : Multiset GoString) =
        lines (mrsequential sortByKey letterCount.mapFunc letterCount.reduceFunc letterCount.files) := by
  have runs : (letterCount.after letterCountRun).isSome = true := by decide +kernel
  obtain ⟨w, run⟩ := Option.isSome_iff_exists.mp runs
  have readsBack : letterCount.ReadsBack := by
    unfold ReadsBack
    decide +kernel
  have depends : ∀ key vs vs', vs.Perm vs' →
      letterCount.reduceFunc key vs = letterCount.reduceFunc key vs' := fun _ _ _ perm =>
    congrArg itoa perm.length_eq
  have reduced : ∀ y < letterCount.nReduce, Execution.reduced y ∈ w.executions := by
    have ended : (letterCount.after letterCountRun).map (fun w =>
        w.executions.filterMap fun | .reduced y => some y | _ => none) = some [1, 0] := by decide +kernel
    rw [run, Option.map_some, Option.some.injEq] at ended
    intro y bound
    have member : y ∈ [1, 0] := by
      have small : y < 2 := bound
      simp only [List.mem_cons, List.not_mem_nil]
      omega
    rw [← ended] at member
    obtain ⟨execution, inside, is⟩ := List.mem_filterMap.mp member
    cases execution with
    | reduced z => cases is; exact inside
    | mapping | reading | exited => cases is
  exact ⟨w, run, ((distributed_eq_sequential (by decide) depends readsBack sortByKey_sorts run).1 reduced).2⟩

end Job

end DistSys.Mr
