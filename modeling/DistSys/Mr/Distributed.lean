import DistSys.Mr.Worker

namespace DistSys.Mr

theorem intermediateName_inj {x y x' y' : Nat} (same : intermediateName x y = intermediateName x' y') :
    x = x' ∧ y = y' := by
  have tails := List.append_cancel_left same
  obtain ⟨first, -, second⟩ :=
    (List.append_cons_inj_of_notMem (dash_notMem_itoa x) (dash_notMem_itoa y)).mp tails
  exact ⟨itoa_injective first, itoa_injective second⟩

theorem outputName_inj {y y' : Nat} (same : outputName y = outputName y') : y = y' :=
  itoa_injective (List.append_cancel_left same)

/-- After `"mr-"` the one has a digit and the other a letter. -/
theorem intermediateName_ne_outputName (x y z : Nat) : intermediateName x y ≠ outputName z := by
  intro same
  have names : ascii ['m', 'r', '-'] ++ (itoa x ++ 45 :: itoa y) =
      ascii ['m', 'r', '-'] ++ (ascii ['o', 'u', 't', '-'] ++ itoa z) := same
  have tails := List.append_cancel_left names
  cases digits : itoa x with
  | nil => exact itoa_ne_nil x digits
  | cons b rest =>
    rw [digits] at tails
    have letter : b = 111 := (List.cons.inj tails).1
    have digit := mem_itoa (digits ▸ List.mem_cons_self : b ∈ itoa x)
    rw [letter] at digit
    exact absurd digit.2 (by decide)

/-- The lines of the records of a partition, in order. -/
def partitionText (json : Json) (nReduce : Nat) (kva : List KeyValue) (y : Nat) : GoString :=
  (kva.filter fun kv => ihash kv.key % nReduce = y).flatMap fun kv => json.marshal kv ++ [10]

/-- One more record is appended to one of the texts. -/
theorem modify_partitionTexts (json : Json) (nReduce : Nat) (kva : List KeyValue) (kv : KeyValue) :
    ((List.range nReduce).map (partitionText json nReduce kva)).modify (ihash kv.key % nReduce)
        (fun content => content ++ (json.marshal kv ++ [10])) =
      (List.range nReduce).map (partitionText json nReduce (kva ++ [kv])) := by
  refine List.ext_getElem? fun y => ?_
  by_cases inside : y < nReduce
  · rw [List.getElem?_modify, List.getElem?_map, List.getElem?_map, List.getElem?_range inside, Option.map_some,
      Option.map_some, partitionText, partitionText, List.filter_append, List.flatMap_append]
    by_cases here : ihash kv.key % nReduce = y
    · simp [here]
    · simp [here]
  · rw [List.getElem?_eq_none (by simpa using inside), List.getElem?_eq_none (by simpa using inside)]

/-- If there are reduce tasks, each gets a file with the records of its partition. -/
theorem createTempFiles_eq (json : Json) {nReduce : Nat} (positive : 0 < nReduce) (kva : List KeyValue) :
    createTempFiles json nReduce kva = some ((List.range nReduce).map (partitionText json nReduce kva)) := by
  induction kva using List.reverseRecOn with
  | nil =>
    have none : partitionText json nReduce [] = fun _ => [] := rfl
    rw [none, List.map_const', List.length_range]
    rfl
  | append_singleton kva kv ih =>
    rw [createTempFiles] at ih ⊢
    rw [List.foldlM_append, ih, ← modify_partitionTexts]
    simp [writeRecord, positive.ne']

theorem createTempFiles_getElem? {json : Json} {nReduce y : Nat} {kva : List KeyValue} {tempFiles : List GoString}
    {content : GoString} (made : createTempFiles json nReduce kva = some tempFiles)
    (entry : tempFiles[y]? = some content) : y < nReduce ∧ content = partitionText json nReduce kva y := by
  rcases Nat.eq_zero_or_pos nReduce with rfl | positive
  · cases kva with
    | nil =>
      cases made
      cases entry
    | cons kv kva => cases made
  · rw [createTempFiles_eq json positive] at made
    cases made
    rw [List.getElem?_map] at entry
    obtain ⟨z, there, rfl⟩ := Option.map_eq_some_iff.mp entry
    obtain ⟨inside, rfl⟩ := List.getElem?_eq_some_iff.mp there
    rw [List.length_range] at inside
    exact ⟨inside, by rw [List.getElem_range]⟩

namespace Job

variable {job : Job} {w w' : Workers} {a : WorkerAction} {as : List WorkerAction}

/-- The records of one input file that belong to a partition. -/
def partition (job : Job) (y : Nat) (file : GoString × GoString) : List KeyValue :=
  (job.mapFunc file.1 file.2).filter fun kv => ihash kv.key % job.nReduce = y

/-- What the map task of an input file writes for a partition. -/
def written (job : Job) (y : Nat) (file : GoString × GoString) : GoString :=
  (job.partition y file).flatMap fun kv => job.json.marshal kv ++ [10]

theorem written_eq (job : Job) (y : Nat) (file : GoString × GoString) :
    job.written y file = partitionText job.json job.nReduce (job.mapFunc file.1 file.2) y :=
  rfl

/-- The records of a partition from the first `k` input files. -/
def records (job : Job) (y k : Nat) : List KeyValue :=
  (job.files.take k).flatMap (job.partition y)

/-- Every intermediate file reads back as the records that its map task wrote. -/
def ReadsBack (job : Job) : Prop :=
  ∀ file ∈ job.files, ∀ y < job.nReduce, job.readRecords (job.written y file) = some (job.partition y file)

/-- What one step of the workers does. -/
inductive Works (job : Job) (w : Workers) : Workers → Prop
  | mapTask {x : Nat} {file : GoString × GoString} {tempFiles : List GoString} : job.files[x]? = some file →
      createTempFiles job.json job.nReduce (job.mapFunc file.1 file.2) = some tempFiles →
      Works job w ⟨w.dir, w.executions ++ [.mapping x tempFiles (List.range job.nReduce)]⟩
  | rename {e x y : Nat} {tempFiles : List GoString} {rest : List Nat} {content : GoString} :
      w.executions[e]? = some (.mapping x tempFiles rest) → y ∈ rest → tempFiles[y]? = some content →
      Works job w ⟨Function.update w.dir (intermediateName x y) (some content),
        w.executions.set e (.mapping x tempFiles (rest.erase y))⟩
  | reduceTask {y : Nat} : y < job.nReduce → Works job w ⟨w.dir, w.executions ++ [.reading y 0 []]⟩
  | read {e y next : Nat} {temp kva : List KeyValue} {content : GoString} :
      w.executions[e]? = some (.reading y next temp) → next < job.mMap →
      w.dir (intermediateName next y) = some content → job.readRecords content = some kva →
      Works job w ⟨w.dir, w.executions.set e (.reading y (next + 1) (temp ++ kva))⟩
  | exit {e y next : Nat} {temp : List KeyValue} : w.executions[e]? = some (.reading y next temp) →
      next < job.mMap → (w.dir (intermediateName next y)).bind job.readRecords = none →
      Works job w ⟨w.dir, w.executions.set e .exited⟩
  | output {e y : Nat} {temp sorted : List KeyValue} :
      w.executions[e]? = some (.reading y job.mMap temp) → sorted.Perm temp → SortedByKey sorted →
      Works job w ⟨Function.update w.dir (outputName y) (some (reduceLoop job.reduceFunc sorted)),
        w.executions.set e (.reduced y)⟩

theorem works_of_step (next : job.step w a = some w') : Works job w w' := by
  cases a with
  | mapTask id =>
    obtain ⟨file, entry, next⟩ := Option.bind_eq_some_iff.mp next
    obtain ⟨tempFiles, made, is⟩ := Option.bind_eq_some_iff.mp next
    cases is
    exact .mapTask entry made
  | rename e y =>
    simp only [step, rename] at next
    split at next
    next x tempFiles rest here =>
      split at next
      next member =>
        obtain ⟨content, entry, rfl⟩ := Option.map_eq_some_iff.mp next
        exact .rename here member entry
      next => cases next
    next => cases next
  | reduceTask y =>
    simp only [step, reduceTask] at next
    split at next
    next bound => cases next; exact .reduceTask bound
    next => cases next
  | read e =>
    simp only [step, read] at next
    split at next
    next y k temp here =>
      split at next
      next more =>
        split at next
        next kva found =>
          cases next
          obtain ⟨content, entry, decoded⟩ := Option.bind_eq_some_iff.mp found
          exact .read here more entry decoded
        next missing => cases next; exact .exit here more missing
      next => cases next
    next => cases next
  | output e sorted =>
    simp only [step, output] at next
    split at next
    next y k temp here =>
      split at next
      next guard =>
        cases next
        obtain ⟨rfl, perm, order⟩ := guard
        exact .output here perm order
      next => cases next
    next => cases next

/-- Whatever is in the directory is right, however often and by whom it was written:
an intermediate file holds what its map task writes, a reduce task has read
the records of its partition, and an output file comes from all of them in
some sorted order. -/
structure Right (job : Job) (w : Workers) : Prop where
  intermediate : ∀ {x y content}, w.dir (intermediateName x y) = some content →
    ∃ file, job.files[x]? = some file ∧ y < job.nReduce ∧ content = job.written y file
  mapping : ∀ {x tempFiles rest}, Execution.mapping x tempFiles rest ∈ w.executions →
    ∃ file, job.files[x]? = some file ∧
      createTempFiles job.json job.nReduce (job.mapFunc file.1 file.2) = some tempFiles ∧
      ∀ y < job.nReduce, y ∈ rest ∨ w.dir (intermediateName x y) ≠ none
  reading : ∀ {y next temp}, Execution.reading y next temp ∈ w.executions →
    y < job.nReduce ∧ next ≤ job.mMap ∧ temp = job.records y next
  output : ∀ {y content}, w.dir (outputName y) = some content →
    ∃ sorted, sorted.Perm (job.records y job.mMap) ∧ SortedByKey sorted ∧
      content = reduceLoop job.reduceFunc sorted
  reduced : ∀ {y}, Execution.reduced y ∈ w.executions → w.dir (outputName y) ≠ none

/-- What the invariant says of one execution. -/
def Sound (job : Job) (dir : GoString → Option GoString) : Execution → Prop
  | .mapping x tempFiles rest => ∃ file, job.files[x]? = some file ∧
      createTempFiles job.json job.nReduce (job.mapFunc file.1 file.2) = some tempFiles ∧
      ∀ y < job.nReduce, y ∈ rest ∨ dir (intermediateName x y) ≠ none
  | .reading y next temp => y < job.nReduce ∧ next ≤ job.mMap ∧ temp = job.records y next
  | .reduced y => dir (outputName y) ≠ none
  | .exited => True

theorem Right.sound (right : Right job w) {execution : Execution} (member : execution ∈ w.executions) :
    job.Sound w.dir execution := by
  cases execution with
  | mapping => exact right.mapping member
  | reading => exact right.reading member
  | reduced => exact right.reduced member
  | exited => trivial

/-- The invariant from what it says of the files and of each execution. -/
theorem Right.of_sound
    (intermediate : ∀ {x y content}, w.dir (intermediateName x y) = some content →
      ∃ file, job.files[x]? = some file ∧ y < job.nReduce ∧ content = job.written y file)
    (output : ∀ {y content}, w.dir (outputName y) = some content →
      ∃ sorted, sorted.Perm (job.records y job.mMap) ∧ SortedByKey sorted ∧
        content = reduceLoop job.reduceFunc sorted)
    (sound : ∀ execution ∈ w.executions, job.Sound w.dir execution) : Right job w where
  intermediate := intermediate
  mapping member := sound _ member
  reading member := sound _ member
  output := output
  reduced member := sound _ member

theorem right_start (job : Job) : Right job ⟨fun _ => none, []⟩ :=
  .of_sound (fun there => by cases there) (fun there => by cases there) (fun _ member => by cases member)

theorem records_succ {x : Nat} {file : GoString × GoString} (entry : job.files[x]? = some file) (y : Nat) :
    job.records y (x + 1) = job.records y x ++ job.partition y file := by
  rw [records, List.take_add_one, entry, List.flatMap_append]
  simp [records]

theorem update_self_ne_none {dir : GoString → Option GoString} {name content : GoString} :
    Function.update dir name (some content) name ≠ none := by
  rw [Function.update_self]
  exact Option.some_ne_none _

/-- Renaming a file into the directory removes none. -/
theorem update_ne_none {dir : GoString → Option GoString} {name other content : GoString}
    (there : dir other ≠ none) : Function.update dir name (some content) other ≠ none := by
  by_cases same : other = name
  · rw [same]
    exact update_self_ne_none
  · rwa [Function.update_of_ne same]

/-- An execution stays sound when a file is added. -/
theorem Sound.grow {dir : GoString → Option GoString} {execution : Execution} (sound : job.Sound dir execution)
    (name content : GoString) : job.Sound (Function.update dir name (some content)) execution := by
  cases execution with
  | mapping =>
    obtain ⟨file, input, temp, left⟩ := sound
    exact ⟨file, input, temp, fun z small => (left z small).imp_right update_ne_none⟩
  | reading => exact sound
  | reduced => exact update_ne_none sound
  | exited => trivial

/-- A new execution. -/
theorem Right.add (right : Right job w) {new : Execution} (sound : job.Sound w.dir new) :
    Right job ⟨w.dir, w.executions ++ [new]⟩ := by
  refine .of_sound right.intermediate right.output fun execution member => ?_
  rcases List.mem_append.mp member with old | is
  · exact right.sound old
  · rw [List.mem_singleton.mp is]
    exact sound

/-- A change of one execution that leaves the directory alone. -/
theorem Right.set (right : Right job w) {e : Nat} {new : Execution} (sound : job.Sound w.dir new) :
    Right job ⟨w.dir, w.executions.set e new⟩ := by
  refine .of_sound right.intermediate right.output fun execution member => ?_
  rcases List.mem_or_eq_of_mem_set member with old | is
  · exact right.sound old
  · rw [is]
    exact sound

theorem Right.rename (right : Right job w) {e x y : Nat} {tempFiles : List GoString} {rest : List Nat}
    {content : GoString} (here : w.executions[e]? = some (.mapping x tempFiles rest))
    (entry : tempFiles[y]? = some content) :
    Right job ⟨Function.update w.dir (intermediateName x y) (some content),
      w.executions.set e (.mapping x tempFiles (rest.erase y))⟩ := by
  obtain ⟨file, input, made, left⟩ := right.mapping (List.mem_of_getElem? here)
  obtain ⟨bound, content_eq⟩ := createTempFiles_getElem? made entry
  rw [← written_eq] at content_eq
  refine .of_sound (fun {x' y' content'} there => ?_) (fun {z content'} there => ?_) fun execution member => ?_
  · dsimp only at there
    by_cases same : intermediateName x' y' = intermediateName x y
    · obtain ⟨rfl, rfl⟩ := intermediateName_inj same
      rw [Function.update_self] at there
      exact ⟨file, input, bound, (Option.some.inj there).symm.trans content_eq⟩
    · rw [Function.update_of_ne same] at there
      exact right.intermediate there
  · dsimp only at there
    rw [Function.update_of_ne (intermediateName_ne_outputName x y z).symm] at there
    exact right.output there
  · rcases List.mem_or_eq_of_mem_set member with old | rfl
    · exact (right.sound old).grow _ _
    · refine ⟨file, input, made, fun z small => ?_⟩
      by_cases this : z = y
      · subst this
        exact Or.inr update_self_ne_none
      · exact (left z small).imp (fun inRest => (List.mem_erase_of_ne this).mpr inRest) update_ne_none

theorem Right.writeOutput (right : Right job w) {e y : Nat} {temp sorted : List KeyValue}
    (here : w.executions[e]? = some (.reading y job.mMap temp)) (perm : sorted.Perm temp)
    (order : SortedByKey sorted) :
    Right job ⟨Function.update w.dir (outputName y) (some (reduceLoop job.reduceFunc sorted)),
      w.executions.set e (.reduced y)⟩ := by
  obtain ⟨_, _, rfl⟩ := right.reading (List.mem_of_getElem? here)
  refine .of_sound (fun {x z content} there => ?_) (fun {z content} there => ?_) fun execution member => ?_
  · dsimp only at there
    rw [Function.update_of_ne (intermediateName_ne_outputName x z y)] at there
    exact right.intermediate there
  · dsimp only at there
    by_cases same : outputName z = outputName y
    · cases outputName_inj same
      rw [Function.update_self] at there
      exact ⟨sorted, perm, order, (Option.some.inj there).symm⟩
    · rw [Function.update_of_ne same] at there
      exact right.output there
  · rcases List.mem_or_eq_of_mem_set member with old | rfl
    · exact (right.sound old).grow _ _
    · exact update_self_ne_none

theorem Right.step (right : Right job w) (readsBack : job.ReadsBack) (next : job.step w a = some w') :
    Right job w' := by
  cases works_of_step next with
  | @mapTask x file _ entry made =>
    exact right.add ⟨file, entry, made, fun y bound => Or.inl (List.mem_range.mpr bound)⟩
  | rename here _ entry => exact right.rename here entry
  | reduceTask bound => exact right.add ⟨bound, Nat.zero_le _, rfl⟩
  | exit here _ _ => exact right.set trivial
  | output here perm order => exact right.writeOutput here perm order
  | @read e y k temp kva content here more entry decoded =>
    obtain ⟨bound, _, rfl⟩ := right.reading (List.mem_of_getElem? here)
    obtain ⟨file, input, _, rfl⟩ := right.intermediate entry
    rw [readsBack file (List.mem_of_getElem? input) y bound] at decoded
    cases decoded
    exact right.set ⟨bound, more, (records_succ input y).symm⟩

theorem right_after (readsBack : job.ReadsBack) (run : job.after as = some w) : Right job w :=
  exec_invariant (right_start job) (fun _ _ _ old next => old.step readsBack next) run

end Job

end DistSys.Mr
