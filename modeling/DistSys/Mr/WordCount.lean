import DistSys.Core.Fields
import DistSys.Mr.Intermediate
import DistSys.Mr.Joint

namespace DistSys.Mr.WordCount

/-- The words of a text; `isLetter` are the tables of `unicode.IsLetter`. -/
def words (isLetter : Nat → Bool) (contents : GoString) : List GoString :=
  fieldsFunc contents fun r => !isLetter r

/-- `Map` of `wc.go`. -/
def map (isLetter : Nat → Bool) (_filename contents : GoString) : List KeyValue :=
  (words isLetter contents).map fun w => ⟨w, [49]⟩

/-- `Reduce` of `wc.go`. -/
def reduce (_key : GoString) (values : List GoString) : GoString :=
  itoa values.length

/-- The plugin, in a directory with these input files. -/
def wc (isLetter : Nat → Bool) (input : GoString → Option GoString) : Plugin where
  mapFunc := map isLetter
  reduceFunc := reduce
  json := goJson
  input := input

/-- All words of the input. -/
def allWords (isLetter : Nat → Bool) (input : GoString → Option GoString) (files : List GoString) : List GoString :=
  files.flatMap fun name => words isLetter ((input name).getD [])

variable {isLetter : Nat → Bool} {input : GoString → Option GoString} {files : List GoString} {nReduce : Nat}

theorem intermediate_wc :
    ((wc isLetter input).job files nReduce).intermediate =
      (allWords isLetter input files).map fun w => ⟨w, [49]⟩ := by
  simp only [Job.intermediate, Plugin.job, wc, map, allWords, List.flatMap_map, List.map_flatMap]

/-- Words are valid whatever the input is, so only a word that is too long for the scanner is lost. -/
theorem readsBack_wc (replacement : isLetter 0xFFFD = false) (positive : 0 < nReduce)
    (fits : ∀ word ∈ allWords isLetter input files, goJson.Fits ⟨word, [49]⟩) :
    ((wc isLetter input).job files nReduce).ReadsBack := by
  refine (Job.readsBack_iff goJson_documented positive).mpr ?_
  intro file member kv output
  obtain ⟨name, inside, rfl⟩ := List.mem_map.mp member
  obtain ⟨word, found, rfl⟩ := List.mem_map.mp output
  have separates : (fun r => !isLetter r) 0xFFFD = true := by simp [replacement]
  have one : Utf8.Valid [49] := by decide
  refine ⟨⟨valid_of_mem_fieldsFunc separates found, one⟩, fits word ?_⟩
  exact List.mem_flatMap.mpr ⟨name, inside, found⟩

theorem linesOf_reduce_perm (key : GoString) (vs vs' : List GoString) (perm : vs.Perm vs') :
    linesOf reduce key vs = linesOf reduce key vs' := by
  rw [linesOf, linesOf, reduce, reduce, perm.length_eq]

/-- A group of ones is printed as one line. -/
theorem linesOf_reduce {word : GoString} (whole : 10 ∉ word) (values : List GoString) :
    linesOf reduce word values = {word ++ 32 :: itoa values.length} := by
  have line : 10 ∉ word ++ 32 :: itoa values.length := by
    intro member
    rcases List.mem_append.mp member with inside | behind
    · exact whole inside
    · rcases List.mem_cons.mp behind with space | digit
      · cases space
      · exact absurd (mem_itoa digit).1 (by decide)
  rw [linesOf, formatLine, reduce, lines_singleton line]
  rfl

/-- Word count, from the input files to the output files: when the job is done, the output
has one line for every word of the input, with the number of its occurrences in all files
together, and no other line. -/
theorem wc_output {as : List SystemAction} {s : System} (replacement : isLetter 0xFFFD = false)
    (newline : isLetter 10 = false) (positive : 0 < nReduce)
    (fits : ∀ word ∈ allWords isLetter input files, goJson.Fits ⟨word, [49]⟩)
    (run : System.after (wc isLetter input) files nReduce as = some s) (done : s.coordinator.Done) :
    ∑ y ∈ Finset.range nReduce, (lines ((s.workers.dir (outputName y)).getD []) : Multiset GoString) =
      ∑ word ∈ (allWords isLetter input files).toFinset,
        {word ++ 32 :: itoa ((allWords isLetter input files).count word)} := by
  have joint := System.joint_after (readsBack_wc replacement positive fits) run
  have outputs := joint.right.outputs positive linesOf_reduce_perm fun y => joint.all_reduced done
  refine (outputs.trans (Grouping.collect_groups linesOf_reduce_perm _)).trans ?_
  rw [intermediate_wc, List.map_map]
  have keys : (KeyValue.key ∘ fun w : GoString => (⟨w, [49]⟩ : KeyValue)) = id := rfl
  rw [keys, List.map_id]
  refine Finset.sum_congr rfl fun word member => ?_
  have whole : 10 ∉ word := by
    obtain ⟨name, _, found⟩ := List.mem_flatMap.mp (List.mem_toFinset.mp member)
    exact notMem_of_mem_fieldsFunc (by simp [replacement]) (by decide) (by simpa using newline) found
  have occurrences : (((allWords isLetter input files).map fun w => (⟨w, [49]⟩ : KeyValue)).filter
      fun kv => kv.key = word).length = (allWords isLetter input files).count word := by
    rw [List.filter_map, List.length_map, ← List.countP_eq_length_filter, List.count_eq_countP]
    refine List.countP_congr fun w _ => ?_
    simp
  rw [← occurrences, ← List.length_map (f := KeyValue.value)]
  exact linesOf_reduce whole _

/-- Two files, one with a byte that is not UTF-8. -/
def twoFiles : GoString → Option GoString
  | [97] => some [98, 0xFF, 97, 32, 98]
  | [98] => some [97, 98, 10, 98]
  | _ => none

/-- A run with one process. -/
def twoFilesRun : List SystemAction :=
  [.launch, .questTask 0, .coordinator (.compare 0), .coordinator (.dispatch 0 ⟨.map, 1⟩),
    .start 0, .turn 0 (.rename 0), .finishTask 0, .coordinator (.receive 0),
    .coordinator (.count 0), .questTask 0, .coordinator (.compare 1),
    .coordinator (.dispatch 1 ⟨.map, 0⟩), .start 0, .turn 0 (.rename 0), .finishTask 0,
    .coordinator (.receive 1), .coordinator (.count 1), .questTask 0, .coordinator (.compare 2),
    .coordinator (.advance 2), .coordinator (.dispatch 2 ⟨.reduce, 0⟩), .start 0, .turn 0 .read,
    .turn 0 .read,
    .turn 0 (.output [⟨[97], [49]⟩, ⟨[97, 98], [49]⟩, ⟨[98], [49]⟩, ⟨[98], [49]⟩, ⟨[98], [49]⟩]),
    .finishTask 0, .coordinator (.receive 2), .coordinator (.count 2), .questTask 0,
    .coordinator (.compare 3), .coordinator (.advance 3)]

theorem wc_output_twoFiles :
    ∃ s, System.after (wc (fun r => 97 ≤ r ∧ r ≤ 122) twoFiles) [[97], [98]] 1 twoFilesRun = some s ∧
    ∑ y ∈ Finset.range 1, (lines ((s.workers.dir (outputName y)).getD []) : Multiset GoString) =
      ∑ word ∈ (allWords (fun r => 97 ≤ r ∧ r ≤ 122) twoFiles [[97], [98]]).toFinset,
        {word ++ 32 :: itoa ((allWords (fun r => 97 ≤ r ∧ r ≤ 122) twoFiles [[97], [98]]).count word)} := by
  have ends : (System.after (wc (fun r => 97 ≤ r ∧ r ≤ 122) twoFiles) [[97], [98]] 1 twoFilesRun).any
      fun s => s.coordinator.phase = .finished := by decide +kernel
  obtain ⟨s, run, done⟩ := Option.any_eq_true _ _ |>.mp ends
  have fits : ∀ word ∈ allWords (fun r => 97 ≤ r ∧ r ≤ 122) twoFiles [[97], [98]], goJson.Fits ⟨word, [49]⟩ := by
    decide +kernel
  exact ⟨s, run, wc_output (by decide) (by decide) (by decide) fits run (of_decide_eq_true done)⟩

end DistSys.Mr.WordCount
