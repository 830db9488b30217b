import DistSys.Core.JsonString
import DistSys.Mr.Distributed
import Mathlib.Data.List.TakeDrop
import Mathlib.Data.List.TakeWhile

namespace DistSys.Mr

/-- The largest buffer of a `bufio.Scanner`. -/
def maxScanTokenSize : Nat := 64 * 1024

namespace KeyValue

def Valid (kv : KeyValue) : Prop :=
  Utf8.Valid kv.key ∧ Utf8.Valid kv.value

instance (kv : KeyValue) : Decidable kv.Valid :=
  inferInstanceAs (Decidable (_ ∧ _))

/-- The record with U+FFFD in the place of what is not UTF-8. -/
def toValid (kv : KeyValue) : KeyValue where
  key := Utf8.toValid kv.key
  value := Utf8.toValid kv.value

theorem toValid_eq_iff {kv : KeyValue} : kv.toValid = kv ↔ kv.Valid := by
  rw [toValid, mk.injEq, Utf8.toValid_eq_iff, Utf8.toValid_eq_iff, Valid]

theorem valid_toValid (kv : KeyValue) : kv.toValid.Valid :=
  ⟨Utf8.valid_toValid kv.key, Utf8.valid_toValid kv.value⟩

end KeyValue

namespace Json

/-- What the documentation of `encoding/json` and `bufio` promises. -/
structure Documented (json : Json) : Prop where
  scan : json.scan = scanLines maxScanTokenSize
  oneLine : ∀ kv, 10 ∉ json.marshal kv
  object : ∀ kv, (json.marshal kv).getLast? = some 125
  decodes : ∀ kv, json.unmarshal (json.marshal kv) = some kv.toValid

/-- The line of a record fits into the buffer, with the line break. -/
def Fits (json : Json) (kv : KeyValue) : Prop :=
  (json.marshal kv).length < maxScanTokenSize

instance (json : Json) (kv : KeyValue) : Decidable (json.Fits kv) :=
  inferInstanceAs (Decidable (_ < _))

end Json

namespace Job

variable {job : Job}

/-- A reader of a file gets its records up to the first line that does not fit, and the
reduce task goes on. -/
theorem readRecords_written (documented : job.json.Documented) (kva : List KeyValue) :
    job.readRecords (kva.flatMap fun kv => job.json.marshal kv ++ [10]) =
      some ((kva.takeWhile fun kv => job.json.Fits kv).map KeyValue.toValid) := by
  have file : (kva.flatMap fun kv => job.json.marshal kv ++ [10]) =
      (kva.map job.json.marshal).flatMap fun line => line ++ [10] := by
    rw [List.flatMap_map]
  have whole : ∀ line ∈ kva.map job.json.marshal, 10 ∉ line := by
    intro line member
    obtain ⟨kv, -, rfl⟩ := List.mem_map.mp member
    exact documented.oneLine kv
  have ends : ∀ line ∈ kva.map job.json.marshal, line.getLast? ≠ some 13 := by
    intro line member
    obtain ⟨kv, -, rfl⟩ := List.mem_map.mp member
    rw [documented.object kv]
    decide
  rw [readRecords, documented.scan, file, scanLines_flatMap whole ends, List.takeWhile_map, List.mapM_map]
  exact mapM_eq_some fun kv _ => documented.decodes kv

/-- Replacing what is not UTF-8 gives back the records only if none was left out and
nothing was replaced. -/
theorem all_kept {kept all kva : List KeyValue} (sub : kept.Sublist all) (perm : all.Perm kva)
    (same : (kept.map KeyValue.toValid).Perm kva) : kept = all ∧ ∀ kv ∈ kva, kv.Valid := by
  constructor
  · refine sub.eq_of_length ?_
    rw [perm.length_eq, ← same.length_eq, List.length_map]
  · intro kv member
    obtain ⟨source, -, rfl⟩ := List.mem_map.mp (same.mem_iff.mpr member)
    exact source.valid_toValid

theorem map_takeWhile_eq_iff {kva : List KeyValue} :
    (kva.takeWhile fun kv => job.json.Fits kv).map KeyValue.toValid = kva ↔
      ∀ kv ∈ kva, kv.Valid ∧ job.json.Fits kv := by
  constructor
  · intro same kv member
    obtain ⟨all, valid⟩ := all_kept (List.takeWhile_sublist _) (.refl kva) (.of_eq same)
    exact ⟨valid kv member, of_decide_eq_true (List.takeWhile_eq_self_iff.mp all kv member)⟩
  · intro good
    have all : (kva.takeWhile fun kv => job.json.Fits kv) = kva :=
      List.takeWhile_eq_self_iff.mpr fun kv member => decide_eq_true (good kv member).2
    rw [all]
    refine (List.map_congr_left fun kv member => ?_).trans (List.map_id _)
    exact KeyValue.toValid_eq_iff.mpr (good kv member).1

/-- The intermediate files of a job are read back as they were written exactly if all
records are UTF-8 and have lines that fit. -/
theorem readsBack_iff (documented : job.json.Documented) (positive : 0 < job.nReduce) :
    job.ReadsBack ↔ ∀ file ∈ job.files, ∀ kv ∈ job.mapFunc file.1 file.2, kv.Valid ∧ job.json.Fits kv := by
  have file : ∀ y file, job.readRecords (job.written y file) = some (job.partition y file) ↔
      ∀ kv ∈ job.partition y file, kv.Valid ∧ job.json.Fits kv := fun y file => by
    rw [written, readRecords_written documented, Option.some.injEq, map_takeWhile_eq_iff]
  simp only [ReadsBack, file]
  constructor
  · intro good file member kv output
    have part : kv ∈ job.partition (ihash kv.key % job.nReduce) file :=
      List.mem_filter.mpr ⟨output, decide_eq_true rfl⟩
    exact good file member _ (Nat.mod_lt _ positive) kv part
  · intro good file member y _ kv part
    exact good file member kv (List.mem_filter.mp part).1

end Job

/-- The files decode to the records, and each file to the records that hash to it. -/
def Intact (nReduce : Nat) (kva : List KeyValue) (decoded : List (List KeyValue)) : Prop :=
  decoded.flatten.Perm kva ∧
    ∀ y records, decoded[y]? = some records → ∀ kv ∈ records, ihash kv.key % nReduce = y

/-- What the files of one map task decode to. No reader stops with an error, so the
records that are lost or altered are so silently, and this happens to some exactly if not
all are UTF-8 with a line that fits into the buffer of the scanner. -/
theorem intermediate_files {job : Job} (documented : job.json.Documented) (positive : 0 < job.nReduce)
    (kva : List KeyValue) :
    ∃ decoded, ((createTempFiles job.json job.nReduce kva).bind fun files => files.mapM job.readRecords) =
        some decoded ∧
      (∀ y < job.nReduce, decoded[y]? =
        some (((kva.filter fun kv => ihash kv.key % job.nReduce = y).takeWhile
          fun kv => job.json.Fits kv).map KeyValue.toValid)) ∧
      (Intact job.nReduce kva decoded ↔ ∀ kv ∈ kva, kv.Valid ∧ job.json.Fits kv) := by
  let part (y : Nat) : List KeyValue := kva.filter fun kv => ihash kv.key % job.nReduce = y
  let kept (y : Nat) : List KeyValue := (part y).takeWhile fun kv => job.json.Fits kv
  have parts : ((List.range job.nReduce).flatMap part).Perm kva :=
    Grouping.perm_parts (fun kv : KeyValue => ihash kv.key % job.nReduce) fun _ _ => Nat.mod_lt _ positive
  refine ⟨(List.range job.nReduce).map fun y => (kept y).map KeyValue.toValid, ?_, ?_, ?_, ?_⟩
  · rw [createTempFiles_eq _ positive, Option.bind_some, List.mapM_map]
    exact mapM_eq_some fun y _ => Job.readRecords_written documented (part y)
  · intro y bound
    rw [List.getElem?_map, List.getElem?_range bound, Option.map_some]
  · rintro ⟨perm, -⟩ kv member
    rw [← List.flatMap_def, ← List.map_flatMap] at perm
    have sub : ((List.range job.nReduce).flatMap kept).Sublist ((List.range job.nReduce).flatMap part) :=
      .flatMap_right _ fun _ _ => List.takeWhile_sublist _
    obtain ⟨all, valid⟩ := Job.all_kept sub parts perm
    have inside := parts.mem_iff.mpr member
    rw [← all] at inside
    obtain ⟨y, -, here⟩ := List.mem_flatMap.mp inside
    have fits : decide (job.json.Fits kv) = true :=
      List.mem_takeWhile_imp (p := fun kv => decide (job.json.Fits kv)) here
    exact ⟨valid kv member, of_decide_eq_true fits⟩
  · intro good
    have same : ∀ y, (kept y).map KeyValue.toValid = part y := fun y =>
      Job.map_takeWhile_eq_iff.mpr fun kv member => good kv (List.mem_filter.mp member).1
    simp only [same]
    refine ⟨by rwa [← List.flatMap_def], fun y records found kv member => ?_⟩
    rw [List.getElem?_map] at found
    obtain ⟨z, here, rfl⟩ := Option.map_eq_some_iff.mp found
    have position : z = y := by
      obtain ⟨bound, rfl⟩ := List.getElem?_eq_some_iff.mp here
      exact List.getElem_range bound
    rw [← position]
    exact of_decide_eq_true (List.mem_filter.mp member).2

def keyField : GoString :=
  ascii ['{', '"', 'K', 'e', 'y', '"', ':', '"']

def valueField : GoString :=
  ascii [',', '"', 'V', 'a', 'l', 'u', 'e', '"', ':', '"']

/-- The text behind a literal. -/
def expect (literal text : GoString) : Option GoString :=
  if literal <+: text then some (text.drop literal.length) else none

theorem expect_append (literal text : GoString) : expect literal (literal ++ text) = some text := by
  rw [expect, if_pos (List.prefix_append _ _), List.drop_left]

/-- The lines of `json.Marshal`, with a reader for lines of this form. -/
def goJson : Json where
  marshal kv := keyField ++ (JsonString.encode kv.key ++ (valueField ++ (JsonString.encode kv.value ++ [125])))
  scan := scanLines maxScanTokenSize
  unmarshal line := do
    let rest ← expect keyField line
    let (key, rest) ← JsonString.decode rest
    let rest ← expect valueField rest
    let (value, rest) ← JsonString.decode rest
    if rest = [125] then some ⟨key, value⟩ else none

theorem goJson_documented : goJson.Documented where
  scan := rfl
  oneLine kv := by
    have parts : ∀ s ∈ [keyField, valueField, [125]], (10 : UInt8) ∉ s := by decide
    simp only [goJson, List.mem_append, not_or]
    exact ⟨parts _ (by decide), JsonString.newline_notMem_encode _, parts _ (by decide),
      JsonString.newline_notMem_encode _, parts _ (by decide)⟩
  object kv := by simp [goJson, ← List.append_assoc]
  decodes kv := by
    simp only [goJson]
    rw [expect_append, Option.bind_eq_bind, Option.bind_some, JsonString.decode_encode]
    simp [expect_append, JsonString.decode_encode, KeyValue.toValid]

/-- A job with one input file, for which the map function returns these records. -/
def oneFile (nReduce : Nat) (kva : List KeyValue) : Job where
  mapFunc _ _ := kva
  reduceFunc _ values := itoa values.length
  json := goJson
  files := [([97], [])]
  nReduce := nReduce

/-- A key and a value beyond ASCII, and a quote. -/
def threeRecords : List KeyValue :=
  [⟨[97], [49]⟩, ⟨[195, 188], [34]⟩, ⟨[98], [226, 130, 172]⟩]

theorem intermediate_files_threeRecords :
    goJson.Documented ∧ ∃ decoded,
      ((createTempFiles goJson 2 threeRecords).bind fun files => files.mapM (oneFile 2 threeRecords).readRecords) =
          some decoded ∧
        Intact 2 threeRecords decoded := by
  have documented : (oneFile 2 threeRecords).json.Documented := goJson_documented
  obtain ⟨decoded, read, -, intact⟩ := intermediate_files documented Nat.two_pos threeRecords
  have good : ∀ kv ∈ threeRecords, kv.Valid ∧ goJson.Fits kv := by decide
  exact ⟨goJson_documented, decoded, read, intact.mpr good⟩

/-- With one reduce task there is one file, with all records. -/
theorem read_one (kva : List KeyValue) :
    ((createTempFiles goJson 1 kva).bind fun files => files.mapM (oneFile 1 kva).readRecords) =
      some [(kva.takeWhile fun kv => goJson.Fits kv).map KeyValue.toValid] := by
  have documented : (oneFile 1 kva).json.Documented := goJson_documented
  have read := Job.readRecords_written documented kva
  have all : (kva.filter fun kv => ihash kv.key % 1 = 0) = kva :=
    List.filter_eq_self.mpr fun kv _ => decide_eq_true (Nat.mod_one _)
  rw [createTempFiles_eq _ Nat.one_pos, Option.bind_some, List.range_one, List.map_singleton, partitionText, all]
  refine (List.mapM_cons ..).trans ?_
  rw [show goJson = (oneFile 1 kva).json from rfl, read]
  rfl

def tooLong : KeyValue :=
  ⟨[97], List.replicate maxScanTokenSize 98⟩

theorem not_fits_tooLong : ¬ goJson.Fits tooLong := by
  intro fits
  have long := JsonString.length_encode tooLong.value
  have size : tooLong.value.length = maxScanTokenSize := List.length_replicate
  simp only [Json.Fits, goJson, List.length_append] at fits
  omega

/-- A long value ends the file for the reader, and a key that is not UTF-8 is read as
another key. -/
theorem records_lost_and_altered :
    (((createTempFiles goJson 1 [⟨[99], [49]⟩, tooLong, ⟨[100], [50]⟩]).bind fun files =>
        files.mapM (oneFile 1 [⟨[99], [49]⟩, tooLong, ⟨[100], [50]⟩]).readRecords) = some [[⟨[99], [49]⟩]] ∧
      ¬ Intact 1 [⟨[99], [49]⟩, tooLong, ⟨[100], [50]⟩] [[⟨[99], [49]⟩]]) ∧
    (((createTempFiles goJson 1 [⟨[255], [49]⟩]).bind fun files =>
        files.mapM (oneFile 1 [⟨[255], [49]⟩]).readRecords) = some [[⟨[239, 191, 189], [49]⟩]] ∧
      ¬ Intact 1 [⟨[255], [49]⟩] [[⟨[239, 191, 189], [49]⟩]]) := by
  refine ⟨⟨?_, fun intact => ?_⟩, ?_, fun intact => ?_⟩
  · have fits : goJson.Fits ⟨[99], [49]⟩ := by decide
    have same : KeyValue.toValid ⟨[99], [49]⟩ = ⟨[99], [49]⟩ := by decide
    rw [read_one]
    simp [fits, not_fits_tooLong, same]
  · exact absurd intact.1.length_eq (by decide)
  · rw [read_one]
    decide
  · exact absurd intact.1 (by decide)

end DistSys.Mr
