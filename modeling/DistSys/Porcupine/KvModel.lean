import DistSys.Core.Locality
import DistSys.KvRaft.World
import DistSys.Porcupine.Operations
import DistSys.Porcupine.Parallel

namespace DistSys

namespace Porcupine

variable {S I O : Type}

/-- `checkOperations`, for what happens in `checkParallel`. -/
def checkOperations [DecidableEq S] (sort : List (Entry I O) → List (Entry I O)) (model : Model S I O)
    (history : List (Operation I O)) (verbose : Bool) (timeout : Int) (events : List Happens) :
    Option (Parallel S I O) :=
  let model := fillDefault model
  checkParallel model ((model.partition history).map (makeEntries sort)) verbose timeout events

/-- States of a model without its own `Equal` are only equal if they are the same. -/
theorem fillDefault_lawful [DecidableEq S] {model : Model S I O} (default : model.equal = none) :
    (fillDefault model).Lawful := by
  have same : ∀ {s t}, (fillDefault model).equal s t = true ↔ s = t := by
    intro s t
    simp [fillDefault, default, shallowEqual]
  refine ⟨fun {s t u} first second => ?_, fun {s t input output} equal ok => ?_⟩
  · rw [same] at first second ⊢
    exact first.trans second
  · rw [same] at equal ⊢
    subst equal
    exact ⟨ok, rfl⟩

end Porcupine

namespace Models

open Porcupine

/-- The map `m` of `Partition`: the operations on each key. -/
def byKey (history : List (Porcupine.Operation KvInput KvOutput)) :
    GoString → List (Porcupine.Operation KvInput KvOutput) :=
  history.foldl (fun m v => Function.update m v.input.key (m v.input.key ++ [v])) fun _ => []

/-- The keys of `m`, sorted. -/
def sortedKeys (history : List (Porcupine.Operation KvInput KvOutput)) : List GoString :=
  (history.map fun v => v.input.key).dedup.insertionSort fun a b => ¬ b < a

def kvPartition (history : List (Porcupine.Operation KvInput KvOutput)) :
    List (List (Porcupine.Operation KvInput KvOutput)) :=
  (sortedKeys history).map (byKey history)

def kvModel : Model GoString KvInput KvOutput where
  partition := some kvPartition
  partitionEvent := none
  init := []
  step := kvStep
  equal := none

variable {history : List (Porcupine.Operation KvInput KvOutput)} {base : Int} {k : GoString}

theorem byKey_eq (k : GoString) : byKey history k = history.filter fun v => v.input.key = k := by
  induction history using List.reverseRecOn with
  | nil => rfl
  | append_singleton history v ih =>
    rw [byKey, List.foldl_append, List.filter_append, ← ih]
    by_cases same : v.input.key = k
    · subst same
      simp [byKey]
    · simp [byKey, same, Function.update_of_ne (Ne.symm same)]

theorem mem_sortedKeys : k ∈ sortedKeys history ↔ ∃ v ∈ history, v.input.key = k := by
  rw [sortedKeys, List.mem_insertionSort, List.mem_dedup, List.mem_map]

/-- The partition of `KvModel` are the operations on each key that occurs. -/
theorem kvPartition_eq : kvPartition history =
    (sortedKeys history).map fun k => history.filter fun v => v.input.key = k :=
  List.map_congr_left fun k _ => byKey_eq k

theorem accepts_kvModel (s : GoString) (input : KvInput) (output : KvOutput) :
    (fillDefault kvModel).accepts s input output =
      if (kvStep s input output).1 then some (kvStep s input output).2 else none :=
  rfl

theorem mapStep_eq_product : mapStep = Linearizable.product KvInput.key (fillDefault kvModel).accepts := by
  funext state input output
  rw [mapStep, Linearizable.product, accepts_kvModel]
  by_cases ok : (kvStep (state input.key) input output).1 = true
  · simp [ok]
  · simp [ok]

/-- The operations on one key, with their times. -/
theorem restrict_since (k : GoString) :
    Linearizable.restrict KvInput.key k (history.map (Porcupine.Operation.since base)) =
      (history.filter fun v => v.input.key = k).map (Porcupine.Operation.since base) := by
  rw [Linearizable.restrict, List.filter_map]
  rfl

variable {sort : List (Entry KvInput KvOutput) → List (Entry KvInput KvOutput)} (sorts : SortsByTime sort)
  (timed : Timed base history)
include sorts timed

/-- A history is linearizable as a history of a map if all partitions can be ordered. -/
theorem isLinearizable_map_iff :
    Linearizable.IsLinearizable mapStep mapInit (history.map (Porcupine.Operation.since base)) ↔
      ∀ entries ∈ (kvPartition history).map (makeEntries sort), ∃ order,
        CompleteLinearization (fillDefault kvModel) entries order := by
  have returned : ∀ op ∈ history.map (Porcupine.Operation.since base), op.result.isSome = true := by
    intro op inside
    obtain ⟨v, _, rfl⟩ := List.mem_map.mp inside
    rfl
  have lasts : ∀ op ∈ history.map (Porcupine.Operation.since base), op.Lasts := by
    intro op inside
    obtain ⟨v, member, rfl⟩ := List.mem_map.mp inside
    intro output time is
    cases is
    have before := timed.lasts v member
    simp only [Porcupine.Operation.since]
    omega
  have each (k : GoString) : Linearizable.IsLinearizable (fillDefault kvModel).accepts []
      (Linearizable.restrict KvInput.key k (history.map (Porcupine.Operation.since base))) ↔
      ∃ order, CompleteLinearization (fillDefault kvModel) (makeEntries sort (byKey history k)) order := by
    rw [restrict_since, byKey_eq]
    exact isLinearizable_iff sorts (timed.filter _) (fillDefault kvModel)
  have initial : mapInit = fun _ => [] := rfl
  rw [mapStep_eq_product, initial, Linearizable.isLinearizable_product_iff returned lasts]
  simp only [each, kvPartition, List.map_map, List.mem_map, Function.comp_apply, forall_exists_index, and_imp,
    forall_apply_eq_imp_iff₂]
  refine ⟨fun all k _ => all k, fun all k => ?_⟩
  by_cases occurs : k ∈ sortedKeys history
  · exact all k occurs
  · -- nothing was called on this key
    have nothing : byKey history k = [] := by
      rw [byKey_eq, List.filter_eq_nil_iff]
      intro v inside same
      exact occurs (mem_sortedKeys.mpr ⟨v, inside, of_decide_eq_true same⟩)
    have empty : makeEntries sort ([] : List (Porcupine.Operation KvInput KvOutput)) = [] :=
      List.perm_nil.mp (sorts.perm [])
    rw [nothing, empty]
    exact ⟨[], ⟨List.nodup_nil, by simp, by simp, rfl⟩, rfl⟩

theorem wellFormed_kvPartition : ∀ entries ∈ (kvPartition history).map (makeEntries sort), WellFormed entries := by
  intro entries inside
  obtain ⟨part, member, rfl⟩ := List.mem_map.mp inside
  rw [kvPartition_eq] at member
  obtain ⟨k, _, rfl⟩ := List.mem_map.mp member
  exact (timed.filter _).wellFormed sorts

section
variable {verbose : Bool} {timeout : Int} {events : List Happens} {p : Parallel GoString KvInput KvOutput}
variable (check : checkOperations sort kvModel history verbose timeout events = some p) (done : p.phase = .done)
include check done

theorem not_isLinearizable_of_illegal (illegal : p.result = .illegal) :
    ¬ Linearizable.IsLinearizable mapStep mapInit (history.map (Porcupine.Operation.since base)) := by
  have verdict := checkParallel_result (fillDefault_lawful rfl) (wellFormed_kvPartition sorts timed) check done
  obtain ⟨entries, inside, none⟩ := verdict.1 illegal
  rw [isLinearizable_map_iff sorts timed]
  intro all
  obtain ⟨order, given⟩ := all entries inside
  exact none order given

/-- `CheckOperations` and its variants with `KvModel`: for a history of a map, whatever the
goroutines and the clock do, `Ok` means that the history is linearizable, `Illegal` that it
is not, and there is no other result without a timeout. -/
theorem checkOperations_kvModel :
    (p.result = .ok → Linearizable.IsLinearizable mapStep mapInit (history.map (Porcupine.Operation.since base))) ∧
      (p.result = .illegal →
        ¬ Linearizable.IsLinearizable mapStep mapInit (history.map (Porcupine.Operation.since base))) ∧
      (p.result = .unknown → 0 < timeout) := by
  have verdict := checkParallel_result (fillDefault_lawful rfl) (wellFormed_kvPartition sorts timed) check done
  refine ⟨fun ok => ?_, not_isLinearizable_of_illegal sorts timed check done, verdict.2.2⟩
  rw [isLinearizable_map_iff sorts timed]
  exact verdict.2.1 ok

end

omit sorts timed

/-- A put and a get of the same key at the same time; the get reads the old value. -/
def putAndGet : List (Porcupine.Operation KvInput KvOutput) :=
  [⟨0, ⟨1, [107], [97]⟩, 0, ⟨[]⟩, 3⟩, ⟨1, ⟨0, [107], []⟩, 1, ⟨[]⟩, 2⟩]

theorem putAndGet_timed : Timed 0 putAndGet := by
  refine ⟨?_, ?_, ?_⟩ <;> simp [putAndGet]

theorem putAndGet_runs : (checkOperations sortByTime kvModel putAndGet false 0
    (List.replicate 7 (.worker 0) ++ [.receive])).map (fun p => (p.phase, p.result)) = some (.done, .ok) := by
  decide +kernel

theorem checkOperations_kvModel_putAndGet :
    Linearizable.IsLinearizable mapStep mapInit (putAndGet.map (Porcupine.Operation.since 0)) := by
  obtain ⟨p, run, is⟩ := Option.map_eq_some_iff.mp putAndGet_runs
  obtain ⟨done, ok⟩ := Prod.mk.inj is
  exact (checkOperations_kvModel sortByTime_sorts putAndGet_timed run done).1 ok

end Models

end DistSys
