import DistSys.Core.Linearizable
import DistSys.Porcupine.Verdict
import Mathlib.Data.List.Sort

namespace DistSys.Porcupine

open Intervals

variable {S I O : Type}

def Operation.callEntry (op : Operation I O) (id : Nat) : Entry I O :=
  ⟨.callEntry, .inl op.input, id, op.call, op.clientId⟩

def Operation.returnEntry (op : Operation I O) (id : Nat) : Entry I O :=
  ⟨.returnEntry, .inr op.output, id, op.ret, op.clientId⟩

/-- An operation as the general definition of linearizability has it, with the times
counted from some time before the history. -/
def Operation.since (base : Int) (op : Operation I O) : Linearizable.Operation I O where
  input := op.input
  call := (op.call - base).toNat
  result := some (op.output, (op.ret - base).toNat)

/-- The times of a history. No operation returns at the time another one is called: the
sort of `makeEntries` does not say which of the two entries comes first. -/
structure Timed (base : Int) (history : List (Operation I O)) : Prop where
  based : ∀ op ∈ history, base ≤ op.call
  lasts : ∀ op ∈ history, op.call < op.ret
  untied : ∀ first ∈ history, ∀ second ∈ history, first.ret ≠ second.call

theorem Timed.filter {base : Int} {history : List (Operation I O)} (timed : Timed base history)
    (p : Operation I O → Bool) : Timed base (history.filter p) where
  based := fun op inside => timed.based op (List.mem_of_mem_filter inside)
  lasts := fun op inside => timed.lasts op (List.mem_of_mem_filter inside)
  untied := fun first inside second inside' =>
    timed.untied first (List.mem_of_mem_filter inside) second (List.mem_of_mem_filter inside')

/-- The step function of a model as a partial function. -/
def FullModel.accepts (model : FullModel S I O) (s : S) (input : I) (output : O) : Option S :=
  if (model.step s input output).1 then some (model.step s input output).2 else none

section
variable {history : List (Operation I O)} {id i j : Nat} {op first second : Operation I O} {entry : Entry I O}

theorem entriesFrom_cons : entriesFrom id (op :: history) =
    op.callEntry id :: op.returnEntry id :: entriesFrom (id + 1) history :=
  rfl

theorem length_entriesFrom : (entriesFrom id history).length = 2 * history.length := by
  induction history generalizing id with
  | nil => rfl
  | cons op history ih =>
    rw [entriesFrom_cons, List.length_cons, List.length_cons, List.length_cons, ih]
    omega

theorem mem_entriesFrom : entry ∈ entriesFrom id history ↔ ∃ (k : Nat) (op : Operation I O), history[k]? = some op ∧
    (entry = op.callEntry (id + k) ∨ entry = op.returnEntry (id + k)) := by
  induction history generalizing id with
  | nil => simp [entriesFrom]
  | cons op history ih =>
    rw [entriesFrom_cons, List.mem_cons, List.mem_cons, ih]
    constructor
    · rintro (call | ret | ⟨k, other, here, is⟩)
      · exact ⟨0, op, rfl, Or.inl call⟩
      · exact ⟨0, op, rfl, Or.inr ret⟩
      · refine ⟨k + 1, other, here, ?_⟩
        rwa [Nat.add_right_comm, Nat.add_assoc] at is
    · rintro ⟨k, other, here, is⟩
      cases k with
      | zero =>
        cases here
        rcases is with call | ret
        · exact Or.inl call
        · exact Or.inr (Or.inl ret)
      | succ k =>
        refine Or.inr (Or.inr ⟨k, other, here, ?_⟩)
        rwa [Nat.add_right_comm, Nat.add_assoc]

theorem mark_callEntry : (op.callEntry id).mark = .call id :=
  rfl

theorem mark_returnEntry : (op.returnEntry id).mark = .ret id :=
  rfl

theorem nodup_marks_entriesFrom : (marks (entriesFrom id history)).Nodup := by
  induction history generalizing id with
  | nil => exact List.nodup_nil
  | cons op history ih =>
    have later : ∀ mark ∈ marks (entriesFrom (id + 1) history), id < mark.id := by
      intro mark inside
      obtain ⟨entry, member, rfl⟩ := List.mem_map.mp inside
      obtain ⟨k, other, _, rfl | rfl⟩ := mem_entriesFrom.mp member
      · rw [mark_callEntry, Mark.id]
        omega
      · rw [mark_returnEntry, Mark.id]
        omega
    simp only [entriesFrom_cons, marks, List.map_cons, mark_callEntry, mark_returnEntry, List.nodup_cons,
      List.mem_cons, not_or]
    refine ⟨⟨by simp, fun inside => ?_⟩, fun inside => ?_, ih⟩
    · exact Nat.lt_irrefl _ (later _ inside)
    · exact Nat.lt_irrefl _ (later _ inside)

variable {sort : List (Entry I O) → List (Entry I O)} (sorts : SortsByTime sort)
include sorts

theorem mem_makeEntries : entry ∈ makeEntries sort history ↔ ∃ (k : Nat) (op : Operation I O), history[k]? = some op ∧
    (entry = op.callEntry k ∨ entry = op.returnEntry k) := by
  rw [makeEntries, (sorts.perm _).mem_iff, mem_entriesFrom]
  simp only [Nat.zero_add]

theorem length_makeEntries : (makeEntries sort history).length = 2 * history.length := by
  rw [makeEntries, (sorts.perm _).length_eq, length_entriesFrom]

theorem nodup_marks_makeEntries : (marks (makeEntries sort history)).Nodup :=
  ((sorts.perm _).map _).nodup_iff.mpr nodup_marks_entriesFrom

theorem call_mem_makeEntries (here : history[i]? = some op) : op.callEntry i ∈ makeEntries sort history :=
  (mem_makeEntries sorts).mpr ⟨i, op, here, Or.inl rfl⟩

theorem return_mem_makeEntries (here : history[i]? = some op) : op.returnEntry i ∈ makeEntries sort history :=
  (mem_makeEntries sorts).mpr ⟨i, op, here, Or.inr rfl⟩

theorem eq_callEntry (inside : entry ∈ makeEntries sort history) (mark : entry.mark = .call i) :
    ∃ op, history[i]? = some op ∧ entry = op.callEntry i := by
  obtain ⟨k, op, here, rfl | rfl⟩ := (mem_makeEntries sorts).mp inside
  · cases mark
    exact ⟨op, here, rfl⟩
  · cases mark

theorem eq_returnEntry (inside : entry ∈ makeEntries sort history) (mark : entry.mark = .ret i) :
    ∃ op, history[i]? = some op ∧ entry = op.returnEntry i := by
  obtain ⟨k, op, here, rfl | rfl⟩ := (mem_makeEntries sorts).mp inside
  · cases mark
  · cases mark
    exact ⟨op, here, rfl⟩

/-- Entries with different times are in the order of the times. -/
theorem makeEntries_sublist {entry' : Entry I O} (inside : entry ∈ makeEntries sort history)
    (inside' : entry' ∈ makeEntries sort history) (earlier : entry.time < entry'.time) :
    [entry.mark, entry'.mark].Sublist (marks (makeEntries sort history)) := by
  have apart : entry ≠ entry' := by
    rintro rfl
    omega
  have forward : [entry, entry'].Sublist (makeEntries sort history) := by
    refine (pair_sublist_or inside inside' apart).resolve_right fun backward => ?_
    exact (List.pairwise_cons.mp ((sorts.sorted _).sublist backward)).1 entry (by simp) earlier
  exact forward.map Entry.mark

/-- The order of a return and a call is their order in time. -/
theorem ret_call_sublist_iff {base : Int} (timed : Timed base history) (here : history[j]? = some first)
    (there : history[i]? = some second) :
    [Mark.ret j, Mark.call i].Sublist (marks (makeEntries sort history)) ↔ first.ret < second.call := by
  constructor
  · intro before
    obtain ⟨both, sublist, is⟩ := List.sublist_map_iff.mp before
    obtain ⟨ret, call, rfl⟩ := List.length_eq_two.mp (by simpa using (congrArg List.length is).symm)
    simp only [List.map_cons, List.map_nil, List.cons.injEq, and_true] at is
    obtain ⟨first', here', rfl⟩ := eq_returnEntry sorts (sublist.subset (by simp)) is.1.symm
    obtain ⟨second', there', rfl⟩ := eq_callEntry sorts (sublist.subset (by simp)) is.2.symm
    cases here.symm.trans here'
    cases there.symm.trans there'
    have ordered := (List.pairwise_cons.mp ((sorts.sorted _).sublist sublist)).1 (second.callEntry i) (by simp)
    have untied := timed.untied first (List.mem_of_getElem? here) second (List.mem_of_getElem? there)
    simp only [Operation.callEntry, Operation.returnEntry] at ordered
    omega
  · intro less
    exact makeEntries_sublist sorts (return_mem_makeEntries sorts here) (call_mem_makeEntries sorts there) less

/-- The entries of a history are as the checker expects them. -/
theorem Timed.wellFormed {base : Int} (timed : Timed base history) : WellFormed (makeEntries sort history) := by
  have called {k : Nat} {mark : Mark} (inside : mark ∈ marks (makeEntries sort history)) (is : mark.id = k) :
      ∃ op, history[k]? = some op := by
    obtain ⟨entry, member, rfl⟩ := List.mem_map.mp inside
    obtain ⟨k', op, here, rfl | rfl⟩ := (mem_makeEntries sorts).mp member
    · cases is
      exact ⟨op, here⟩
    · cases is
      exact ⟨op, here⟩
  refine ⟨⟨nodup_marks_makeEntries sorts, fun {i} made => ?_, fun {i} returned => ?_⟩, ?_, ?_, ?_, ?_⟩
  · obtain ⟨op, here⟩ := called made rfl
    exact makeEntries_sublist sorts (call_mem_makeEntries sorts here) (return_mem_makeEntries sorts here)
      (timed.lasts op (List.mem_of_getElem? here))
  · obtain ⟨op, here⟩ := called returned rfl
    exact List.mem_map.mpr ⟨_, call_mem_makeEntries sorts here, rfl⟩
  · intro entry inside kind
    obtain ⟨k, op, here, rfl | rfl⟩ := (mem_makeEntries sorts).mp inside
    · exact ⟨_, rfl⟩
    · cases kind
  · intro entry inside kind
    obtain ⟨k, op, here, rfl | rfl⟩ := (mem_makeEntries sorts).mp inside
    · cases kind
    · exact ⟨_, rfl⟩
  · intro entry inside
    rw [length_makeEntries sorts]
    obtain ⟨k, op, here, rfl | rfl⟩ := (mem_makeEntries sorts).mp inside
    all_goals
      have bound := (List.getElem?_eq_some_iff.mp here).1
      simp only [Operation.callEntry, Operation.returnEntry]
      omega
  · rw [length_makeEntries sorts]
    omega

/-- The effect of an operation of the history. -/
theorem effect_makeEntries {base : Int} (timed : Timed base history) (model : FullModel S I O) (s : S)
    (here : history[i]? = some op) :
    effect model (makeEntries sort history) s i = model.accepts s op.input op.output := by
  obtain ⟨input, output, isInput, isOutput, is⟩ := (timed.wellFormed sorts).effect_eq model
    (call_mem_makeEntries sorts here) (return_mem_makeEntries sorts here) rfl rfl rfl
  cases isInput
  cases isOutput
  exact is s

end

/-- The second operation did not return before the first was called. -/
def KeepsTime (history : List (Linearizable.Operation I O)) (earlier later : Nat) : Prop :=
  ∀ first second : Linearizable.Operation I O, history[earlier]? = some first → history[later]? = some second →
    ¬ second.Precedes first

/-- Operations, given by their numbers, with their outputs. -/
def points (history : List (Operation I O)) (order : List Nat) : List (Nat × O) :=
  order.filterMap fun i => (history[i]?).map fun op => (i, op.output)

section
variable {history : List (Operation I O)} {order : List Nat} {base : Int}

theorem mem_points {i : Nat} {o : O} : (i, o) ∈ points history order ↔
    i ∈ order ∧ ∃ op, history[i]? = some op ∧ op.output = o := by
  simp only [points, List.mem_filterMap, Option.map_eq_some_iff, Prod.mk.injEq]
  constructor
  · rintro ⟨_, inside, op, here, rfl, output⟩
    exact ⟨inside, op, here, output⟩
  · rintro ⟨inside, op, here, output⟩
    exact ⟨i, inside, op, here, rfl, output⟩

theorem map_fst_points (within : ∀ i ∈ order, i < history.length) : (points history order).map Prod.fst = order := by
  induction order with
  | nil => rfl
  | cons i order ih =>
    have here := List.getElem?_eq_getElem (within i List.mem_cons_self)
    have later := ih fun k inside => within k (List.mem_cons_of_mem _ inside)
    simp only [points, List.filterMap_cons, here, Option.map_some, List.map_cons] at later ⊢
    rw [later]

/-- Pairs of an operation and its output are given by the operations. -/
theorem points_map_fst {pairs : List (Nat × O)}
    (outputs : ∀ {i o}, (i, o) ∈ pairs → ∃ op, history[i]? = some op ∧ op.output = o) :
    points history (pairs.map Prod.fst) = pairs := by
  induction pairs with
  | nil => rfl
  | cons pair pairs ih =>
    obtain ⟨i, o⟩ := pair
    obtain ⟨op, here, output⟩ := outputs List.mem_cons_self
    have later := ih fun inside => outputs (List.mem_cons_of_mem _ inside)
    simp only [points, List.map_cons, List.filterMap_cons, here, Option.map_some, output] at later ⊢
    rw [later]

variable {sort : List (Entry I O) → List (Entry I O)} (sorts : SortsByTime sort) (timed : Timed base history)
include sorts timed

theorem exec_points (model : FullModel S I O) (within : ∀ i ∈ order, i < history.length) (s : S) :
    exec (fun s io => model.accepts s io.1 io.2) s
        (Linearizable.inputs (history.map (Operation.since base)) (points history order)) =
      exec (effect model (makeEntries sort history)) s order := by
  induction order generalizing s with
  | nil => rfl
  | cons i order ih =>
    have here := List.getElem?_eq_getElem (within i List.mem_cons_self)
    have later := ih fun k inside => within k (List.mem_cons_of_mem _ inside)
    simp only [points, Linearizable.inputs, List.filterMap_cons, here, Option.map_some, List.getElem?_map,
      Operation.since, exec] at later ⊢
    rw [effect_makeEntries sorts timed model s here]
    cases model.accepts s _ _ with
    | none => rfl
    | some s' => exact later s'

/-- An operation precedes another one if its return entry comes before the call entry. -/
theorem precedes_iff {i j : Nat} {first second : Operation I O} (here : history[j]? = some first)
    (there : history[i]? = some second) : (first.since base).Precedes (second.since base) ↔
      [Mark.ret j, Mark.call i].Sublist (marks (makeEntries sort history)) := by
  rw [ret_call_sublist_iff sorts timed here there]
  have late := timed.based second (List.mem_of_getElem? there)
  have early := timed.based first (List.mem_of_getElem? here)
  have lasts := timed.lasts first (List.mem_of_getElem? here)
  simp only [Linearizable.Operation.Precedes, Operation.since, Option.some.injEq, Prod.mk.injEq]
  constructor
  · rintro ⟨_, _, ⟨rfl, rfl⟩, less⟩
    omega
  · intro less
    exact ⟨_, _, ⟨rfl, rfl⟩, by omega⟩

/-- A linearization in the general sense, from one of the entries. -/
theorem CompleteLinearization.linearization {model : FullModel S I O}
    (given : CompleteLinearization model (makeEntries sort history) order) :
    Linearizable.Linearization model.accepts model.init (history.map (Operation.since base))
      (points history order) := by
  have half : (makeEntries sort history).length / 2 = history.length := by
    rw [length_makeEntries sorts]
    omega
  have within : ∀ i ∈ order, i < history.length := half ▸ given.within
  refine ⟨?_, ?_, ?_, ?_, ?_⟩
  · rw [map_fst_points within]
    exact given.nodup
  · intro i o inside
    obtain ⟨_, op, here, rfl⟩ := mem_points.mp inside
    refine ⟨op.since base, by rw [List.getElem?_map, here, Option.map_some], ?_⟩
    intro output time is
    cases is
    rfl
  · intro i op here _
    rw [map_fst_points within, given.perm.mem_iff, List.mem_range, half]
    simpa using (List.getElem?_eq_some_iff.mp here).1
  · have ordered : ((points history order).map Prod.fst).Pairwise
        (KeepsTime (history.map (Operation.since base))) := by
      rw [map_fst_points within, List.pairwise_iff_forall_sublist]
      intro earlier later both first second isFirst isSecond before
      rw [List.getElem?_map] at isFirst isSecond
      obtain ⟨first, here, rfl⟩ := Option.map_eq_some_iff.mp isFirst
      obtain ⟨second, there, rfl⟩ := Option.map_eq_some_iff.mp isSecond
      obtain ⟨front, back, split⟩ := List.append_of_mem (both.subset List.mem_cons_self)
      have nodup := given.nodup
      rw [split] at both nodup
      have inside := mem_of_sublist_pair both nodup
      have inFront := given.inTime front earlier back split later ((precedes_iff sorts timed there here).mp before)
      exact (List.nodup_append.mp nodup).2.2 later inFront later (List.mem_cons_of_mem _ inside) rfl
    exact List.pairwise_map.mp ordered
  · rw [exec_points sorts timed model within]
    exact given.legal

/-- An order of the entries, from a linearization in the general sense. -/
theorem CompleteLinearization.of_linearization {model : FullModel S I O} {pairs : List (Nat × O)}
    (given : Linearizable.Linearization model.accepts model.init (history.map (Operation.since base)) pairs) :
    CompleteLinearization model (makeEntries sort history) (pairs.map Prod.fst) := by
  have half : (makeEntries sort history).length / 2 = history.length := by
    rw [length_makeEntries sorts]
    omega
  have outputs : ∀ {i o}, (i, o) ∈ pairs → ∃ op, history[i]? = some op ∧ op.output = o := by
    intro i o inside
    obtain ⟨general, is, output⟩ := given.outputs inside
    rw [List.getElem?_map] at is
    obtain ⟨op, here, rfl⟩ := Option.map_eq_some_iff.mp is
    exact ⟨op, here, output _ _ rfl⟩
  have within : ∀ i ∈ pairs.map Prod.fst, i < history.length := by
    intro i inside
    obtain ⟨⟨_, o⟩, member, rfl⟩ := List.mem_map.mp inside
    obtain ⟨op, here, _⟩ := outputs member
    exact (List.getElem?_eq_some_iff.mp here).1
  have every : ∀ {i op}, history[i]? = some op → i ∈ pairs.map Prod.fst := by
    intro i op here
    have there : (history.map (Operation.since base))[i]? = some (op.since base) := by
      rw [List.getElem?_map, here, Option.map_some]
    exact given.complete there rfl
  refine ⟨⟨given.nodup, half ▸ within, ?_, ?_⟩, ?_⟩
  · intro before i after split j earlier
    have inside : Mark.ret j ∈ marks (makeEntries sort history) := earlier.subset List.mem_cons_self
    obtain ⟨entry, member, mark⟩ := List.mem_map.mp inside
    obtain ⟨first, here, _⟩ := eq_returnEntry sorts member mark
    obtain ⟨second, there⟩ : ∃ second, history[i]? = some second :=
      ⟨_, List.getElem?_eq_getElem (within i (by rw [split]; simp))⟩
    have less := (ret_call_sublist_iff sorts timed here there).mp earlier
    have taken := every here
    rw [split, List.mem_append, List.mem_cons] at taken
    rcases taken with front | rfl | back
    · exact front
    · cases here.symm.trans there
      have lasts := timed.lasts first (List.mem_of_getElem? here)
      omega
    · -- a later operation of the order does not precede this one
      have ordered : (pairs.map Prod.fst).Pairwise (KeepsTime (history.map (Operation.since base))) :=
        List.pairwise_map.mpr given.inTime
      rw [split, List.pairwise_append, List.pairwise_cons] at ordered
      refine absurd ((precedes_iff sorts timed here there).mpr earlier) ?_
      refine ordered.2.1.1 j back (second.since base) (first.since base) ?_ ?_
      · rw [List.getElem?_map, there, Option.map_some]
      · rw [List.getElem?_map, here, Option.map_some]
  · rw [← exec_points sorts timed model within, points_map_fst outputs]
    exact given.legal
  · have all : (pairs.map Prod.fst).Perm (List.range history.length) := by
      refine (List.perm_ext_iff_of_nodup given.nodup List.nodup_range).mpr fun i => ?_
      rw [List.mem_range]
      exact ⟨within i, fun bound => every (List.getElem?_eq_getElem bound)⟩
    rw [half, all.length_eq, List.length_range]

theorem isLinearizable_iff (model : FullModel S I O) :
    Linearizable.IsLinearizable model.accepts model.init (history.map (Operation.since base)) ↔
      ∃ order, CompleteLinearization model (makeEntries sort history) order :=
  ⟨fun ⟨_, given⟩ => ⟨_, .of_linearization sorts timed given⟩,
    fun ⟨_, given⟩ => ⟨_, given.linearization sorts timed⟩⟩

end

/-- A sort by time. -/
def sortByTime (entries : List (Entry I O)) : List (Entry I O) :=
  entries.insertionSort fun first second => first.time ≤ second.time

theorem sortByTime_sorts : SortsByTime (sortByTime (I := I) (O := O)) := by
  have total : Std.Total fun first second : Entry I O => first.time ≤ second.time :=
    ⟨fun first second => Int.le_total first.time second.time⟩
  have trans : IsTrans (Entry I O) fun first second => first.time ≤ second.time :=
    ⟨fun _ _ _ first second => Int.le_trans first second⟩
  refine ⟨fun entries => List.perm_insertionSort _ entries, fun entries => ?_⟩
  exact (List.pairwise_insertionSort _ entries).imp fun ordered => Int.not_lt.mpr ordered

end DistSys.Porcupine
