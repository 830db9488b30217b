import DistSys.Porcupine.Parallel

namespace DistSys.Porcupine

open Intervals

variable {S I O : Type}

/-- The entry of an event is a call or a return of its number. -/
def EventKind.mark : EventKind → Nat → Mark
  | .callEvent => .call
  | .returnEvent => .ret

theorem EventKind.mark_eq_call {kind : EventKind} {i j : Nat} (is : kind.mark i = .call j) :
    kind = .callEvent ∧ i = j := by
  cases kind with
  | callEvent =>
    cases is
    exact ⟨rfl, rfl⟩
  | returnEvent => cases is

theorem EventKind.mark_eq_ret {kind : EventKind} {i j : Nat} (is : kind.mark i = .ret j) :
    kind = .returnEvent ∧ i = j := by
  cases kind with
  | callEvent => cases is
  | returnEvent =>
    cases is
    exact ⟨rfl, rfl⟩

theorem EventKind.mark_inj {kind other : EventKind} {i j : Nat} (same : kind.mark i = other.mark j) :
    kind = other ∧ i = j := by
  cases other with
  | callEvent => exact mark_eq_call same
  | returnEvent => exact mark_eq_ret same

/-- Every id is called once and returns once, in this order, calls carry inputs and returns
outputs. The ids themselves may be any numbers. -/
structure Complete (history : List (Event I O)) : Prop where
  nodup : (history.map fun v => (v.kind, v.id)).Nodup
  returns : ∀ call ∈ history, call.kind = .callEvent →
    ∃ ret, ret.kind = .returnEvent ∧ ret.id = call.id ∧ [call, ret].Sublist history
  called : ∀ ret ∈ history, ret.kind = .returnEvent → ∃ call ∈ history, call.kind = .callEvent ∧ call.id = ret.id
  input : ∀ call ∈ history, call.kind = .callEvent → ∃ input, call.value = .inl input
  output : ∀ ret ∈ history, ret.kind = .returnEvent → ∃ output, ret.value = .inr output

/-- The ids in the order in which they first occur. -/
def firsts (seen : List Int) : List (Event I O) → List Int
  | [] => seen
  | v :: events => if v.id ∈ seen then firsts seen events else firsts (seen ++ [v.id]) events

/-- The map of `renumber`, when these ids have got their numbers. -/
def table (seen : List Int) (id : Int) : Option Nat :=
  if id ∈ seen then some (seen.idxOf id) else none

section
variable {seen : List Int} {events : List (Event I O)} {x : Int}

theorem prefix_firsts (seen : List Int) (events : List (Event I O)) : seen <+: firsts seen events := by
  induction events generalizing seen with
  | nil => exact List.prefix_rfl
  | cons v events ih =>
    unfold firsts
    split
    next => exact ih seen
    next => exact (List.prefix_append seen [v.id]).trans (ih _)

theorem nodup_firsts (events : List (Event I O)) (nodup : seen.Nodup) : (firsts seen events).Nodup := by
  induction events generalizing seen with
  | nil => exact nodup
  | cons v events ih =>
    unfold firsts
    split
    next => exact ih nodup
    next new =>
      refine ih ?_
      rw [← List.concat_eq_append]
      exact nodup.concat new

theorem mem_firsts : x ∈ firsts seen events ↔ x ∈ seen ∨ ∃ v ∈ events, v.id = x := by
  induction events generalizing seen with
  | nil => simp [firsts]
  | cons v events ih =>
    unfold firsts
    split
    next old =>
      rw [ih, List.exists_mem_cons_iff]
      constructor
      · exact Or.imp_right .inr
      · rintro (here | rfl | later)
        · exact .inl here
        · exact .inl old
        · exact .inr later
    next =>
      rw [ih, List.exists_mem_cons_iff, List.mem_append, List.mem_singleton, or_assoc, eq_comm (a := x)]

theorem idxOf_firsts (here : x ∈ seen) : (firsts seen events).idxOf x = seen.idxOf x := by
  obtain ⟨rest, split⟩ := prefix_firsts seen events
  rw [← split, List.idxOf_append_of_mem here]

theorem table_concat (new : x ∉ seen) : Function.update (table seen) x (some seen.length) = table (seen ++ [x]) := by
  funext id
  by_cases same : id = x
  · subst same
    rw [Function.update_self, table, if_pos (by simp), List.idxOf_append_of_notMem new]
    simp
  · rw [Function.update_of_ne same]
    unfold table
    by_cases here : id ∈ seen
    · rw [if_pos here, if_pos (List.mem_append_left _ here), List.idxOf_append_of_mem here]
    · rw [if_neg here, if_neg]
      rw [List.mem_append, List.mem_singleton]
      exact not_or.mpr ⟨here, same⟩

/-- `renumber` replaces each id by its place among the first occurrences. -/
theorem renumberFrom_table (seen : List Int) (events : List (Event I O)) :
    renumberFrom (table seen) seen.length events =
      events.map fun v => { v with id := ((firsts seen events).idxOf v.id : Int) } := by
  induction events generalizing seen with
  | nil => rfl
  | cons v events ih =>
    by_cases here : v.id ∈ seen
    · have old : table seen v.id = some (seen.idxOf v.id) := if_pos here
      have same : firsts seen (v :: events) = firsts seen events := if_pos here
      rw [renumberFrom, old, List.map_cons, same, idxOf_firsts here, ih]
    · have new : table seen v.id = none := if_neg here
      have longer : firsts seen (v :: events) = firsts (seen ++ [v.id]) events := if_neg here
      have next := ih (seen ++ [v.id])
      rw [List.length_append, List.length_singleton] at next
      rw [renumberFrom, new, List.map_cons, longer, table_concat here]
      simp only
      rw [next, idxOf_firsts (by simp), List.idxOf_append_of_notMem here]
      simp

/-- The entry of an event at an index. -/
def Event.entry (v : Event I O) (i : Nat) : Entry I O :=
  ⟨match v.kind with
    | .callEvent => .callEntry
    | .returnEvent => .returnEntry, v.value, v.id.toNat, i, v.clientId⟩

theorem convertFrom_cons (v : Event I O) (i : Nat) :
    convertFrom i (v :: events) = v.entry i :: convertFrom (i + 1) events :=
  rfl

theorem Event.mark_entry (v : Event I O) (i : Nat) : (v.entry i).mark = v.kind.mark v.id.toNat := by
  unfold Event.entry Entry.mark
  cases v.kind with
  | callEvent => rfl
  | returnEvent => rfl

theorem marks_convertFrom (events : List (Event I O)) (i : Nat) :
    marks (convertFrom i events) = events.map fun v => v.kind.mark v.id.toNat := by
  induction events generalizing i with
  | nil => rfl
  | cons v events ih =>
    have rest := ih (i + 1)
    unfold marks at rest ⊢
    rw [convertFrom_cons, List.map_cons, List.map_cons, rest, v.mark_entry]

theorem length_convertFrom (events : List (Event I O)) (i : Nat) : (convertFrom i events).length = events.length := by
  have size := congrArg List.length (marks_convertFrom events i)
  rwa [marks, List.length_map, List.length_map] at size

theorem mem_convertFrom {i : Nat} {entry : Entry I O} (inside : entry ∈ convertFrom i events) :
    ∃ v ∈ events, ∃ k, entry = v.entry k := by
  induction events generalizing i with
  | nil => cases inside
  | cons v events ih =>
    rw [convertFrom_cons] at inside
    rcases List.mem_cons.mp inside with rfl | later
    · exact ⟨v, List.mem_cons_self, i, rfl⟩
    · obtain ⟨w, member, k, same⟩ := ih later
      exact ⟨w, List.mem_cons_of_mem _ member, k, same⟩

theorem findSome?_convertFrom {α : Type} {find : Entry I O → Option α} {find' : Event I O → Option α} (i : Nat)
    {rename : Event I O → Event I O} (same : ∀ v ∈ events, ∀ k, find ((rename v).entry k) = find' v) :
    (convertFrom i (events.map rename)).findSome? find = events.findSome? find' := by
  induction events generalizing i with
  | nil => rfl
  | cons v events ih =>
    rw [List.map_cons, convertFrom_cons, List.findSome?_cons, List.findSome?_cons, same v List.mem_cons_self i,
      ih (i + 1) fun w inside => same w (List.mem_cons_of_mem _ inside)]

end

/-- The number that `renumber` gives to an id. -/
def number (history : List (Event I O)) (id : Int) : Nat := (firsts [] history).idxOf id

section
variable {history : List (Event I O)} {v w : Event I O}

theorem renumber_eq (history : List (Event I O)) :
    renumber history = history.map fun v => { v with id := (number history v.id : Int) } := by
  have empty : (fun _ => none : Int → Option Nat) = table [] := by
    funext id
    exact (if_neg List.not_mem_nil).symm
  unfold renumber
  rw [empty]
  exact renumberFrom_table [] history

theorem mem_ids (inside : v ∈ history) : v.id ∈ firsts [] history :=
  mem_firsts.mpr (.inr ⟨v, inside, rfl⟩)

theorem number_injective (inside : v ∈ history) (same : number history v.id = number history w.id) : v.id = w.id :=
  (List.idxOf_inj (mem_ids inside)).mp same

theorem number_lt (inside : v ∈ history) : number history v.id < (firsts [] history).length :=
  List.idxOf_lt_length_of_mem (mem_ids inside)

theorem marks_renumber (history : List (Event I O)) :
    marks (convertEntries (renumber history)) = history.map fun v => v.kind.mark (number history v.id) := by
  unfold convertEntries
  rw [marks_convertFrom, renumber_eq, List.map_map]
  rfl

theorem Complete.both (complete : Complete history) {id : Int} (kind : EventKind) (inside : id ∈ firsts [] history) :
    (kind, id) ∈ history.map fun v => (v.kind, v.id) := by
  obtain ⟨v, member, rfl⟩ := (mem_firsts.mp inside).resolve_left List.not_mem_nil
  have call : ∃ call ∈ history, call.kind = .callEvent ∧ call.id = v.id := by
    cases is : v.kind with
    | callEvent => exact ⟨v, member, is, rfl⟩
    | returnEvent => exact complete.called v member is
  obtain ⟨call, made, isCall, same⟩ := call
  cases kind with
  | callEvent => exact List.mem_map.mpr ⟨call, made, by rw [isCall, same]⟩
  | returnEvent =>
    obtain ⟨ret, isRet, back, later⟩ := complete.returns call made isCall
    exact List.mem_map.mpr ⟨ret, later.subset (by simp), by rw [isRet, back, same]⟩

/-- There are two events for each id. -/
theorem Complete.length (complete : Complete history) : history.length = 2 * (firsts [] history).length := by
  have nodup := nodup_firsts history List.nodup_nil
  have apart : ((firsts [] history).map (Prod.mk EventKind.callEvent) ++
      (firsts [] history).map (Prod.mk EventKind.returnEvent)).Nodup := by
    refine List.nodup_append.mpr ⟨nodup.map (Prod.mk_right_injective _), nodup.map (Prod.mk_right_injective _), ?_⟩
    rintro _ first _ second rfl
    obtain ⟨_, _, rfl⟩ := List.mem_map.mp first
    obtain ⟨_, _, other⟩ := List.mem_map.mp second
    cases other
  have perm : (history.map fun v => (v.kind, v.id)).Perm ((firsts [] history).map (Prod.mk EventKind.callEvent) ++
      (firsts [] history).map (Prod.mk EventKind.returnEvent)) := by
    refine (List.perm_ext_iff_of_nodup complete.nodup apart).mpr ?_
    rintro ⟨kind, id⟩
    constructor
    · intro inside
      obtain ⟨v, member, is⟩ := List.mem_map.mp inside
      cases is
      rw [List.mem_append, List.mem_map, List.mem_map]
      cases v.kind with
      | callEvent => exact .inl ⟨v.id, mem_ids member, rfl⟩
      | returnEvent => exact .inr ⟨v.id, mem_ids member, rfl⟩
    · intro inside
      rcases List.mem_append.mp inside with call | ret
      · obtain ⟨_, member, is⟩ := List.mem_map.mp call
        cases is
        exact complete.both _ member
      · obtain ⟨_, member, is⟩ := List.mem_map.mp ret
        cases is
        exact complete.both _ member
  have size := perm.length_eq
  rw [List.length_map, List.length_append, List.length_map, List.length_map] at size
  omega

theorem Complete.paired (complete : Complete history) : Paired (marks (convertEntries (renumber history))) := by
  rw [marks_renumber]
  refine ⟨?_, fun {i} made => ?_, fun {i} returned => ?_⟩
  · rw [List.nodup_map_iff_inj_on (List.Nodup.of_map _ complete.nodup)]
    intro v inside w inside' same
    obtain ⟨kind, id⟩ := EventKind.mark_inj same
    exact List.inj_on_of_nodup_map complete.nodup inside inside' (Prod.ext kind (number_injective inside id))
  · obtain ⟨call, member, is⟩ := List.mem_map.mp made
    obtain ⟨kind, place⟩ := EventKind.mark_eq_call is
    obtain ⟨ret, isRet, same, later⟩ := complete.returns call member kind
    have pair := later.map fun v => v.kind.mark (number history v.id)
    simp only [List.map_cons, List.map_nil, isRet, same, kind, place] at pair
    exact pair
  · obtain ⟨ret, member, is⟩ := List.mem_map.mp returned
    obtain ⟨kind, place⟩ := EventKind.mark_eq_ret is
    obtain ⟨call, made, isCall, same⟩ := complete.called ret member kind
    exact List.mem_map.mpr ⟨call, made, by rw [isCall, same, place]; rfl⟩

theorem half_length (complete : Complete history) :
    (convertEntries (renumber history)).length / 2 = (firsts [] history).length := by
  have size := complete.length
  rw [convertEntries, length_convertFrom, renumber_eq, List.length_map]
  omega

theorem mem_convertEntries {entry : Entry I O} (inside : entry ∈ convertEntries (renumber history)) :
    ∃ v ∈ history, ∃ k, entry = Event.entry { v with id := (number history v.id : Int) } k := by
  unfold convertEntries at inside
  rw [renumber_eq] at inside
  obtain ⟨_, member, k, same⟩ := mem_convertFrom inside
  obtain ⟨v, here, rfl⟩ := List.mem_map.mp member
  exact ⟨v, here, k, same⟩

theorem Complete.wellFormed (complete : Complete history) : WellFormed (convertEntries (renumber history)) := by
  have size := complete.length
  have length : (convertEntries (renumber history)).length = history.length := by
    rw [convertEntries, length_convertFrom, renumber_eq, List.length_map]
  refine ⟨complete.paired, ?_, ?_, ?_, by omega⟩
  · intro entry inside kind
    obtain ⟨v, member, k, rfl⟩ := mem_convertEntries inside
    refine complete.input v member ?_
    have mark := Event.mark_entry { v with id := (number history v.id : Int) } k
    rw [Entry.mark_call kind] at mark
    exact (EventKind.mark_eq_call mark.symm).1
  · intro entry inside kind
    obtain ⟨v, member, k, rfl⟩ := mem_convertEntries inside
    refine complete.output v member ?_
    have mark := Event.mark_entry { v with id := (number history v.id : Int) } k
    rw [Entry.mark_return kind] at mark
    exact (EventKind.mark_eq_ret mark.symm).1
  · intro entry inside
    obtain ⟨v, member, k, rfl⟩ := mem_convertEntries inside
    have bound := number_lt member
    change 2 * ((number history v.id : Int)).toNat + 1 < _
    omega

end

/-! Linearizations of the events themselves -/

def Event.input (v : Event I O) (id : Int) : Option I :=
  match v.kind, v.value with
  | .callEvent, .inl input => if v.id = id then some input else none
  | _, _ => none

def Event.output (v : Event I O) (id : Int) : Option O :=
  match v.kind, v.value with
  | .returnEvent, .inr output => if v.id = id then some output else none
  | _, _ => none

/-- What the model says to the operation with an id. -/
def eventEffect (model : FullModel S I O) (history : List (Event I O)) (state : S) (id : Int) : Option S := do
  let input ← history.findSome? fun v => v.input id
  let output ← history.findSome? fun v => v.output id
  let (ok, newState) := model.step state input output
  if ok then some newState else none

/-- The ids of a history in an order that the model accepts, in which each comes after all
those that returned before it was called. -/
structure EventLinearization (model : FullModel S I O) (history : List (Event I O)) (order : List Int) : Prop where
  nodup : order.Nodup
  complete : ∀ id, id ∈ order ↔ ∃ v ∈ history, v.id = id
  inTime : ∀ before i after, order = before ++ i :: after → ∀ ret call, [ret, call].Sublist history →
    ret.kind = .returnEvent → call.kind = .callEvent → call.id = i → ret.id ∈ before
  legal : (exec (eventEffect model history) model.init order).isSome = true

section
variable {history : List (Event I O)} {v : Event I O} {id : Int} {order : List Int} {model : FullModel S I O}

theorem number_eq_iff (inside : v ∈ history) : number history v.id = number history id ↔ v.id = id :=
  List.idxOf_inj (mem_ids inside)

theorem input_entry (inside : v ∈ history) (k : Nat) :
    (Event.entry { v with id := (number history v.id : Int) } k).input (number history id) = v.input id := by
  unfold Event.entry Entry.input Event.input
  cases v.kind with
  | callEvent =>
    cases v.value with
    | inl input => simp only [Int.toNat_natCast, number_eq_iff inside]
    | inr output => rfl
  | returnEvent => rfl

theorem output_entry (inside : v ∈ history) (k : Nat) :
    (Event.entry { v with id := (number history v.id : Int) } k).output (number history id) = v.output id := by
  unfold Event.entry Entry.output Event.output
  cases v.kind with
  | callEvent => rfl
  | returnEvent =>
    cases v.value with
    | inl input => rfl
    | inr output => simp only [Int.toNat_natCast, number_eq_iff inside]

theorem effect_number (model : FullModel S I O) (state : S) (id : Int) :
    effect model (convertEntries (renumber history)) state (number history id) =
      eventEffect model history state id := by
  unfold effect eventEffect convertEntries
  rw [renumber_eq, findSome?_convertFrom 0 fun v inside k => input_entry inside k,
    findSome?_convertFrom 0 fun v inside k => output_entry inside k]

theorem exec_number (state : S) :
    exec (effect model (convertEntries (renumber history))) state (order.map (number history)) =
    exec (eventEffect model history) state order := by
  induction order generalizing state with
  | nil => rfl
  | cons id order ih =>
    simp only [List.map_cons, exec, effect_number, ih]

/-- A return before a call among the entries is one among the events. -/
theorem ret_call_sublist {j i : Nat}
    (before : [Mark.ret j, Mark.call i].Sublist (marks (convertEntries (renumber history)))) :
    ∃ ret call, [ret, call].Sublist history ∧ ret.kind = .returnEvent ∧ call.kind = .callEvent ∧
      number history ret.id = j ∧ number history call.id = i := by
  rw [marks_renumber] at before
  obtain ⟨both, sublist, is⟩ := List.sublist_map_iff.mp before
  obtain ⟨ret, call, rfl⟩ := List.length_eq_two.mp (by simpa using (congrArg List.length is).symm)
  simp only [List.map_cons, List.map_nil, List.cons.injEq, and_true] at is
  obtain ⟨isRet, isJ⟩ := EventKind.mark_eq_ret is.1.symm
  obtain ⟨isCall, isI⟩ := EventKind.mark_eq_call is.2.symm
  exact ⟨ret, call, sublist, isRet, isCall, isJ, isI⟩

theorem EventLinearization.numbered (complete : Complete history) (given : EventLinearization model history order) :
    CompleteLinearization model (convertEntries (renumber history)) (order.map (number history)) := by
  have ids : ∀ id ∈ order, id ∈ firsts [] history :=
    fun id inside => mem_firsts.mpr (.inr ((given.complete id).mp inside))
  have injective : ∀ a ∈ order, ∀ b ∈ order, number history a = number history b → a = b :=
    fun a inA b _ same => (List.idxOf_inj (ids a inA)).mp same
  refine ⟨⟨?_, ?_, ?_, ?_⟩, ?_⟩
  · exact (List.nodup_map_iff_inj_on given.nodup).mpr injective
  · intro i inside
    obtain ⟨id, member, rfl⟩ := List.mem_map.mp inside
    rw [half_length complete]
    exact List.idxOf_lt_length_of_mem (ids id member)
  · intro before i after split j earlier
    obtain ⟨front, back, rfl, isFront, isBack⟩ := List.map_eq_append_iff.mp split
    obtain ⟨id, rest, rfl, isId, _⟩ := List.map_eq_cons_iff.mp isBack
    obtain ⟨ret, call, sublist, isRet, isCall, isJ, isI⟩ := ret_call_sublist earlier
    have same : call.id = id := (number_eq_iff (sublist.subset (by simp))).mp (isI.trans isId.symm)
    rw [← isFront, ← isJ]
    exact List.mem_map_of_mem (given.inTime front id rest rfl ret call sublist isRet isCall same)
  · rw [exec_number]
    exact given.legal
  · rw [List.length_map, half_length complete]
    refine ((List.perm_ext_iff_of_nodup given.nodup (nodup_firsts history List.nodup_nil)).mpr fun id => ?_).length_eq
    rw [given.complete, mem_firsts]
    simp

theorem exists_ids {numbers : List Nat} (within : ∀ i ∈ numbers, i < (firsts [] history).length) :
    ∃ order : List Int, numbers = order.map (number history) ∧ ∀ id ∈ order, id ∈ firsts [] history := by
  induction numbers with
  | nil => exact ⟨[], rfl, by simp⟩
  | cons i numbers ih =>
    obtain ⟨order, rfl, ids⟩ := ih fun k inside => within k (List.mem_cons_of_mem _ inside)
    have bound := within i List.mem_cons_self
    have back : number history (firsts [] history)[i] = i :=
      (nodup_firsts history List.nodup_nil).idxOf_getElem i bound
    refine ⟨(firsts [] history)[i] :: order, by rw [List.map_cons, back], fun id inside => ?_⟩
    rcases List.mem_cons.mp inside with rfl | later
    · exact List.getElem_mem bound
    · exact ids id later

theorem CompleteLinearization.unnumbered (complete : Complete history) (ids : ∀ id ∈ order, id ∈ firsts [] history)
    (given : CompleteLinearization model (convertEntries (renumber history)) (order.map (number history))) :
    EventLinearization model history order := by
  have member {front : List Int} {id : Int} (part : ∀ x ∈ front, x ∈ order)
      (inside : number history id ∈ front.map (number history)) : id ∈ front := by
    obtain ⟨other, here, same⟩ := List.mem_map.mp inside
    rwa [← (List.idxOf_inj (ids other (part other here))).mp same]
  refine ⟨List.Nodup.of_map _ given.nodup, fun id => ⟨fun inside => ?_, fun ⟨v, inside, same⟩ => ?_⟩, ?_, ?_⟩
  · exact (mem_firsts.mp (ids id inside)).resolve_left List.not_mem_nil
  · subst same
    refine member (fun x here => here) (given.perm.mem_iff.mpr ?_)
    rw [half_length complete, List.mem_range]
    exact number_lt inside
  · intro before i after split ret call sublist isRet isCall same
    have pair := sublist.map fun v => v.kind.mark (number history v.id)
    simp only [List.map_cons, List.map_nil, isRet, isCall, same] at pair
    rw [← marks_renumber] at pair
    refine member (fun x here => split ▸ List.mem_append_left _ here) ?_
    refine given.inTime (before.map (number history)) (number history i) (after.map (number history)) ?_ _ pair
    rw [split, List.map_append, List.map_cons]
  · rw [← exec_number]
    exact given.legal

/-- The entries have a linearization if and only if the events have one. -/
theorem Complete.linearizable_iff (complete : Complete history) :
    (∃ numbers, CompleteLinearization model (convertEntries (renumber history)) numbers) ↔
      ∃ order, EventLinearization model history order := by
  constructor
  · rintro ⟨numbers, given⟩
    have within : ∀ i ∈ numbers, i < (firsts [] history).length := half_length complete ▸ given.within
    obtain ⟨order, rfl, ids⟩ := exists_ids within
    exact ⟨order, given.unnumbered complete ids⟩
  · rintro ⟨order, given⟩
    exact ⟨_, given.numbered complete⟩

end

/-- `checkEvents`, for what happens in `checkParallel`. -/
def checkEvents [DecidableEq S] (model : Model S I O) (history : List (Event I O)) (verbose : Bool) (timeout : Int)
    (events : List Happens) : Option (Parallel S I O) :=
  let model := fillDefault model
  checkParallel model ((model.partitionEvent history).map fun subhistory => convertEntries (renumber subhistory))
    verbose timeout events

/-- `CheckEvents` and its variants: whatever the ids are and whatever the goroutines and the
clock do, `Ok` means that every partition of the events has a linearization, `Illegal` that
one has none, and there is no other result without a timeout. -/
theorem checkEvents_decides [DecidableEq S] {model : Model S I O} {history : List (Event I O)} {verbose : Bool}
    {timeout : Int} {events : List Happens} {p : Parallel S I O} (lawful : (fillDefault model).Lawful)
    (complete : ∀ part ∈ (fillDefault model).partitionEvent history, Complete part)
    (check : checkEvents model history verbose timeout events = some p) (done : p.phase = .done) :
    (p.result = .ok → ∀ part ∈ (fillDefault model).partitionEvent history,
        ∃ order, EventLinearization (fillDefault model) part order) ∧
      (p.result = .illegal → ∃ part ∈ (fillDefault model).partitionEvent history,
        ∀ order, ¬ EventLinearization (fillDefault model) part order) ∧
      (p.result = .unknown → 0 < timeout) := by
  have wellFormed : ∀ entries ∈ ((fillDefault model).partitionEvent history).map fun part =>
      convertEntries (renumber part), WellFormed entries := by
    intro entries inside
    obtain ⟨part, member, rfl⟩ := List.mem_map.mp inside
    exact (complete part member).wellFormed
  obtain ⟨illegal, ok, unknown⟩ := checkParallel_result lawful wellFormed check done
  refine ⟨fun is part member => ?_, fun is => ?_, unknown⟩
  · exact (complete part member).linearizable_iff.mp (ok is _ (List.mem_map_of_mem member))
  · obtain ⟨entries, inside, none⟩ := illegal is
    obtain ⟨part, member, rfl⟩ := List.mem_map.mp inside
    refine ⟨part, member, fun order given => ?_⟩
    obtain ⟨numbers, found⟩ := (complete part member).linearizable_iff.mpr ⟨order, given⟩
    exact none numbers found

/-- A counter without functions of its own. -/
def plainCounter : Model Nat Unit Nat where
  partition := none
  partitionEvent := none
  init := 0
  step := counter.step
  equal := none

/-- Two calls at the same time, with ids that are no small numbers. -/
def strangeIds : List (Event Unit Nat) :=
  [⟨0, .callEvent, .inl (), 70⟩, ⟨1, .callEvent, .inl (), -3⟩, ⟨0, .returnEvent, .inr 1, 70⟩,
    ⟨1, .returnEvent, .inr 0, -3⟩]

theorem strangeIds_complete : Complete strangeIds := by
  refine ⟨by simp [strangeIds], ?_, by simp [strangeIds], by simp [strangeIds], by simp [strangeIds]⟩
  intro call member kind
  simp only [strangeIds, List.mem_cons, List.not_mem_nil, or_false] at member
  rcases member with rfl | rfl | rfl | rfl
  · exact ⟨⟨0, .returnEvent, .inr 1, 70⟩, rfl, rfl, .cons_cons _ (.cons _ (.cons_cons _ (List.nil_sublist _)))⟩
  · exact ⟨⟨1, .returnEvent, .inr 0, -3⟩, rfl, rfl,
      .cons _ (.cons_cons _ (.cons _ (.cons_cons _ (List.nil_sublist _))))⟩
  · cases kind
  · cases kind

theorem strangeIds_runs : (checkEvents plainCounter strangeIds false 0 overlappingRun).map
    (fun p => (p.phase, p.result)) = some (.done, .ok) := by
  decide +kernel

theorem checkEvents_decides_strangeIds : ∃ order, EventLinearization (fillDefault plainCounter) strangeIds order := by
  obtain ⟨p, run, is⟩ := Option.map_eq_some_iff.mp strangeIds_runs
  obtain ⟨done, ok⟩ := Prod.mk.inj is
  have complete : ∀ part ∈ (fillDefault plainCounter).partitionEvent strangeIds, Complete part := by
    intro part member
    rw [List.mem_singleton.mp member]
    exact strangeIds_complete
  have lawful : (fillDefault plainCounter).Lawful := counter_lawful
  exact (checkEvents_decides lawful complete run done).1 ok strangeIds List.mem_cons_self

end DistSys.Porcupine
