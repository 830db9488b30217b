import DistSys.Core.Linearizable
import Mathlib.Data.List.Perm.Basic
import Mathlib.Order.WellFounded

namespace DistSys.Linearizable

variable {S I O K : Type*}

/-- The effect of a call that has returned. -/
def Operation.act (step : S → I → O → Option S) (s : S) (op : Operation I O) : Option S :=
  op.result.bind fun result => step s op.input result.1

/-- All calls of a history, in an order in which the object can execute them and that keeps
to the order in time. -/
structure Sequential (step : S → I → O → Option S) (start : S) (history order : List (Operation I O)) : Prop where
  perm : order.Perm history
  inTime : order.Pairwise fun earlier later => ¬ later.Precedes earlier
  legal : (exec (Operation.act step) start order).isSome = true

section
variable {step : S → I → O → Option S} {start : S} {history order : List (Operation I O)}

/-- The calls named in an order. -/
def named (history : List (Operation I O)) (order : List (Nat × O)) : List (Operation I O) :=
  order.filterMap fun point => history[point.1]?

theorem exec_named {order : List (Nat × O)} (returned : ∀ op ∈ history, op.result.isSome = true)
    (outputs : ∀ {i o}, (i, o) ∈ order → ∃ op, history[i]? = some op ∧
      ∀ output time, op.result = some (output, time) → output = o) (s : S) :
    exec (Operation.act step) s (named history order) =
      exec (fun s io => step s io.1 io.2) s (inputs history order) := by
  induction order generalizing s with
  | nil => rfl
  | cons point order ih =>
    obtain ⟨i, o⟩ := point
    obtain ⟨op, here, output⟩ := outputs List.mem_cons_self
    obtain ⟨⟨o', time⟩, result⟩ := Option.isSome_iff_exists.mp (returned op (List.mem_of_getElem? here))
    obtain rfl := output o' time result
    have later := ih fun inside => outputs (List.mem_cons_of_mem _ inside)
    simp only [named, inputs, List.filterMap_cons, here, Option.map_some, exec, Operation.act, result,
      Option.bind_some] at later ⊢
    cases step s op.input o' with
    | none => rfl
    | some t => exact later t

theorem filterMap_range {α : Type*} (l : List α) : (List.range l.length).filterMap (fun i => l[i]?) = l := by
  induction l using List.reverseRecOn with
  | nil => rfl
  | append_singleton l x ih =>
    rw [List.length_append, List.length_singleton, List.range_succ, List.filterMap_append]
    have before : (List.range l.length).filterMap (fun i => (l ++ [x])[i]?) = l := by
      refine Eq.trans (List.filterMap_congr fun i inside => ?_) ih
      exact List.getElem?_append_left (List.mem_range.mp inside)
    rw [before]
    simp

/-- For histories in which every call has returned, calls need not be named. -/
theorem Linearization.sequential {order : List (Nat × O)} (returned : ∀ op ∈ history, op.result.isSome = true)
    (given : Linearization step start history order) : Sequential step start history (named history order) := by
  have names : named history order = (order.map Prod.fst).filterMap fun i => history[i]? := by
    rw [named, List.filterMap_map]
    rfl
  refine ⟨?_, ?_, ?_⟩
  · have all : (order.map Prod.fst).Perm (List.range history.length) := by
      refine (List.perm_ext_iff_of_nodup given.nodup List.nodup_range).mpr fun i => ?_
      rw [List.mem_range]
      constructor
      · intro inside
        obtain ⟨⟨_, o⟩, member, rfl⟩ := List.mem_map.mp inside
        obtain ⟨op, here, _⟩ := given.outputs member
        exact (List.getElem?_eq_some_iff.mp here).1
      · intro within
        exact given.complete (List.getElem?_eq_getElem within) (returned _ (List.getElem_mem within))
    rw [names]
    exact (all.filterMap _).trans (.of_eq (filterMap_range history))
  · rw [named, List.pairwise_filterMap]
    exact given.inTime.imp fun keeps first here second there => keeps first second here there
  · rw [exec_named returned given.outputs]
    exact given.legal

/-- Calls, given by their positions, with their outputs. -/
def withOutputs (history : List (Operation I O)) (order : List Nat) : List (Nat × O) :=
  order.filterMap fun i => (history[i]?).bind fun op => op.result.map fun result => (i, result.1)

theorem withOutputs_spec {positions : List Nat} (returned : ∀ op ∈ history, op.result.isSome = true)
    (within : ∀ i ∈ positions, i < history.length) : (withOutputs history positions).map Prod.fst = positions ∧
      named history (withOutputs history positions) = positions.filterMap fun i => history[i]? := by
  induction positions with
  | nil => exact ⟨rfl, rfl⟩
  | cons i positions ih =>
    have here := List.getElem?_eq_getElem (within i List.mem_cons_self)
    obtain ⟨result, is⟩ := Option.isSome_iff_exists.mp (returned _ (List.mem_of_getElem? here))
    obtain ⟨names, calls⟩ := ih fun k inside => within k (List.mem_cons_of_mem _ inside)
    simp only [withOutputs, named, List.filterMap_cons, here, Option.bind_some, is, Option.map_some,
      List.map_cons] at names calls ⊢
    exact ⟨by rw [names], by rw [calls]⟩

theorem Sequential.isLinearizable (returned : ∀ op ∈ history, op.result.isSome = true)
    (given : Sequential step start history order) : IsLinearizable step start history := by
  have ranged : history.map some = (List.range history.length).map fun i => history[i]? := by
    refine List.ext_getElem (by simp) fun i inside inside' => ?_
    simp only [List.length_map] at inside
    simp [inside]
  obtain ⟨positions, is, perm⟩ : ∃ positions : List Nat, order.map some = positions.map (fun i => history[i]?) ∧
      positions.Perm (List.range history.length) := by
    have perm : (order.map some).Perm ((List.range history.length).map fun i => history[i]?) :=
      ranged ▸ given.perm.map some
    have lifts := congrFun (congrFun (List.eq_map_comp_perm fun i : Nat => history[i]?) (order.map some))
      (List.range history.length)
    exact lifts.mpr perm
  have within : ∀ i ∈ positions, i < history.length := fun i inside =>
    List.mem_range.mp (perm.mem_iff.mp inside)
  obtain ⟨names, calls⟩ := withOutputs_spec returned within
  have called : (positions.filterMap fun i => history[i]?) = order := by
    calc (positions.filterMap fun i => history[i]?)
        = (positions.map fun i => history[i]?).filterMap id := by rw [List.filterMap_map]; rfl
      _ = (order.map some).filterMap id := by rw [is]
      _ = order := by rw [List.filterMap_map]; simp
  have outputs : ∀ {i o}, (i, o) ∈ withOutputs history positions → ∃ op, history[i]? = some op ∧
      ∀ output time, op.result = some (output, time) → output = o := by
    intro i o inside
    obtain ⟨k, _, found⟩ := List.mem_filterMap.mp inside
    obtain ⟨op, here, found⟩ := Option.bind_eq_some_iff.mp found
    obtain ⟨result, isResult, pair⟩ := Option.map_eq_some_iff.mp found
    cases pair
    refine ⟨op, here, fun output time is => ?_⟩
    cases isResult.symm.trans is
    rfl
  refine ⟨withOutputs history positions, ?_, outputs, ?_, ?_, ?_⟩
  · rw [names]
    exact perm.nodup_iff.mpr List.nodup_range
  · intro i op here _
    rw [names, perm.mem_iff, List.mem_range]
    exact (List.getElem?_eq_some_iff.mp here).1
  · have ordered := given.inTime
    rw [← called, List.pairwise_filterMap, ← names, List.pairwise_map] at ordered
    exact ordered.imp fun keeps first second here there => keeps first here second there
  · rw [← exec_named returned outputs, calls, called]
    exact given.legal

theorem exists_of_forall₂ {α β : Type*} {R : α → β → Prop} {l : List α} {l' : List β} (related : List.Forall₂ R l l')
    {b : β} (inside : b ∈ l') : ∃ a ∈ l, R a b := by
  induction related with
  | nil => cases inside
  | @cons a b' l l' first _ ih =>
    rcases List.mem_cons.mp inside with rfl | inside
    · exact ⟨a, List.mem_cons_self, first⟩
    · obtain ⟨a', member, holds⟩ := ih inside
      exact ⟨a', List.mem_cons_of_mem _ member, holds⟩

theorem pairwise_of_forall₂ {α β : Type*} {R : α → β → Prop} {P : α → α → Prop} {Q : β → β → Prop} {l : List α}
    {l' : List β} (related : List.Forall₂ R l l') (keeps : ∀ {a a' b b'}, R a a' → R b b' → P a b → Q a' b')
    (pairwise : l.Pairwise P) : l'.Pairwise Q := by
  induction related with
  | nil => exact .nil
  | cons first rest ih =>
    obtain ⟨here, later⟩ := List.pairwise_cons.mp pairwise
    refine List.pairwise_cons.mpr ⟨fun b' inside => ?_, ih later⟩
    obtain ⟨b, member, holds⟩ := exists_of_forall₂ rest inside
    exact keeps first holds (here b member)

theorem exec_of_forall₂ {α β : Type*} {R : α → β → Prop} {f : S → α → Option S} {g : S → β → Option S} {l : List α}
    {l' : List β} (related : List.Forall₂ R l l') (acts : ∀ {a b}, R a b → ∀ s, g s b = f s a) (s : S) :
    exec g s l' = exec f s l := by
  induction related generalizing s with
  | nil => rfl
  | cons first _ ih =>
    rw [exec, exec, acts first]
    exact congrArg _ (funext ih)

/-- A history of the same calls with looser times: whatever is in order there was in order
before. -/
theorem Sequential.transfer {R : Operation I O → Operation I O → Prop} {history' : List (Operation I O)}
    (given : Sequential step start history order) (related : List.Forall₂ R history history')
    (keeps : ∀ {a a' b b'}, R a a' → R b b' → a'.Precedes b' → a.Precedes b)
    (acts : ∀ {a a'}, R a a' → ∀ s, a'.act step s = a.act step s) :
    ∃ order', Sequential step start history' order' := by
  obtain ⟨order', along, perm⟩ := List.perm_comp_forall₂ given.perm related
  refine ⟨order', perm, pairwise_of_forall₂ along ?_ given.inTime, ?_⟩
  · exact fun first second apart precedes => apart (keeps second first precedes)
  · rw [exec_of_forall₂ along acts]
    exact given.legal

theorem isLinearizable_iff_sequential (returned : ∀ op ∈ history, op.result.isSome = true) :
    IsLinearizable step start history ↔ ∃ order, Sequential step start history order :=
  ⟨fun ⟨_, given⟩ => ⟨_, given.sequential returned⟩, fun ⟨_, given⟩ => given.isLinearizable returned⟩

end

section
variable [DecidableEq K] (key : I → K) (step : S → I → O → Option S)

/-- Many objects as one: the input says which of them is called. -/
def product (state : K → S) (input : I) (output : O) : Option (K → S) :=
  (step (state (key input)) input output).map fun s => Function.update state (key input) s

/-- The calls of one of the objects. -/
def restrict (k : K) (history : List (Operation I O)) : List (Operation I O) :=
  history.filter fun op => key op.input = k

variable {key step} {history order : List (Operation I O)} {state : K → S} {k : K}

theorem restrict_cons_self {op : Operation I O} :
    restrict key (key op.input) (op :: order) = op :: restrict key (key op.input) order := by
  simp [restrict]

theorem restrict_cons_of_ne {op : Operation I O} (other : key op.input ≠ k) :
    restrict key k (op :: order) = restrict key k order := by
  simp [restrict, other]

/-- An execution of all objects executes each of them. -/
theorem exec_product {state' : K → S} (run : exec (Operation.act (product key step)) state order = some state') :
    exec (Operation.act step) (state k) (restrict key k order) = some (state' k) := by
  induction order generalizing state with
  | nil =>
    cases run
    rfl
  | cons op order ih =>
    obtain ⟨next, first, rest⟩ := Option.bind_eq_some_iff.mp run
    have later := ih rest
    obtain ⟨result, isResult, moved⟩ := Option.bind_eq_some_iff.mp first
    obtain ⟨s, taken, rfl⟩ := Option.map_eq_some_iff.mp moved
    by_cases here : key op.input = k
    · subst here
      rw [restrict_cons_self, exec, Operation.act, isResult, Option.bind_some, taken, Option.bind_some]
      rwa [Function.update_self] at later
    · rw [restrict_cons_of_ne here]
      rwa [Function.update_of_ne (Ne.symm here)] at later

/-- Executions of each object give one of all objects. -/
theorem exec_product_isSome
    (each : ∀ k, (exec (Operation.act step) (state k) (restrict key k order)).isSome = true) :
    (exec (Operation.act (product key step)) state order).isSome = true := by
  induction order generalizing state with
  | nil => rfl
  | cons op order ih =>
    have here := each (key op.input)
    rw [restrict_cons_self] at here
    obtain ⟨last, run⟩ := Option.isSome_iff_exists.mp here
    obtain ⟨s, first, rest⟩ := Option.bind_eq_some_iff.mp run
    obtain ⟨result, isResult, taken⟩ := Option.bind_eq_some_iff.mp first
    have moved : Operation.act (product key step) state op =
        some (Function.update state (key op.input) s) := by
      rw [Operation.act, isResult, Option.bind_some, product, taken, Option.map_some]
    rw [exec, moved, Option.bind_some]
    refine ih fun k => ?_
    by_cases same : key op.input = k
    · subst same
      rw [Function.update_self, rest]
      rfl
    · have other := each k
      rw [restrict_cons_of_ne same] at other
      rwa [Function.update_of_ne (Ne.symm same)]

/-- Every call returns after it was made. -/
def Operation.Lasts (op : Operation I O) : Prop :=
  ∀ output time, op.result = some (output, time) → op.call ≤ time

theorem Operation.Lasts.not_precedes {op : Operation I O} (lasts : op.Lasts) : ¬ op.Precedes op := by
  rintro ⟨output, time, result, before⟩
  have after := lasts output time result
  omega

theorem Operation.Precedes.mono {first second third : Operation I O} (precedes : first.Precedes second)
    (later : second.call ≤ third.call) : first.Precedes third := by
  obtain ⟨output, time, result, before⟩ := precedes
  exact ⟨output, time, result, Nat.lt_of_lt_of_le before later⟩

omit [DecidableEq K] in
/-- Among the first calls of the objects, one was made first. -/
theorem exists_first {queue : K → List (Operation I O)} (own : ∀ {k op}, op ∈ queue k → key op.input = k)
    (nonempty : queue k ≠ []) : ∃ first rest, queue (key first.input) = first :: rest ∧
      ∀ other rest', queue (key other.input) = other :: rest' → first.call ≤ other.call := by
  let heads : Set (Operation I O) := { op | ∃ rest, queue (key op.input) = op :: rest }
  have some : heads.Nonempty := by
    cases is : queue k with
    | nil => exact absurd is nonempty
    | cons first rest =>
      have same : key first.input = k := own (is ▸ List.mem_cons_self)
      exact ⟨first, rest, same ▸ is⟩
  obtain ⟨first, ⟨rest, isHead⟩, least⟩ := (measure Operation.call).wf.has_min heads some
  exact ⟨first, rest, isHead, fun other rest' is => Nat.not_lt.mp (least other ⟨rest', is⟩)⟩

/-- Orders of the calls of each object can be merged. The next call is the earliest among the
first ones of the objects: nothing that is left returned before it was made, for that would
also have returned before the first call of its own object. -/
theorem exists_merge (queue : K → List (Operation I O)) (pending : List (Operation I O))
    (perm : ∀ k, (queue k).Perm (restrict key k pending))
    (inTime : ∀ k, (queue k).Pairwise fun earlier later => ¬ later.Precedes earlier)
    (lasts : ∀ op ∈ pending, op.Lasts) : ∃ order, order.Perm pending ∧ (∀ k, restrict key k order = queue k) ∧
      order.Pairwise fun earlier later => ¬ later.Precedes earlier := by
  have mem {k : K} {op : Operation I O} : op ∈ queue k ↔ op ∈ pending ∧ key op.input = k := by
    rw [(perm k).mem_iff, restrict, List.mem_filter, decide_eq_true_iff]
  induction length : pending.length generalizing pending queue with
  | zero =>
    obtain rfl := List.length_eq_zero_iff.mp length
    refine ⟨[], .nil, fun k => ?_, .nil⟩
    exact (List.perm_nil.mp (perm k)).symm
  | succ n ih =>
    obtain ⟨some, inside⟩ := List.exists_mem_of_length_pos (by omega : 0 < pending.length)
    obtain ⟨first, rest, isHead, least⟩ := exists_first (fun inside => (mem.mp inside).2)
      (List.ne_nil_of_mem (mem.mpr ⟨inside, rfl⟩))
    have firstPending : first ∈ pending := (mem.mp (isHead ▸ List.mem_cons_self)).1
    obtain ⟨before, after, rfl⟩ := List.append_of_mem firstPending
    have middle : (before ++ first :: after).Perm (first :: (before ++ after)) := List.perm_middle
    have left : ∀ k, (Function.update queue (key first.input) rest k).Perm (restrict key k (before ++ after)) := by
      intro k
      have whole := (perm k).trans (middle.filter _)
      by_cases same : key first.input = k
      · subst same
        rw [Function.update_self]
        rw [isHead, ← restrict, restrict_cons_self] at whole
        exact whole.cons_inv
      · rw [Function.update_of_ne (Ne.symm same)]
        rwa [← restrict, restrict_cons_of_ne same] at whole
    have fewer : (before ++ after).length = n := by
      simp only [List.length_append, List.length_cons] at length ⊢
      omega
    have tail : ∀ k, (Function.update queue (key first.input) rest k).Pairwise
        fun earlier later => ¬ later.Precedes earlier := by
      intro k
      by_cases same : k = key first.input
      · subst same
        rw [Function.update_self]
        have ordered := inTime (key first.input)
        rw [isHead] at ordered
        exact (List.pairwise_cons.mp ordered).2
      · rw [Function.update_of_ne same]
        exact inTime k
    obtain ⟨order, orderPerm, restricts, ordered⟩ := ih _ _ left tail
      (fun op member => lasts op (middle.mem_iff.mpr (List.mem_cons_of_mem _ member)))
      (fun {k op} => by rw [(left k).mem_iff, restrict, List.mem_filter, decide_eq_true_iff]) fewer
    refine ⟨first :: order, (orderPerm.cons first).trans middle.symm, fun k => ?_,
      List.pairwise_cons.mpr ⟨?_, ordered⟩⟩
    · by_cases same : key first.input = k
      · subst same
        rw [restrict_cons_self, restricts, Function.update_self, isHead]
      · rw [restrict_cons_of_ne same, restricts, Function.update_of_ne (Ne.symm same)]
    · intro later member precedes
      have queued : later ∈ queue (key later.input) := mem.mpr
        ⟨middle.mem_iff.mpr (List.mem_cons_of_mem _ (orderPerm.mem_iff.mp member)), rfl⟩
      cases is : queue (key later.input) with
      | nil =>
        rw [is] at queued
        cases queued
      | cons head others =>
        have own : key head.input = key later.input := (mem.mp (is ▸ List.mem_cons_self)).2
        have precedesHead := precedes.mono (least head others (own ▸ is))
        rw [is] at queued
        rcases List.mem_cons.mp queued with rfl | behind
        · have headPending := middle.mem_iff.mpr (List.mem_cons_of_mem _ (orderPerm.mem_iff.mp member))
          exact (lasts later headPending).not_precedes precedesHead
        · have keeps := inTime (key later.input)
          rw [is] at keeps
          exact (List.pairwise_cons.mp keeps).1 later behind precedesHead

/-- Linearizability is a local property: a history of many objects is linearizable if the
history of each object is. -/
theorem isLinearizable_product_iff {start : S} (returned : ∀ op ∈ history, op.result.isSome = true)
    (lasts : ∀ op ∈ history, op.Lasts) :
    IsLinearizable (product key step) (fun _ => start) history ↔
      ∀ k, IsLinearizable step start (restrict key k history) := by
  have part (k : K) : IsLinearizable step start (restrict key k history) ↔
      ∃ order, Sequential step start (restrict key k history) order :=
    isLinearizable_iff_sequential fun op inside => returned op (List.mem_of_mem_filter inside)
  rw [isLinearizable_iff_sequential returned]
  simp only [part]
  constructor
  · rintro ⟨order, given⟩ k
    refine ⟨restrict key k order, given.perm.filter _, given.inTime.filter _, ?_⟩
    obtain ⟨state, run⟩ := Option.isSome_iff_exists.mp given.legal
    rw [exec_product run]
    rfl
  · intro each
    choose queue given using each
    obtain ⟨order, perm, restricts, inTime⟩ := exists_merge queue history (fun k => (given k).perm)
      (fun k => (given k).inTime) lasts
    refine ⟨order, perm, inTime, exec_product_isSome fun k => ?_⟩
    rw [restricts]
    exact (given k).legal

end

end DistSys.Linearizable
