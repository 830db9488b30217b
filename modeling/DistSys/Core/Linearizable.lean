import DistSys.Core.Exec
import Mathlib.Data.List.Nodup
import Mathlib.Data.List.Range

namespace DistSys.Linearizable

/-- A call of a shared object: when it was made, and what it returned when. A
call without a result is still pending. -/
structure Operation (I O : Type*) where
  input : I
  call : Nat
  result : Option (O × Nat)

/-- The first call returned before the second was made. -/
def Operation.Precedes {I O : Type*} (first second : Operation I O) : Prop :=
  ∃ output time, first.result = some (output, time) ∧ time < second.call

/-- The inputs and outputs of some calls in an order. Calls are named by their
position in the history. -/
def inputs {I O : Type*} (history : List (Operation I O)) (order : List (Nat × O)) : List (I × O) :=
  order.filterMap fun point => (history[point.1]?).map fun op => (op.input, point.2)

/-- An order of all calls that have returned, and of some pending ones with
outputs they might return, in which the sequential object can execute them,
and which keeps to the order in time. -/
structure Linearization {S I O : Type*} (step : S → I → O → Option S) (start : S)
    (history : List (Operation I O)) (order : List (Nat × O)) : Prop where
  nodup : (order.map Prod.fst).Nodup
  outputs : ∀ {i o}, (i, o) ∈ order → ∃ op, history[i]? = some op ∧
    ∀ output time, op.result = some (output, time) → output = o
  complete : ∀ {i : Nat} {op : Operation I O}, history[i]? = some op → op.result.isSome = true →
    i ∈ order.map Prod.fst
  inTime : order.Pairwise fun earlier later => ∀ first second,
    history[earlier.1]? = some first → history[later.1]? = some second → ¬ second.Precedes first
  legal : (exec (fun s io => step s io.1 io.2) start (inputs history order)).isSome = true

/-- A history is linearizable with respect to a sequential object. -/
def IsLinearizable {S I O : Type*} (step : S → I → O → Option S) (start : S)
    (history : List (Operation I O)) : Prop :=
  ∃ order, Linearization step start history order

section
variable {S I O : Type*} {step : S → I → O → Option S} {history : List (Operation I O)}
variable {points : Nat → Option (Nat × O)} {state : Nat → S} {n : Nat}

/-- Linearization points along a common log: `points k` is the call that takes
effect at position `k`, with its output, and `state k` is the object before it. -/
structure Points (step : S → I → O → Option S) (history : List (Operation I O)) (n : Nat)
    (points : Nat → Option (Nat × O)) (state : Nat → S) : Prop where
  once : ∀ {k k' i o o'}, points k = some (i, o) → points k' = some (i, o') → k = k'
  outputs : ∀ {k i o}, points k = some (i, o) → ∃ op, history[i]? = some op ∧
    ∀ output time, op.result = some (output, time) → output = o
  complete : ∀ {i : Nat} {op : Operation I O}, history[i]? = some op → op.result.isSome = true →
    ∃ k < n, ∃ o, points k = some (i, o)
  inTime : ∀ {k k' i j o o'} {first second : Operation I O}, k < k' → points k = some (i, o) →
    points k' = some (j, o') → history[i]? = some first → history[j]? = some second →
    ¬ second.Precedes first
  effect : ∀ {k i o} {op : Operation I O}, k < n → points k = some (i, o) → history[i]? = some op →
    step (state k) op.input o = some (state (k + 1))
  quiet : ∀ {k}, k < n → points k = none → state (k + 1) = state k

theorem Points.exec_inputs (given : Points step history n points state) {m : Nat} (within : m ≤ n) :
    exec (fun s io => step s io.1 io.2) (state 0)
      (inputs history ((List.range m).filterMap points)) = some (state m) := by
  induction m with
  | zero => rfl
  | succ m ih =>
    have before := ih (by omega)
    rw [List.range_succ, List.filterMap_append]
    cases here : points m with
    | none =>
      simp only [List.filterMap_cons, here, List.filterMap_nil, List.append_nil]
      rw [given.quiet (by omega) here]
      exact before
    | some point =>
      obtain ⟨i, o⟩ := point
      obtain ⟨op, found, _⟩ := given.outputs here
      simp only [List.filterMap_cons, here, List.filterMap_nil, inputs, List.filterMap_append, found,
        Option.map_some]
      exact exec_concat before (given.effect (by omega) here found)

/-- Points along a log give a linearization, in the order of the log. -/
theorem Points.linearization (given : Points step history n points state) :
    Linearization step (state 0) history ((List.range n).filterMap points) := by
  have member {i o} : (i, o) ∈ (List.range n).filterMap points ↔ ∃ k < n, points k = some (i, o) := by
    simp only [List.mem_filterMap, List.mem_range]
  refine ⟨?_, ?_, ?_, ?_, ?_⟩
  · rw [List.map_filterMap]
    refine List.Nodup.filterMap ?_ List.nodup_range
    intro k k' i first second
    obtain ⟨⟨_, o⟩, here, rfl⟩ := Option.map_eq_some_iff.mp first
    obtain ⟨⟨_, o'⟩, there, same⟩ := Option.map_eq_some_iff.mp second
    simp only at same
    subst same
    exact given.once here there
  · intro i o inside
    obtain ⟨k, _, here⟩ := member.mp inside
    exact given.outputs here
  · intro i op found returned
    obtain ⟨k, within, o, here⟩ := given.complete found returned
    exact List.mem_map.mpr ⟨(i, o), member.mpr ⟨k, within, here⟩, rfl⟩
  · rw [List.pairwise_filterMap]
    refine List.pairwise_lt_range.imp ?_
    rintro k k' less ⟨i, o⟩ here ⟨j, o'⟩ there first second found found'
    exact given.inTime less here there found found'
  · rw [given.exec_inputs (Nat.le_refl n)]
    rfl

theorem Points.isLinearizable (given : Points step history n points state) :
    IsLinearizable step (state 0) history :=
  ⟨_, given.linearization⟩

end

end DistSys.Linearizable
