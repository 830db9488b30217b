import DistSys.Core.Ledger
import DistSys.Core.Linearizable
import Mathlib.Data.Nat.Find

namespace DistSys.Ledger

variable {Op V S I : Type*}

/-- What a clerk sees of a call. -/
def Call.operation (input : Op → I) (call : Call Op V) : Linearizable.Operation I V where
  input := input call.op
  call := call.time
  result := call.result.map fun result => (result.value, result.time)

/-- The history that the clerks see. -/
def history (input : Op → I) (l : Ledger Op V) : List (Linearizable.Operation I V) :=
  l.calls.map (Call.operation input)

/-- A table of the highest number of each client lets an operation through. -/
def Fresh (client number : Op → Int) (table : Int → Option Int) (op : Op) : Prop :=
  ∀ last, table (client op) = some last → last < number op

/-- A replicated object executes the first `n` entries of a log one after the
other: `state k` and `table k` are what it has before entry `k`. A write takes
effect only if the table lets it through; then the table is raised. -/
structure Executes (client number : Op → Int) (right : List Op → Op → V → Prop) (writes : Op → Prop)
    (input : Op → I) (step : S → I → V → Option S) (log : List Op) (n : Nat) (state : Nat → S)
    (table : Nat → Int → Option Int) : Prop where
  first : ∀ c, table 0 c = none
  reached : ∀ {k : Nat} {op : Op} {v : V}, log[k]? = some op → right (log.take k) op v → k < n
  entry : ∀ {k : Nat}, k < n → ∃ op, log[k]? = some op
  answer : ∀ {k : Nat} {op : Op}, k < n → log[k]? = some op → ∃ v, right (log.take k) op v
  anywhere : ∀ {k k' : Nat} {op : Op} {v : V}, writes op → k' < n → log[k']? = some op →
    right (log.take k) op v → right (log.take k') op v
  read : ∀ {k : Nat} {op : Op}, k < n → log[k]? = some op → ¬ writes op →
    state (k + 1) = state k ∧ table (k + 1) = table k ∧
      ∀ v, right (log.take k) op v → step (state k) (input op) v = some (state k)
  write : ∀ {k : Nat} {op : Op}, k < n → log[k]? = some op → writes op →
    Fresh client number (table k) op →
    table (k + 1) = Function.update (table k) (client op) (some (number op)) ∧
      ∀ v, right (log.take k) op v → step (state k) (input op) v = some (state (k + 1))
  skip : ∀ {k : Nat} {op : Op}, k < n → log[k]? = some op → writes op →
    ¬ Fresh client number (table k) op → state (k + 1) = state k ∧ table (k + 1) = table k

section
variable {client number : Op → Int} {right : List Op → Op → V → Prop} {writes : Op → Prop}
variable {input : Op → I} {step : S → I → V → Option S} {log : List Op} {n : Nat} {state : Nat → S}
variable {table : Nat → Int → Option Int} {k : Nat} {op : Op}

/-- The table changes only when a write is let through. -/
theorem Executes.table_cases
    (runs : Executes client number right writes input step log n state table) (within : k < n) :
    table (k + 1) = table k ∨ ∃ op, log[k]? = some op ∧ writes op ∧
      Fresh client number (table k) op ∧
      table (k + 1) = Function.update (table k) (client op) (some (number op)) := by
  obtain ⟨op, here⟩ := runs.entry within
  by_cases is : writes op
  · by_cases fresh : Fresh client number (table k) op
    · exact Or.inr ⟨op, here, is, fresh, (runs.write within here is fresh).1⟩
    · exact Or.inl (runs.skip within here is fresh).2
  · exact Or.inl (runs.read within here is).2.1

/-- The table names writes that were executed before. -/
theorem Executes.mem_of_table {c last : Int}
    (runs : Executes client number right writes input step log n state table) (within : k ≤ n)
    (is : table k c = some last) :
    ∃ p < k, ∃ op, log[p]? = some op ∧ client op = c ∧ number op = last := by
  induction k with
  | zero =>
    rw [runs.first] at is
    cases is
  | succ k ih =>
    have earlier (before : table k c = some last) :
        ∃ p < k + 1, ∃ op, log[p]? = some op ∧ client op = c ∧ number op = last := by
      obtain ⟨p, less, found⟩ := ih (by omega) before
      exact ⟨p, by omega, found⟩
    rcases runs.table_cases (k := k) (by omega) with same | ⟨op, here, _, _, raised⟩
    · exact earlier (by rwa [← same])
    · by_cases mine : c = client op
      · subst mine
        rw [raised, Function.update_self] at is
        exact ⟨k, by omega, op, here, rfl, Option.some.inj is⟩
      · rw [raised, Function.update_of_ne mine] at is
        exact earlier is

/-- The table never falls. -/
theorem Executes.table_mono {c last : Int}
    (runs : Executes client number right writes input step log n state table) (within : k < n)
    (is : table k c = some last) : ∃ last', table (k + 1) c = some last' ∧ last ≤ last' := by
  rcases runs.table_cases within with same | ⟨op, _, _, fresh, raised⟩
  · exact ⟨last, by rw [same, is], Int.le_refl _⟩
  · by_cases mine : c = client op
    · subst mine
      exact ⟨number op, by rw [raised, Function.update_self], Int.le_of_lt (fresh last is)⟩
    · exact ⟨last, by rw [raised, Function.update_of_ne mine, is], Int.le_refl _⟩

/-- The table has got past every write that was executed. -/
theorem Executes.le_table {p : Nat}
    (runs : Executes client number right writes input step log n state table) (within : k ≤ n)
    (before : p < k) (here : log[p]? = some op) (is : writes op) :
    ∃ last, table k (client op) = some last ∧ number op ≤ last := by
  induction k with
  | zero => omega
  | succ k ih =>
    rcases Nat.lt_or_ge p k with less | notLess
    · obtain ⟨last, found, le⟩ := ih (by omega) less
      obtain ⟨last', found', le'⟩ := runs.table_mono (by omega) found
      exact ⟨last', found', Int.le_trans le le'⟩
    · have same : p = k := by omega
      subst same
      by_cases fresh : Fresh client number (table p) op
      · refine ⟨number op, ?_, Int.le_refl _⟩
        rw [(runs.write (by omega) here is fresh).1, Function.update_self]
      · rw [(runs.skip (by omega) here is fresh).2]
        obtain ⟨last, blocked⟩ := not_forall.mp fresh
        obtain ⟨found, notLess⟩ := Classical.not_imp.mp blocked
        exact ⟨last, found, Int.not_lt.mp notLess⟩

end

section
variable (right : List Op → Op → V → Prop) (n : Nat) (l : Ledger Op V)

/-- A call may take effect at a place of the log: its operation is there, and
what it returned, if it has, is right there. -/
def Fits (call : Call Op V) (k : Nat) : Prop :=
  k < n ∧ l.log[k]? = some call.op ∧
    ∀ result, call.result = some result → right (l.log.take k) call.op result.value

/-- It takes effect at the first such place. -/
def Takes (i k : Nat) (call : Call Op V) : Prop :=
  l.calls[i]? = some call ∧ Fits right n l call k ∧ ∀ earlier < k, ¬ Fits right n l call earlier

/-- A value that a call returned, or might return at a place of the log. -/
def Outputs (k : Nat) (call : Call Op V) (v : V) : Prop :=
  right (l.log.take k) call.op v ∧ ∀ result, call.result = some result → result.value = v

open Classical in
noncomputable def point (k : Nat) : Option (Nat × V) :=
  if taken : ∃ taker : Nat × V, ∃ call, Takes right n l taker.1 k call ∧ Outputs right l k call taker.2
  then some taken.choose else none

end

section
variable {client number : Op → Int} {right : List Op → Op → V → Prop} {writes : Op → Prop}
variable {input : Op → I} {step : S → I → V → Option S} {n : Nat} {state : Nat → S}
variable {table : Nat → Int → Option Int} {l : Ledger Op V} {i j k p : Nat} {call : Call Op V} {v : V}

theorem point_some (is : point right n l k = some (i, v)) :
    ∃ call, Takes right n l i k call ∧ Outputs right l k call v := by
  unfold point at is
  split at is
  next taken =>
    have spec := taken.choose_spec
    rwa [Option.some.inj is] at spec
  next => cases is

theorem Fits.takes (found : l.calls[i]? = some call) (fits : Fits right n l call p) :
    ∃ k ≤ p, Takes right n l i k call := by
  classical
  exact ⟨Nat.find ⟨p, fits⟩, Nat.find_min' _ fits, found, Nat.find_spec _, fun _ => Nat.find_min _⟩

/-- Only one call takes effect at a place. -/
theorem Takes.eq {other : Call Op V} (serial : Serial client number l) (takes : Takes right n l i k call)
    (others : Takes right n l j k other) : i = j ∧ call = other := by
  have same : call.op = other.op := Option.some.inj (takes.2.1.2.1.symm.trans others.2.1.2.1)
  exact serial.eq_of_op takes.1 others.1 (by rw [same]) (by rw [same])

variable (regular : Regular client number right l)
variable (runs : Executes client number right writes input step l.log n state table)

include runs in
theorem Takes.outputs (takes : Takes right n l i k call) : ∃ v, Outputs right l k call v := by
  cases is : call.result with
  | some result =>
    refine ⟨result.value, takes.2.1.2.2 result is, fun given same => ?_⟩
    cases is.symm.trans same
    rfl
  | none =>
    obtain ⟨v, answer⟩ := runs.answer takes.2.1.1 takes.2.1.2.1
    exact ⟨v, answer, fun given same => by cases is.symm.trans same⟩

include regular runs in
theorem Takes.point (takes : Takes right n l i k call) : ∃ v, point right n l k = some (i, v) := by
  obtain ⟨v, outputs⟩ := takes.outputs runs
  have taken : ∃ taker : Nat × V, ∃ call, Takes right n l taker.1 k call ∧
      Outputs right l k call taker.2 := ⟨(i, v), call, takes, outputs⟩
  obtain ⟨other, others, _⟩ := taken.choose_spec
  refine ⟨taken.choose.2, ?_⟩
  unfold Ledger.point
  rw [dif_pos taken, (takes.eq regular.serial others).1]

include runs in
/-- A call that has returned fits somewhere before its return. -/
theorem Dated.fits {result : Result V} (dated : Dated right l call) (is : call.result = some result) :
    ∃ p < result.length, Fits right n l call p := by
  obtain ⟨_, _, p, here, value⟩ := dated.result result is
  have within := (List.getElem?_eq_some_iff.mp here).1
  rw [List.length_take] at within
  have less : p < result.length := by omega
  rw [List.getElem?_take_of_lt less] at here
  rw [List.take_take, Nat.min_eq_left less.le] at value
  refine ⟨p, less, runs.reached here value, here, fun given same => ?_⟩
  cases is.symm.trans same
  exact value

include regular in
/-- The place where a call takes effect is not before the call. -/
theorem Takes.length_le (takes : Takes right n l i k call) : call.length ≤ k := by
  obtain ⟨asker, member, op, le⟩ := regular.timely.asked takes.2.1.2.1
  obtain ⟨j, there⟩ := List.mem_iff_getElem?.mp member
  obtain ⟨_, same⟩ := regular.serial.eq_of_op there takes.1 (by rw [op]) (by rw [op])
  rwa [same] at le

include regular runs in
/-- It is not after the return. -/
theorem Takes.lt_length {result : Result V} (takes : Takes right n l i k call)
    (is : call.result = some result) : k < result.length := by
  obtain ⟨p, before, fits⟩ := (regular.timely.dated call (List.mem_of_getElem? takes.1)).fits runs is
  have first : k ≤ p := Nat.not_lt.mp fun less => takes.2.2 p less fits
  omega

include runs in
theorem Fits.of_write (fits : Fits right n l call p) (is : writes call.op) (within : k < n)
    (here : l.log[k]? = some call.op) : Fits right n l call k :=
  ⟨within, here, fun result returned => runs.anywhere is within here (fits.2.2 result returned)⟩

include regular runs in
/-- The table lets a write through where it takes effect. A later write of the
same clerk was asked for only after this one had returned, so it is not in the
log before. -/
theorem Takes.fresh (takes : Takes right n l i k call) (is : writes call.op) :
    Fresh client number (table k) call.op := by
  intro last found
  obtain ⟨p, before, op, here, sameClient, rfl⟩ := runs.mem_of_table takes.2.1.1.le found
  obtain ⟨asker, member, rfl, le⟩ := regular.timely.asked here
  obtain ⟨j, there⟩ := List.mem_iff_getElem?.mp member
  have different : number call.op ≠ number asker.op := by
    intro same
    obtain ⟨_, equal⟩ := regular.serial.eq_of_op takes.1 there sameClient.symm same
    rw [← equal] at here
    exact takes.2.2 p before (takes.2.1.of_write runs is (before.trans takes.2.1.1) here)
  have notLater : ¬ number call.op < number asker.op := by
    intro less
    obtain ⟨result, returned, bound⟩ :=
      regular.serial.ordered call (List.mem_of_getElem? takes.1) asker member sameClient.symm less
    have taken := takes.lt_length regular runs returned
    omega
  omega

include regular runs in
/-- Where no call takes effect, the state does not change: a read is there, or a
write that was executed before. -/
theorem state_of_point_none (within : k < n) (quiet : point right n l k = none) :
    state (k + 1) = state k := by
  obtain ⟨op, here⟩ := runs.entry within
  by_cases is : writes op
  · refine (runs.skip within here is fun fresh => ?_).1
    obtain ⟨call, member, rfl, _⟩ := regular.timely.asked here
    obtain ⟨i, found⟩ := List.mem_iff_getElem?.mp member
    have fits : Fits right n l call k := by
      cases returned : call.result with
      | none => exact ⟨within, here, fun result same => by cases returned.symm.trans same⟩
      | some result =>
        obtain ⟨p, _, fits⟩ := (regular.timely.dated call member).fits runs returned
        exact fits.of_write runs is within here
    obtain ⟨first, le, takes⟩ := fits.takes found
    rcases Nat.lt_or_eq_of_le le with before | rfl
    · obtain ⟨last, found, bound⟩ := runs.le_table within.le before takes.2.1.2.1 is
      exact absurd (fresh last found) (Int.not_lt.mpr bound)
    · obtain ⟨v, some⟩ := takes.point regular runs
      rw [quiet] at some
      cases some
  · exact (runs.read within here is).1

theorem history_some {operation : Linearizable.Operation I V}
    (here : (history input l)[i]? = some operation) :
    ∃ call, l.calls[i]? = some call ∧ operation = call.operation input := by
  rw [history, List.getElem?_map] at here
  obtain ⟨call, found, is⟩ := Option.map_eq_some_iff.mp here
  exact ⟨call, found, is.symm⟩

include regular runs in
/-- The places where the calls take effect are linearization points. -/
theorem Regular.points : Linearizable.Points step (history input l) n (point right n l) state where
  once := by
    intro k k' i v v' here there
    obtain ⟨call, first, _⟩ := point_some here
    obtain ⟨other, second, _⟩ := point_some there
    cases first.1.symm.trans second.1
    have le : k ≤ k' := Nat.not_lt.mp fun less => first.2.2 k' less second.2.1
    have ge : k' ≤ k := Nat.not_lt.mp fun less => second.2.2 k less first.2.1
    exact Nat.le_antisymm le ge
  outputs := by
    intro k i v here
    obtain ⟨call, takes, outputs⟩ := point_some here
    refine ⟨call.operation input, by rw [history, List.getElem?_map, takes.1]; rfl, fun value time is => ?_⟩
    obtain ⟨result, returned, pair⟩ := Option.map_eq_some_iff.mp is
    cases pair
    exact outputs.2 result returned
  complete := by
    intro i operation here returned
    obtain ⟨call, found, rfl⟩ := history_some here
    obtain ⟨result, is⟩ : ∃ result, call.result = some result := by
      rwa [Call.operation, Option.isSome_map, Option.isSome_iff_exists] at returned
    obtain ⟨p, _, fits⟩ := (regular.timely.dated call (List.mem_of_getElem? found)).fits runs is
    obtain ⟨k, _, takes⟩ := fits.takes found
    obtain ⟨v, some⟩ := takes.point regular runs
    exact ⟨k, takes.2.1.1, v, some⟩
  inTime := by
    intro k k' i j v v' first second less here there found found' precedes
    obtain ⟨a, takes, _⟩ := point_some here
    obtain ⟨b, takes', _⟩ := point_some there
    obtain ⟨_, isFirst, rfl⟩ := history_some found
    obtain ⟨_, isSecond, rfl⟩ := history_some found'
    cases takes.1.symm.trans isFirst
    cases takes'.1.symm.trans isSecond
    obtain ⟨value, time, returned, before⟩ := precedes
    obtain ⟨result, is, pair⟩ := Option.map_eq_some_iff.mp returned
    cases pair
    have ordered := regular.timely.inTime b (List.mem_of_getElem? isSecond) a
      (List.mem_of_getElem? isFirst) result is before
    have lower := takes.length_le regular
    have upper := takes'.lt_length regular runs is
    omega
  effect := by
    intro k i v operation within here found
    obtain ⟨call, takes, outputs⟩ := point_some here
    obtain ⟨_, same, rfl⟩ := history_some found
    cases takes.1.symm.trans same
    by_cases is : writes call.op
    · exact (runs.write within takes.2.1.2.1 is (takes.fresh regular runs is)).2 v outputs.1
    · obtain ⟨unchanged, _, answer⟩ := runs.read within takes.2.1.2.1 is
      rw [unchanged]
      exact answer v outputs.1
  quiet within none := state_of_point_none regular runs within none

end

end DistSys.Ledger
