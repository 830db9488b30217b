import DistSys.KvRaft.Linearized
import DistSys.Porcupine.KvModel

namespace DistSys.KvRaft

open Models (KvInput KvOutput)
open Porcupine (Timed SortsByTime Parallel Happens checkOperations)

/-- What `Get`, `Put` and `Append` of the tests log of a call that has returned. They read the
clock before they make the call and after it has returned; `stamp` is what the clock
shows at each step of the run. -/
structure Logged (stamp : Nat → Int) (call : Call) (logged : Porcupine.Operation KvInput KvOutput) : Prop where
  input : logged.input = call.op.input
  returned : ∃ result, call.result = some result ∧ logged.output = ⟨result.value⟩ ∧ stamp result.time ≤ logged.ret
  called : logged.call ≤ stamp call.time

/-- A call, and how it was logged. -/
inductive Noted (stamp : Nat → Int) (base : Int) :
    Linearizable.Operation KvInput KvOutput → Linearizable.Operation KvInput KvOutput → Prop
  | mk {call : Call} {logged : Porcupine.Operation KvInput KvOutput} : Logged stamp call logged →
      Noted stamp base call.operation (logged.since base)

section
variable {stamp : Nat → Int} {base : Int} {a a' b b' : Linearizable.Operation KvInput KvOutput}

/-- The log does not show an order of calls that there was not. -/
theorem Noted.precedes (mono : ∀ step later, step ≤ later → stamp step ≤ stamp later)
    (first : Noted stamp base a a') (second : Noted stamp base b b') (precedes : a'.Precedes b') : a.Precedes b := by
  cases first with
  | @mk call logged isLogged =>
    cases second with
    | @mk other logged' isLogged' =>
      obtain ⟨result, isResult, _, returned⟩ := isLogged.returned
      have called := isLogged'.called
      obtain ⟨output, time, is, before⟩ := precedes
      cases is
      simp only [Porcupine.Operation.since] at before
      refine ⟨⟨result.value⟩, result.time, by rw [Call.operation, isResult, Option.map_some], ?_⟩
      show result.time < other.time
      by_contra late
      have stamps := mono _ _ (Nat.not_lt.mp late)
      omega

theorem Noted.act (noted : Noted stamp base a a') (state : GoString → GoString) :
    a'.act Models.mapStep state = a.act Models.mapStep state := by
  cases noted with
  | @mk call logged isLogged =>
    obtain ⟨result, isResult, output, _⟩ := isLogged.returned
    simp only [Linearizable.Operation.act, Porcupine.Operation.since, Call.operation, isResult, isLogged.input,
      output, Option.map_some, Option.bind_some]

end

namespace System

variable {sys : System} {stamp : Nat → Int} {calls : List Call}
variable {operations : List (Porcupine.Operation KvInput KvOutput)} {base : Int}

/-- What the clerks log is linearizable, once all calls have returned. -/
theorem Regular.log_linearizable (regular : Regular sys)
    (mono : ∀ step later, step ≤ later → stamp step ≤ stamp later) (perm : calls.Perm sys.calls)
    (logged : List.Forall₂ (Logged stamp) calls operations) :
    Linearizable.IsLinearizable Models.mapStep Models.mapInit (operations.map (Porcupine.Operation.since base)) := by
  have noted : List.Forall₂ (Noted stamp base) (calls.map Call.operation)
      (operations.map (Porcupine.Operation.since base)) := by
    rw [List.forall₂_map_left_iff, List.forall₂_map_right_iff]
    exact logged.imp fun call operation is => .mk is
  have returned : ∀ op ∈ sys.history, op.result.isSome = true := by
    intro op inside
    obtain ⟨call, member, rfl⟩ := List.mem_map.mp inside
    obtain ⟨operation, _, is⟩ := Linearizable.exists_of_forall₂ logged.flip (perm.mem_iff.mpr member)
    obtain ⟨result, isResult, _⟩ := is.returned
    rw [Call.operation, isResult]
    rfl
  have again : ∀ op ∈ operations.map (Porcupine.Operation.since base), op.result.isSome = true := by
    intro op inside
    obtain ⟨operation, _, rfl⟩ := List.mem_map.mp inside
    rfl
  obtain ⟨order, given⟩ := (Linearizable.isLinearizable_iff_sequential returned).mp regular.points.isLinearizable
  have shuffled : Linearizable.Sequential Models.mapStep Models.mapInit (calls.map Call.operation) order :=
    { given with perm := given.perm.trans (perm.map _).symm }
  rw [Linearizable.isLinearizable_iff_sequential again]
  exact shuffled.transfer noted (Noted.precedes mono) Noted.act

/-- The test of linearizability never rejects the service: when all calls of a run have
returned and were logged, in any order, `CheckOperations` does not return `Illegal`. -/
theorem kvserver_passes_check {as : List Action} (run : after as = some sys)
    (mono : ∀ step later, step ≤ later → stamp step ≤ stamp later)
    (perm : calls.Perm sys.calls) (logged : List.Forall₂ (Logged stamp) calls operations)
    (timed : Timed base operations) {sort} (sorts : SortsByTime sort) {verbose : Bool} {timeout : Int}
    {events : List Happens} {p : Parallel GoString KvInput KvOutput}
    (check : checkOperations sort Models.kvModel operations verbose timeout events = some p)
    (done : p.phase = .done) : p.result ≠ .illegal := by
  intro illegal
  refine Models.not_isLinearizable_of_illegal sorts timed check done illegal ?_
  exact (regular_after run).log_linearizable mono perm logged

theorem appendRetried_calls : (final appendRetried appendRetried_runs).calls =
    [⟨⟨.append, [107], [97], 1, 1⟩, 0, 0, some ⟨[], 1, 2⟩⟩, ⟨⟨.get, [107], [], 2, 1⟩, 2, 2, some ⟨[97], 3, 3⟩⟩] := by
  rfl

/-- The log of the two clerks, on a clock that shows ten times the number of the step. -/
def appendRetriedLog : List (Porcupine.Operation KvInput KvOutput) :=
  [⟨1, ⟨2, [107], [97]⟩, -1, ⟨[]⟩, 11⟩, ⟨2, ⟨0, [107], []⟩, 19, ⟨[97]⟩, 31⟩]

theorem appendRetriedLog_logged : List.Forall₂ (Logged fun step => 10 * (step : Int))
    (final appendRetried appendRetried_runs).calls appendRetriedLog := by
  rw [appendRetried_calls]
  refine .cons ⟨rfl, ⟨_, rfl, rfl, ?_⟩, ?_⟩ (.cons ⟨rfl, ⟨_, rfl, rfl, ?_⟩, ?_⟩ .nil) <;> decide

theorem appendRetriedLog_checked : (checkOperations Porcupine.sortByTime Models.kvModel appendRetriedLog true 1
    (List.replicate 4 (.worker 0) ++ [.receive])).map (fun p => p.phase) = some .done := by
  decide +kernel

theorem kvserver_passes_check_appendRetried :
    ∃ p, checkOperations Porcupine.sortByTime Models.kvModel appendRetriedLog
    true 1 (List.replicate 4 (.worker 0) ++ [.receive]) = some p ∧ p.result ≠ .illegal := by
  obtain ⟨p, check, done⟩ := Option.map_eq_some_iff.mp appendRetriedLog_checked
  have mono : ∀ step later : Nat, step ≤ later → 10 * (step : Int) ≤ 10 * (later : Int) := by
    intro step later le
    omega
  have timed : Timed (-1) appendRetriedLog := by
    refine ⟨?_, ?_, ?_⟩ <;> simp [appendRetriedLog]
  exact ⟨p, check, kvserver_passes_check (after_final appendRetried appendRetried_runs) mono (.refl _)
    appendRetriedLog_logged timed Porcupine.sortByTime_sorts check done⟩

end System

end DistSys.KvRaft
