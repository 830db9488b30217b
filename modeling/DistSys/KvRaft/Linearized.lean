import DistSys.KvRaft.Calls
import Mathlib.Data.Nat.Find

namespace DistSys.KvRaft

open Models (KvInput KvOutput)

namespace KVState

variable {kv : KVState} {op : Op}

theorem read_write (kv : KVState) (op : Op) (value : GoString) :
    (kv.write op value).read = Function.update kv.read op.key value := by
  funext key
  by_cases same : key = op.key
  · subst same
    simp [read, write]
  · simp [read, write, same]

/-- An operation that is not held back does what the sequential map does. -/
theorem mapStep_applyOp {out : KvOutput}
    (fresh : op.opType ≠ .get → kv.shouldApply op.clientID op.requestID = true)
    (reads : op.opType = .get → out.value = kv.read op.key) :
    Models.mapStep kv.read op.input out = some (kv.applyOp op).1.read := by
  cases type : op.opType with
  | get =>
    have value := reads type
    rw [applyOp_get type]
    simp [Models.mapStep, Models.kvStep, Op.input, type, value]
  | put =>
    have applied := fresh (by simp [type])
    simp [Models.mapStep, Models.kvStep, Op.input, applyOp, type, applied, read_write]
  | append =>
    have applied := fresh (by simp [type])
    simp [Models.mapStep, Models.kvStep, Op.input, applyOp, type, applied, read_write]

end KVState

namespace System

variable {sys : System} {i j k p : Nat} {call other : Call}

/-- A call may take effect at a place of the log: its operation is there, and
what it returned, if it has, is right there. -/
def Fits (sys : System) (call : Call) (k : Nat) : Prop :=
  sys.log[k]? = some call.op ∧ (call.op.opType = .get → ∀ result, call.result = some result →
    result.value = (KVState.replay (sys.log.take k)).read call.op.key)

/-- It takes effect at the first such place. -/
def Takes (sys : System) (i k : Nat) (call : Call) : Prop :=
  sys.calls[i]? = some call ∧ sys.Fits call k ∧ ∀ earlier < k, ¬ sys.Fits call earlier

/-- What a call returned, or would return at a place of the log. -/
def output (sys : System) (k : Nat) (call : Call) : KvOutput where
  value := match call.result with
    | some result => result.value
    | none => (KVState.replay (sys.log.take k)).read call.op.key

open Classical in
noncomputable def point (sys : System) (k : Nat) : Option (Nat × KvOutput) :=
  if taken : ∃ taker : Nat × Call, sys.Takes taker.1 k taker.2 then
    some (taken.choose.1, sys.output k taken.choose.2)
  else none

theorem point_some {o : KvOutput} (is : sys.point k = some (i, o)) :
    ∃ call, sys.Takes i k call ∧ o = sys.output k call := by
  unfold point at is
  split at is
  next taken =>
    cases is
    exact ⟨taken.choose.2, taken.choose_spec, rfl⟩
  next => cases is

theorem not_takes (is : sys.point k = none) : ¬ sys.Takes i k call := by
  intro takes
  unfold point at is
  rw [dif_pos ⟨(i, call), takes⟩] at is
  cases is

theorem fits_of_write (writes : call.op.opType ≠ .get) (here : sys.log[k]? = some call.op) :
    sys.Fits call k :=
  ⟨here, fun reads => absurd reads writes⟩

theorem Fits.takes (found : sys.calls[i]? = some call) (fits : sys.Fits call p) :
    ∃ k ≤ p, sys.Takes i k call := by
  classical
  exact ⟨Nat.find ⟨p, fits⟩, Nat.find_min' _ fits, found, Nat.find_spec _, fun _ => Nat.find_min _⟩

/-- A call that has returned fits somewhere before its return. -/
theorem Dated.fits {result : Result} (dated : Dated sys.log sys.clock call)
    (is : call.result = some result) : ∃ p < result.length, sys.Fits call p := by
  obtain ⟨_, _, p, here, value⟩ := dated.result result is
  have within := (List.getElem?_eq_some_iff.mp here).1
  rw [List.length_take] at within
  have less : p < result.length := by omega
  rw [List.getElem?_take_of_lt less] at here
  refine ⟨p, less, here, fun reads given same => ?_⟩
  cases is.symm.trans same
  have taken := value reads
  rwa [List.take_take, Nat.min_eq_left less.le] at taken

/-- The operation identifies the call. -/
theorem Serial.eq_of_op (serial : Serial sys) (here : sys.calls[i]? = some call)
    (there : sys.calls[j]? = some other) (client : call.op.clientID = other.op.clientID)
    (number : call.op.requestID = other.op.requestID) : i = j ∧ call = other := by
  have same := serial.named here there client number
  subst same
  exact ⟨rfl, Option.some.inj (here.symm.trans there)⟩

theorem Takes.point (serial : Serial sys) (takes : sys.Takes i k call) :
    sys.point k = some (i, sys.output k call) := by
  have taken : ∃ taker : Nat × Call, sys.Takes taker.1 k taker.2 := ⟨(i, call), takes⟩
  have same : taken.choose.2.op = call.op :=
    Option.some.inj (taken.choose_spec.2.1.1.symm.trans takes.2.1.1)
  obtain ⟨index, is⟩ := serial.eq_of_op taken.choose_spec.1 takes.1 (by rw [same]) (by rw [same])
  unfold System.point
  rw [dif_pos taken, index, is]

/-- The place where a call takes effect is not before the call. -/
theorem Regular.length_le (regular : Regular sys) (takes : sys.Takes i k call) : call.length ≤ k := by
  obtain ⟨asker, member, op, le⟩ := regular.issued.log takes.2.1.1
  obtain ⟨j, there⟩ := List.mem_iff_getElem?.mp member
  obtain ⟨_, same⟩ := regular.serial.eq_of_op there takes.1 (by rw [op]) (by rw [op])
  rwa [same] at le

/-- It is not after the return. -/
theorem Regular.lt_length {result : Result} (regular : Regular sys) (takes : sys.Takes i k call)
    (is : call.result = some result) : k < result.length := by
  obtain ⟨p, before, fits⟩ := (regular.timely.dated call (List.mem_of_getElem? takes.1)).fits is
  have first : k ≤ p := Nat.not_lt.mp fun less => takes.2.2 p less fits
  omega

/-- The table of duplicates lets a write through where it takes effect. A later
write of the same clerk was called only after this one had returned, so it is
not in the log before. -/
theorem Regular.shouldApply (regular : Regular sys) (takes : sys.Takes i k call)
    (writes : call.op.opType ≠ .get) :
    (KVState.replay (sys.log.take k)).shouldApply call.op.clientID call.op.requestID = true := by
  unfold KVState.shouldApply
  split
  next last is =>
    obtain ⟨op, inside, _, client, rfl⟩ := KVState.mem_of_lastAppliedReq is
    obtain ⟨p, here⟩ := List.mem_iff_getElem?.mp inside
    have before := (List.getElem?_eq_some_iff.mp here).1
    rw [List.length_take] at before
    have earlier : p < k := by omega
    rw [List.getElem?_take_of_lt earlier] at here
    obtain ⟨asker, member, rfl, le⟩ := regular.issued.log here
    obtain ⟨j, there⟩ := List.mem_iff_getElem?.mp member
    have different : call.op.requestID ≠ asker.op.requestID := by
      intro number
      obtain ⟨_, same⟩ := regular.serial.eq_of_op takes.1 there client.symm number
      rw [← same] at here
      exact takes.2.2 p earlier (fits_of_write writes here)
    have notLater : ¬ call.op.requestID < asker.op.requestID := by
      intro less
      have mine := List.mem_of_getElem? takes.1
      obtain ⟨result, returned, bound⟩ := regular.serial.ordered call mine asker member client.symm less
      have taken := regular.lt_length takes returned
      omega
    exact decide_eq_true (by omega)
  next => rfl

/-- Where no call takes effect, the state does not change: a read is there, or a
write that has been applied. -/
theorem Regular.applyOp_eq {op : Op} (regular : Regular sys) (here : sys.log[k]? = some op)
    (quiet : sys.point k = none) :
    ((KVState.replay (sys.log.take k)).applyOp op).1 = KVState.replay (sys.log.take k) := by
  by_cases reads : op.opType = .get
  · rw [KVState.applyOp_get reads]
  · obtain ⟨call, member, rfl, _⟩ := regular.issued.log here
    obtain ⟨i, found⟩ := List.mem_iff_getElem?.mp member
    obtain ⟨first, le, takes⟩ := (fits_of_write reads here).takes found
    have before : first < k := by
      refine Nat.lt_of_le_of_ne le ?_
      rintro rfl
      exact not_takes quiet takes
    have inside : call.op ∈ sys.log.take k :=
      List.mem_of_getElem? ((List.getElem?_take_of_lt before).trans takes.2.1.1)
    obtain ⟨last, is, bound⟩ := KVState.le_lastAppliedReq inside reads
    apply KVState.applyOp_skip
    rw [KVState.shouldApply, is]
    exact decide_eq_false (by omega)

theorem history_some {operation : Linearizable.Operation KvInput KvOutput}
    (here : sys.history[i]? = some operation) :
    ∃ call, sys.calls[i]? = some call ∧ operation = call.operation := by
  rw [history, List.getElem?_map] at here
  obtain ⟨call, found, is⟩ := Option.map_eq_some_iff.mp here
  exact ⟨call, found, is.symm⟩

/-- The places where the calls take effect are linearization points. -/
theorem Regular.points (regular : Regular sys) :
    Linearizable.Points Models.mapStep sys.history sys.log.length sys.point
      fun k => (KVState.replay (sys.log.take k)).read where
  once := by
    intro k k' i o o' here there
    obtain ⟨call, first, _⟩ := point_some here
    obtain ⟨other, second, _⟩ := point_some there
    cases first.1.symm.trans second.1
    have le : k ≤ k' := Nat.not_lt.mp fun less => first.2.2 k' less second.2.1
    have ge : k' ≤ k := Nat.not_lt.mp fun less => second.2.2 k less first.2.1
    exact Nat.le_antisymm le ge
  outputs := by
    intro k i o here
    obtain ⟨call, takes, rfl⟩ := point_some here
    refine ⟨call.operation, by rw [history, List.getElem?_map, takes.1]; rfl, fun value time is => ?_⟩
    obtain ⟨result, returned, pair⟩ := Option.map_eq_some_iff.mp is
    cases pair
    simp only [output, returned]
  complete := by
    intro i operation here returned
    obtain ⟨call, found, rfl⟩ := history_some here
    obtain ⟨result, is⟩ : ∃ result, call.result = some result := by
      rwa [Call.operation, Option.isSome_map, Option.isSome_iff_exists] at returned
    have dated := regular.timely.dated call (List.mem_of_getElem? found)
    obtain ⟨p, before, fits⟩ := dated.fits is
    obtain ⟨k, le, takes⟩ := fits.takes found
    have bound := (dated.result result is).2.1
    exact ⟨k, by omega, sys.output k call, takes.point regular.serial⟩
  inTime := by
    intro k k' i j o o' first second less here there found found' precedes
    obtain ⟨a, takes, _⟩ := point_some here
    obtain ⟨b, takes', _⟩ := point_some there
    obtain ⟨_, isFirst, rfl⟩ := history_some found
    obtain ⟨_, isSecond, rfl⟩ := history_some found'
    cases takes.1.symm.trans isFirst
    cases takes'.1.symm.trans isSecond
    obtain ⟨value, time, returned, before⟩ := precedes
    obtain ⟨result, is, pair⟩ := Option.map_eq_some_iff.mp returned
    cases pair
    have ordered := regular.timely.inTime b (List.mem_of_getElem? isSecond) a
      (List.mem_of_getElem? isFirst) result is before
    have lower := regular.length_le takes
    have upper := regular.lt_length takes' is
    omega
  effect := by
    intro k i o operation within here found
    obtain ⟨call, takes, rfl⟩ := point_some here
    obtain ⟨_, same, rfl⟩ := history_some found
    cases takes.1.symm.trans same
    rw [KVState.replay_take_succ takes.2.1.1]
    refine KVState.mapStep_applyOp (regular.shouldApply takes) fun reads => ?_
    unfold output
    split
    next result is => exact takes.2.1.2 reads result is
    next => rfl
  quiet := by
    intro k within none
    have here : sys.log[k]? = some sys.log[k] := List.getElem?_eq_getElem within
    rw [KVState.replay_take_succ here, regular.applyOp_eq here none]

/-- The calls of the clerks of a KVServer service are linearizable with respect
to a sequential map, in every run: for any number of clerks, any retries,
lost, delayed and repeated messages, leader changes, snapshots and restarts. -/
theorem kvserver_linearizable {as : List Action} (run : after as = some sys) :
    Linearizable.IsLinearizable Models.mapStep Models.mapInit sys.history :=
  (regular_after run).points.isLinearizable

/-- A clerk sends an append to two servers, and both requests are committed. Another
clerk reads the key after the append has returned. -/
def appendRetried : List Action :=
  [.call 1 .append [107] [97], .handle 0 0, .start 0 0 (some (1, 1)), .handle 1 0,
    .start 1 0 (some (1, 2)), .commit 0, .commit 1, .register 1 0, .deliver 1, .notify 1, .take 1 0,
    .leave 1 0, .receive 1 0, .call 2 .get [107] [], .handle 1 1, .start 1 1 (some (3, 2)),
    .register 1 1, .commit 2, .deliver 1, .deliver 1, .notify 1, .take 1 1, .leave 1 1, .receive 2 1]

theorem appendRetried_runs : (after appendRetried).isSome = true := by decide

theorem kvserver_linearizable_appendRetried :
    (final appendRetried appendRetried_runs).calls.map (fun call => call.result.map Result.value) =
      [some [], some [97]] ∧
    Linearizable.IsLinearizable Models.mapStep Models.mapInit
      (final appendRetried appendRetried_runs).history :=
  ⟨by decide, kvserver_linearizable (after_final appendRetried appendRetried_runs)⟩

end System

end DistSys.KvRaft
