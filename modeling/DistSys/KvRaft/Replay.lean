import DistSys.KvRaft.Results

namespace DistSys.KvRaft

/-- What a snapshot encodes. -/
structure KVSnapshot where
  kv : GoString → Option GoString
  lastReqID : Int → Option Int

/-- The orders in which the loops over the two maps visit their keys. -/
structure Orders where
  keys : List GoString
  clients : List Int

structure Orders.Of (orders : Orders) (kv : GoString → Option GoString) (reqs : Int → Option Int) : Prop where
  keys : Enumerates orders.keys kv
  clients : Enumerates orders.clients reqs

namespace KVState

def encodeSnapshot (orders : Orders) (kv : KVState) : KVSnapshot where
  kv := copyMap orders.keys kv.kvStore
  lastReqID := copyMap orders.clients kv.lastAppliedReq

/-- An empty snapshot is not decoded. -/
def restoreSnapshot (orders : Orders) (kv : KVState) : Option KVSnapshot → KVState
  | none => kv
  | some snap => ⟨copyMap orders.keys snap.kv, copyMap orders.clients snap.lastReqID⟩

/-- The loop of the applier over commands. -/
def applyAll (kv : KVState) (ops : List Op) : KVState :=
  ops.foldl (fun kv op => (kv.applyOp op).1) kv

end KVState

/-! The plain machine, which knows nothing of clients and request ids -/

/-- A write of the plain machine. -/
def execute (store : GoString → Option GoString) (op : Op) : GoString → Option GoString :=
  match op.opType with
  | .get => store
  | .put => Function.update store op.key (some op.value)
  | .append => Function.update store op.key (some ((store op.key).getD [] ++ op.value))

/-- A write whose request id exceeds those of all earlier writes of its client. -/
def Exceeds (earlier : List Op) (op : Op) : Prop :=
  op.opType ≠ .get ∧ ∀ other ∈ earlier, other.opType ≠ .get → other.clientID = op.clientID →
    other.requestID < op.requestID

instance (earlier : List Op) (op : Op) : Decidable (Exceeds earlier op) :=
  inferInstanceAs (Decidable (_ ∧ _))

/-- The operations of a sequence that exceed the ones before them. -/
def exceedingAfter (earlier : List Op) : List Op → List Op
  | [] => []
  | op :: rest =>
    if Exceeds earlier op then op :: exceedingAfter (earlier ++ [op]) rest
    else exceedingAfter (earlier ++ [op]) rest

def exceeding (log : List Op) : List Op :=
  exceedingAfter [] log

def plain (ops : List Op) : GoString → Option GoString :=
  ops.foldl execute fun _ => none

theorem exceedingAfter_concat (earlier log : List Op) (op : Op) :
    exceedingAfter earlier (log ++ [op]) =
      exceedingAfter earlier log ++ if Exceeds (earlier ++ log) op then [op] else [] := by
  induction log generalizing earlier with
  | nil => simp [exceedingAfter]
  | cons first rest ih =>
    simp only [List.cons_append, exceedingAfter, ih]
    rw [List.append_assoc, List.singleton_append]
    split <;> rfl

theorem exceeding_concat (log : List Op) (op : Op) :
    exceeding (log ++ [op]) = exceeding log ++ if Exceeds log op then [op] else [] :=
  exceedingAfter_concat [] log op

namespace KVState

variable {kv : KVState} {op : Op} {log : List Op} {orders orders' : Orders}

theorem applyAll_append (kv : KVState) (first rest : List Op) :
    kv.applyAll (first ++ rest) = (kv.applyAll first).applyAll rest :=
  List.foldl_append

/-- The table lets a write through exactly if it exceeds the log. -/
theorem shouldApply_iff_exceeds (writes : op.opType ≠ .get) :
    (replay log).shouldApply op.clientID op.requestID = true ↔ Exceeds log op := by
  constructor
  · refine fun fresh => ⟨writes, fun other member wrote same => ?_⟩
    obtain ⟨last, found, le⟩ := le_lastAppliedReq member wrote
    rw [same] at found
    simp only [shouldApply, found, decide_eq_true_eq] at fresh
    omega
  · intro exceeds
    unfold shouldApply
    split
    next last found =>
      obtain ⟨other, member, wrote, same, rfl⟩ := mem_of_lastAppliedReq found
      exact decide_eq_true (exceeds.2 other member wrote same)
    next => rfl

theorem applyOp_kvStore (fresh : kv.shouldApply op.clientID op.requestID = true) :
    (kv.applyOp op).1.kvStore = execute kv.kvStore op := by
  unfold applyOp execute
  cases op.opType with
  | get => rfl
  | put => simp [fresh, write]
  | append => simp [fresh, write, read]

/-- The store is what the plain machine makes of the operations that exceed. -/
theorem replay_kvStore (log : List Op) : (replay log).kvStore = plain (exceeding log) := by
  induction log using List.reverseRecOn with
  | nil => rfl
  | append_singleton log op ih =>
    rw [replay_concat, exceeding_concat]
    by_cases exceeds : Exceeds log op
    · rw [if_pos exceeds, plain, List.foldl_concat, ← plain, ← ih]
      exact applyOp_kvStore ((shouldApply_iff_exceeds exceeds.1).mpr exceeds)
    · rw [if_neg exceeds, List.append_nil, ← ih]
      by_cases reads : op.opType = .get
      · rw [applyOp_get reads]
      · rw [applyOp_skip (Bool.eq_false_iff.mpr fun fresh => exceeds ((shouldApply_iff_exceeds reads).mp fresh))]

/-- What the log holds already changes nothing. -/
theorem applyOp_again (member : op ∈ log) : ((replay log).applyOp op).1 = replay log := by
  by_cases reads : op.opType = .get
  · rw [applyOp_get reads]
  · refine applyOp_skip (Bool.eq_false_iff.mpr fun fresh => ?_)
    exact absurd (((shouldApply_iff_exceeds reads).mp fresh).2 op member reads rfl) (Int.lt_irrefl _)

theorem applyAll_again {again : List Op} (delivered : again ⊆ log) :
    (replay log).applyAll again = replay log := by
  induction again with
  | nil => rfl
  | cons op again ih =>
    obtain ⟨member, rest⟩ := List.cons_subset.mp delivered
    rw [applyAll, List.foldl_cons, applyOp_again member]
    exact ih rest

theorem encodeSnapshot_eq (orderly : orders.Of kv.kvStore kv.lastAppliedReq) :
    kv.encodeSnapshot orders = ⟨kv.kvStore, kv.lastAppliedReq⟩ := by
  rw [encodeSnapshot, copyMap_eq orderly.keys, copyMap_eq orderly.clients]

theorem restoreSnapshot_eq (into : KVState) {snap : KVSnapshot} (orderly : orders.Of snap.kv snap.lastReqID) :
    into.restoreSnapshot orders (some snap) = ⟨snap.kv, snap.lastReqID⟩ := by
  rw [restoreSnapshot, copyMap_eq orderly.keys, copyMap_eq orderly.clients]

/-- The table of request ids makes delivery exactly-once. The store is what the plain
machine makes of the writes that exceed the earlier ones of their client. A server
whose state goes through a snapshot at any point, into whatever state the server had,
and that gets operations again, in any order and number, ends as after the log alone. -/
theorem replay_exactly_once (log : List Op) :
    (replay log).kvStore = plain (exceeding log) ∧
      ∀ (k : Nat) (into : KVState) (orders orders' : Orders) (early late : List Op),
        let cut := replay (log.take k)
        let snap := cut.encodeSnapshot orders
        orders.Of cut.kvStore cut.lastAppliedReq → orders'.Of snap.kv snap.lastReqID →
        early ⊆ log.take k → late ⊆ log →
        (((into.restoreSnapshot orders' (some snap)).applyAll early).applyAll (log.drop k)).applyAll late =
          replay log := by
  refine ⟨replay_kvStore log, ?_⟩
  intro k into orders orders' early late cut snap orderly orderly' before all
  have encoded : snap = ⟨cut.kvStore, cut.lastAppliedReq⟩ := encodeSnapshot_eq orderly
  have restored : into.restoreSnapshot orders' (some snap) = cut := by
    rw [restoreSnapshot_eq into orderly', encoded]
  have rest : cut.applyAll (log.drop k) = replay log := by
    calc (replay (log.take k)).applyAll (log.drop k)
        = empty.applyAll (log.take k ++ log.drop k) := (applyAll_append _ _ _).symm
      _ = replay log := by rw [List.take_append_drop, replay, applyAll]
  rw [restored, applyAll_again before, rest, applyAll_again all]

/-- Client 1 puts and appends, and the append is in the log twice. -/
def retried : List Op :=
  [⟨.put, [97], [1], 1, 1⟩, ⟨.append, [97], [2], 1, 2⟩, ⟨.append, [97], [2], 1, 2⟩, ⟨.get, [97], [], 2, 9⟩]

/-- The put comes once more at the end, after a restart from a snapshot. -/
theorem replay_exactly_once_retried :
    exceeding retried = [⟨.put, [97], [1], 1, 1⟩, ⟨.append, [97], [2], 1, 2⟩] ∧
      (replay retried).kvStore [97] = some [1, 2] ∧
      (((empty.restoreSnapshot ⟨[[97]], [1]⟩
        (some ((replay (retried.take 2)).encodeSnapshot ⟨[[97]], [1]⟩))).applyAll
          [⟨.append, [97], [2], 1, 2⟩]).applyAll (retried.drop 2)).applyAll [⟨.put, [97], [1], 1, 1⟩] =
        replay retried := by
  have orderly : Orders.Of ⟨[[97]], [1]⟩ (replay (retried.take 2)).kvStore
      (replay (retried.take 2)).lastAppliedReq :=
    ⟨((Enumerates.empty (κ := GoString) (α := GoString)).assign [97] [1]).assign [97] [1, 2],
      ((Enumerates.empty (κ := Int) (α := Int)).assign 1 1).assign 1 2⟩
  refine ⟨by decide, by decide, (replay_exactly_once retried).2 2 empty _ _ _ _ orderly ?_ (by decide) (by decide)⟩
  rw [encodeSnapshot_eq orderly]
  exact orderly

end KVState

end DistSys.KvRaft
