import DistSys.Raft.Node

namespace DistSys.Raft

section
variable {α : Type} {xs ys : List α} {i : Int} {k : Nat} {x : α}

theorem slot_natCast (xs : List α) (k : Nat) : slot xs k = xs[k]? := by
  unfold slot
  rw [if_neg (by omega), Int.toNat_natCast]

theorem slot_of_nonneg (nonneg : 0 ≤ i) : slot xs i = xs[i.toNat]? := by
  unfold slot
  rw [if_neg (by omega)]

theorem slot_eq_none : slot xs i = none ↔ i < 0 ∨ (xs.length : Int) ≤ i := by
  unfold slot
  split
  next => simp only [true_iff]; omega
  next => rw [List.getElem?_eq_none_iff]; omega

theorem slot_bounds (found : slot xs i = some x) : 0 ≤ i ∧ i < xs.length := by
  by_contra outside
  rw [slot_eq_none.mpr (by omega)] at found
  cases found

theorem slot_cons (positive : 0 < i) : slot (x :: xs) i = slot xs (i - 1) := by
  obtain ⟨k, rfl⟩ : ∃ k : Nat, i = (k : Int) + 1 := ⟨(i - 1).toNat, by omega⟩
  rw [show ((k : Int) + 1 - 1) = k by omega, slot_natCast]
  have shifted := slot_natCast (x :: xs) (k + 1)
  rw [List.getElem?_cons_succ] at shifted
  exact_mod_cast shifted

theorem slot_append_right (xs ys : List α) (past : xs.length ≤ i) :
    slot (xs ++ ys) i = slot ys (i - xs.length) := by
  rw [slot_of_nonneg (by omega), slot_of_nonneg (by omega), List.getElem?_append_right (by omega)]
  congr 1
  omega

end

variable {n : Nat} {C : Type}

/-- The term at an index of an uncompacted log. Index 0 has term 0, indices
outside the log have term -1, as in `termAt`. -/
def termOf (L : List (LogEntry C)) (index : Int) : Int :=
  (slot (0 :: L.map LogEntry.term) index).getD (-1)

theorem termOf_zero (L : List (LogEntry C)) : termOf L 0 = 0 := rfl

theorem termOf_succ (L : List (LogEntry C)) (k : Nat) :
    termOf L ((k : Int) + 1) = (L[k]?.map LogEntry.term).getD (-1) := by
  unfold termOf
  rw [slot_cons (by omega), show (k : Int) + 1 - 1 = k by omega, slot_natCast, List.getElem?_map]

theorem termOf_of_getElem? {L : List (LogEntry C)} {k : Nat} {e : LogEntry C}
    (entry : L[k]? = some e) : termOf L ((k : Int) + 1) = e.term := by
  rw [termOf_succ, entry]
  rfl

theorem termOf_of_isPrefix {P L : List (LogEntry C)} {index : Int} (part : P <+: L)
    (inside : index ≤ P.length) : termOf L index = termOf P index := by
  obtain ⟨tail, rfl⟩ := part
  unfold termOf slot
  split
  next => rfl
  next =>
    rw [List.map_append, ← List.cons_append, List.getElem?_append_left]
    rw [List.length_cons, List.length_map]
    omega

theorem termOf_outside {L : List (LogEntry C)} {index : Int} (past : (L.length : Int) < index) :
    termOf L index = -1 := by
  unfold termOf
  rw [slot_eq_none.mpr (by rw [List.length_cons, List.length_map]; omega)]
  rfl

/-- The entry behind a term that is not the placeholder's. -/
theorem entry_of_inside {L : List (LogEntry C)} {index : Int} (positive : 0 < index)
    (inside : index ≤ L.length) : ∃ e, L[(index - 1).toNat]? = some e ∧ termOf L index = e.term := by
  have bound : (index - 1).toNat < L.length := by omega
  refine ⟨L[(index - 1).toNat], List.getElem?_eq_getElem bound, ?_⟩
  have found := termOf_of_getElem? (List.getElem?_eq_getElem bound)
  rwa [show ((index - 1).toNat : Int) + 1 = index by omega] at found

theorem termOf_length (L : List (LogEntry C)) :
    termOf L L.length = (L.getLast?.map LogEntry.term).getD 0 := by
  cases L using List.reverseRecOn with
  | nil => rfl
  | append_singleton L e =>
    rw [List.getLast?_concat, List.length_append, List.length_singleton]
    have found := termOf_of_getElem? (show (L ++ [e])[L.length]? = some e from List.getElem?_concat_length)
    exact_mod_cast found

/-- The log a peer would hold without compaction: what its snapshot covers,
then what it still stores after the placeholder. -/
def fullLog (rf : Raft n C) : List (LogEntry C) :=
  rf.persister.snapshot.covers ++ rf.logs.tail

/-- The stored entry at an index above the base. -/
def entryAt (rf : Raft n C) (index : Int) : Option (LogEntry C) :=
  slot rf.logs (index - rf.lastIncludedIndex)

/-- The snapshot offset fits the stored log and what the snapshot covers. -/
structure Shaped (rf : Raft n C) : Prop where
  nonempty : rf.logs ≠ []
  head : ∀ e ∈ rf.logs.head?, e.term = rf.lastIncludedTerm
  base : (rf.persister.snapshot.covers.length : Int) = rf.lastIncludedIndex
  baseTerm : termOf rf.persister.snapshot.covers rf.lastIncludedIndex = rf.lastIncludedTerm

variable {rf : Raft n C} {index : Int}

theorem Shaped.base_nonneg (shaped : Shaped rf) : 0 ≤ rf.lastIncludedIndex := by
  have base := shaped.base
  omega

theorem Shaped.length_logs (shaped : Shaped rf) : rf.logs.length = rf.logs.tail.length + 1 := by
  have positive := List.length_pos_iff.mpr shaped.nonempty
  rw [List.length_tail]
  omega

theorem length_fullLog (rf : Raft n C) :
    rf.fullLog.length = rf.persister.snapshot.covers.length + rf.logs.tail.length :=
  List.length_append

theorem Shaped.lastIndex_eq (shaped : Shaped rf) : rf.lastIndex = rf.fullLog.length := by
  have length := shaped.length_logs
  have base := shaped.base
  rw [length_fullLog]
  unfold lastIndex
  omega

theorem Shaped.base_le_lastIndex (shaped : Shaped rf) : rf.lastIncludedIndex ≤ rf.lastIndex := by
  have length := shaped.length_logs
  unfold lastIndex
  omega

/-- Above the base the stored slots are the slots of the full log. -/
theorem Shaped.slot_logs (shaped : Shaped rf) (above : rf.lastIncludedIndex < index) :
    slot rf.logs (index - rf.lastIncludedIndex) = slot rf.fullLog (index - 1) := by
  have base := shaped.base
  unfold fullLog
  rw [slot_append_right _ _ (by omega)]
  cases split : rf.logs with
  | nil => exact absurd split shaped.nonempty
  | cons placeholder rest =>
    rw [slot_cons (by omega), List.tail_cons]
    congr 1
    omega

theorem Shaped.entryAt_eq (shaped : Shaped rf) (above : rf.lastIncludedIndex < index) :
    rf.entryAt index = rf.fullLog[(index - 1).toNat]? := by
  have nonneg := shaped.base_nonneg
  unfold entryAt
  rw [shaped.slot_logs above, slot_of_nonneg (by omega)]

theorem Shaped.termAt_eq (shaped : Shaped rf) (above : rf.lastIncludedIndex ≤ index) :
    rf.termAt index = termOf rf.fullLog index := by
  have base := shaped.base
  have nonneg := shaped.base_nonneg
  unfold termAt
  split
  next atBase =>
    rw [atBase, ← shaped.baseTerm]
    exact (termOf_of_isPrefix (List.prefix_append _ _) base.ge).symm
  next other =>
    have nonneg' : 0 ≤ index - 1 := by omega
    rw [shaped.slot_logs (by omega), termOf, slot_cons (by omega), slot_of_nonneg nonneg',
      slot_of_nonneg nonneg', List.getElem?_map]
    cases rf.fullLog[(index - 1).toNat]? <;> rfl

/-- The base of one log inside another that agrees with it there. -/
theorem Shaped.entryAt_base {rf' : Raft n C} (shaped : Shaped rf) (other : Shaped rf')
    (lower : rf.lastIncludedIndex < rf'.lastIncludedIndex)
    (same : rf.fullLog[(rf'.lastIncludedIndex - 1).toNat]? =
      rf'.fullLog[(rf'.lastIncludedIndex - 1).toNat]?) :
    ∃ e, rf.entryAt rf'.lastIncludedIndex = some e ∧ e.term = rf'.lastIncludedTerm := by
  have nonneg := shaped.base_nonneg
  have inside := other.base_le_lastIndex
  rw [other.lastIndex_eq] at inside
  obtain ⟨e, found, value⟩ := entry_of_inside (show 0 < rf'.lastIncludedIndex by omega) inside
  refine ⟨e, by rw [shaped.entryAt_eq lower, same, found], ?_⟩
  rw [← value, ← other.termAt_eq le_rfl, termAt, if_pos rfl]

theorem Shaped.drop_fullLog (shaped : Shaped rf) (above : rf.lastIncludedIndex < index) :
    rf.logs.drop (index - rf.lastIncludedIndex).toNat = rf.fullLog.drop (index - 1).toNat := by
  have base := shaped.base
  have past : rf.persister.snapshot.covers.length ≤ (index - 1).toNat := by omega
  have shift : (index - rf.lastIncludedIndex).toNat =
      1 + ((index - 1).toNat - rf.persister.snapshot.covers.length) := by omega
  unfold fullLog
  rw [List.drop_append, List.drop_eq_nil_of_le past, List.nil_append,
    ← List.drop_one, List.drop_drop, shift]

theorem Shaped.take_fullLog (shaped : Shaped rf) (above : rf.lastIncludedIndex < index) :
    rf.persister.snapshot.covers ++ (rf.logs.take (index - rf.lastIncludedIndex).toNat).tail =
      rf.fullLog.take (index - 1).toNat := by
  have base := shaped.base
  have past : rf.persister.snapshot.covers.length ≤ (index - 1).toNat := by omega
  have shift : (index - 1).toNat - rf.persister.snapshot.covers.length =
      (index - rf.lastIncludedIndex).toNat - 1 := by omega
  unfold fullLog
  rw [List.take_append, List.take_of_length_le past, shift, ← List.drop_one, ← List.drop_one,
    List.drop_take]

end DistSys.Raft
