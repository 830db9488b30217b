import DistSys.Raft.NodeElection

namespace DistSys.Raft

open Replica (Grows Committed Moved Rooted adopt)

variable {n : Nat} {C : Type} {A : World n C} {s : Fin n} {rf : Raft n C}
variable {args : AppendEntryArgs C} {P : List (LogEntry C)}

/-- The consistency check compares the terms of the full log. -/
theorem Shaped.prevMatches_iff (shaped : Shaped rf) :
    rf.prevMatches args = true ↔ rf.lastIncludedIndex ≤ args.prevLogIndex ∧
      args.prevLogIndex ≤ rf.lastIndex ∧ termOf rf.fullLog args.prevLogIndex = args.prevLogTerm := by
  have base := shaped.base_le_lastIndex
  unfold prevMatches
  split
  next below => simp only [Bool.false_eq_true, false_iff]; omega
  next notBelow =>
    split
    next atBase =>
      rw [beq_iff_eq, ← shaped.termAt_eq (by omega), termAt, if_pos atBase, atBase]
      constructor
      · exact fun same => ⟨le_rfl, base, same.symm⟩
      · exact fun all => all.2.2.symm
    next other =>
      have last : rf.lastIndex = rf.lastIncludedIndex + rf.logs.length - 1 := rfl
      rw [← shaped.termAt_eq (by omega), termAt, if_neg other]
      cases found : slot rf.logs (args.prevLogIndex - rf.lastIncludedIndex) with
      | none =>
        have outside := slot_eq_none.mp found
        simp only [Bool.false_eq_true, false_iff]
        omega
      | some entry =>
        have inside := slot_bounds found
        simp only [beq_iff_eq]
        constructor
        · exact fun same => ⟨by omega, by omega, same⟩
        · exact fun all => all.2.2

/-- Where the merge loop stops after passing over `done`: nowhere, past the
end of the log, or at an index with another term. -/
def Stops (rf : Raft n C) (index : Int) (done rest : List (LogEntry C)) : Scan C → Prop
  | .agrees => rest = []
  | .extend tail => tail = rest ∧ rest ≠ [] ∧ index + done.length = rf.lastIndex + 1
  | .conflict found tail => tail = rest ∧ found = index + done.length ∧ found ≤ rf.lastIndex ∧
      ∃ e, rest.head? = some e ∧ termOf rf.fullLog found ≠ e.term

theorem Shaped.scan_cases (shaped : Shaped rf) (entries : List (LogEntry C)) (index : Int)
    (above : rf.lastIncludedIndex < index) (reach : index ≤ rf.lastIndex + 1) :
    ∃ done rest, entries = done ++ rest ∧
      (∀ (k : Nat) e, done[k]? = some e →
        index + k ≤ rf.lastIndex ∧ termOf rf.fullLog (index + k) = e.term) ∧
      Stops rf index done rest (rf.scan index entries) := by
  induction entries generalizing index with
  | nil => exact ⟨[], [], rfl, by simp, rfl⟩
  | cons entry entries ih =>
    by_cases beyond : index > rf.lastIndex
    · rw [scan, if_pos beyond]
      refine ⟨[], entry :: entries, rfl, by simp, rfl, by simp, ?_⟩
      rw [List.length_nil]
      omega
    rw [scan, if_neg beyond, shaped.termAt_eq above.le]
    by_cases differs : termOf rf.fullLog index ≠ entry.term
    · rw [if_pos differs]
      exact ⟨[], entry :: entries, rfl, by simp, rfl, by simp, by omega, entry, rfl, differs⟩
    · rw [if_neg differs]
      obtain ⟨done, rest, split, agree, stops⟩ := ih (index + 1) (by omega) (by omega)
      refine ⟨entry :: done, rest, by rw [split, List.cons_append], ?_, ?_⟩
      · intro k e found
        cases k with
        | zero =>
          rw [List.getElem?_cons_zero] at found
          cases found
          rw [show index + ((0 : Nat) : Int) = index by omega]
          exact ⟨by omega, not_ne_iff.mp differs⟩
        | succ k =>
          rw [List.getElem?_cons_succ] at found
          have shifted := agree k e found
          rwa [show index + 1 + (k : Int) = index + ((k + 1 : Nat) : Int) by push_cast; omega] at shifted
      · have shift : index + 1 + (done.length : Int) = index + ((entry :: done).length : Int) := by
          rw [List.length_cons]; push_cast; omega
        unfold Stops at stops ⊢
        rwa [shift] at stops

/-- A stretch of a book that agrees with a rooted log in its last term is a
prefix of that log. -/
theorem prefix_of_last {full book : List (LogEntry C)} (rooted : Rooted LogEntry.term A full)
    (rootedBook : Rooted LogEntry.term A book) (inBook : P <+: book) (bound : P.length ≤ full.length)
    (same : termOf full P.length = termOf P P.length) : P <+: full := by
  cases P using List.reverseRecOn with
  | nil => exact List.nil_prefix
  | append_singleton start e =>
    have length : (start ++ [e]).length = start.length + 1 := by simp
    have atEnd : (start ++ [e])[start.length]? = some e := List.getElem?_concat_length
    have atBook := Replica.getElem?_of_isPrefix inBook atEnd
    rw [length] at bound
    have atFull : full[start.length]? = some full[start.length] := List.getElem?_eq_getElem bound
    have value := termOf_of_getElem? atFull
    rw [length, show ((start.length + 1 : Nat) : Int) = (start.length : Int) + 1 by push_cast; rfl,
      termOf_of_getElem? atEnd, value] at same
    have equal := rooted.agree rootedBook atFull atBook same
    rw [Replica.take_eq_of_isPrefix inBook length.ge, ← length, List.take_length, length] at equal
    rw [← equal]
    exact List.take_prefix _ _

/-- Agreeing terms in rooted logs are agreeing entries. -/
theorem prefix_of_terms {full book done : List (LogEntry C)} (rooted : Rooted LogEntry.term A full)
    (rootedBook : Rooted LogEntry.term A book) (inBook : P ++ done <+: book) (part : P <+: full)
    (agree : ∀ (k : Nat) e, done[k]? = some e → (P.length : Int) + 1 + k ≤ full.length ∧
      termOf full (P.length + 1 + k) = e.term) : P ++ done <+: full := by
  cases done using List.reverseRecOn with
  | nil => rwa [List.append_nil]
  | append_singleton start e =>
    obtain ⟨bound, same⟩ := agree start.length e List.getElem?_concat_length
    have length : ((P ++ (start ++ [e])).length : Int) = P.length + 1 + start.length := by
      simp only [List.length_append, List.length_singleton]
      push_cast
      omega
    refine prefix_of_last rooted rootedBook inBook (by omega) ?_
    rw [termOf_length, length, same, ← List.append_assoc, List.getLast?_concat]
    rfl

/-- The log that the merge loop leaves. -/
theorem Shaped.fullLog_merge (shaped : Shaped rf) (above : rf.lastIncludedIndex ≤ args.prevLogIndex)
    (reach : args.prevLogIndex ≤ rf.lastIndex) :
    (rf.merge args).fullLog =
      match rf.scan (args.prevLogIndex + 1) args.entries with
      | .agrees => rf.fullLog
      | .extend rest => rf.fullLog ++ rest
      | .conflict index rest => rf.fullLog.take (index - 1).toNat ++ rest := by
  obtain ⟨done, rest, _, _, stops⟩ :=
    shaped.scan_cases args.entries (args.prevLogIndex + 1) (by omega) (by omega)
  unfold merge
  cases scanned : rf.scan (args.prevLogIndex + 1) args.entries with
  | agrees => rfl
  | extend tail =>
    change rf.persister.snapshot.covers ++ (rf.logs ++ tail).tail = _ ++ rf.logs.tail ++ tail
    rw [List.tail_append_of_ne_nil shaped.nonempty, List.append_assoc]
  | conflict index tail =>
    rw [scanned] at stops
    obtain ⟨_, found, _, _⟩ := stops
    have positive := List.length_pos_iff.mpr shaped.nonempty
    have kept : rf.logs.take (index - rf.lastIncludedIndex).toNat ≠ [] := by
      refine List.ne_nil_of_length_pos ?_
      rw [List.length_take]
      omega
    change rf.persister.snapshot.covers ++
      (rf.logs.take (index - rf.lastIncludedIndex).toNat ++ tail).tail = _
    rw [List.tail_append_of_ne_nil kept, ← List.append_assoc, shaped.take_fullLog (by omega)]

/-- Cutting and extending the log behind the placeholder keeps its shape. -/
theorem Shaped.setLogs (shaped : Shaped rf) {count : Nat} (kept : 0 < count)
    (tail : List (LogEntry C)) : Shaped (Raft.persist { rf with logs := rf.logs.take count ++ tail }) := by
  obtain ⟨placeholder, stored, logs⟩ := List.exists_cons_of_ne_nil shaped.nonempty
  obtain ⟨k, rfl⟩ := Nat.exists_eq_succ_of_ne_zero (Nat.pos_iff_ne_zero.mp kept)
  have head : (rf.logs.take (k + 1) ++ tail).head? = rf.logs.head? := by
    rw [logs]
    rfl
  refine ⟨?_, ?_, shaped.base, shaped.baseTerm⟩
  · change rf.logs.take (k + 1) ++ tail ≠ []
    rw [logs]
    exact List.cons_ne_nil _ _
  · change ∀ e ∈ (rf.logs.take (k + 1) ++ tail).head?, e.term = rf.lastIncludedTerm
    rw [head]
    exact shaped.head

theorem Shaped.merge (shaped : Shaped rf) (above : rf.lastIncludedIndex ≤ args.prevLogIndex)
    (reach : args.prevLogIndex ≤ rf.lastIndex) : Shaped (rf.merge args) := by
  obtain ⟨done, rest, _, _, stops⟩ :=
    shaped.scan_cases args.entries (args.prevLogIndex + 1) (by omega) (by omega)
  unfold Raft.merge
  cases scanned : rf.scan (args.prevLogIndex + 1) args.entries with
  | agrees => exact shaped
  | extend tail =>
    have whole := shaped.setLogs (List.length_pos_iff.mpr shaped.nonempty) tail
    rwa [List.take_length] at whole
  | conflict index tail =>
    rw [scanned] at stops
    obtain ⟨_, found, _, _⟩ := stops
    exact shaped.setLogs (by omega) tail

end DistSys.Raft
