import DistSys.Raft.Convergence

namespace DistSys.Raft

variable {n : Nat} {C : Type} {rf rf' : Raft n C} {args args' : AppendEntryArgs C}
variable {index : Int} {entries : List (LogEntry C)}

/-- The stored log has an entry at the place of the `k`-th of some entries that start
at `index`, and it has the same term. -/
def Holds (rf : Raft n C) (index : Int) (entries : List (LogEntry C)) (k : Nat) : Prop :=
  ∃ e f, entries[k]? = some e ∧ rf.entryAt (index + k) = some f ∧ f.term = e.term

/-- The first of the entries that conflicts with the stored log or is missing from it. -/
structure FirstNew (rf : Raft n C) (index : Int) (entries : List (LogEntry C)) (k : Nat) : Prop where
  within : k < entries.length
  old : ∀ j < k, Holds rf index entries j
  new : ¬ Holds rf index entries k

theorem FirstNew.unique {k m : Nat} (first : FirstNew rf index entries k)
    (other : FirstNew rf index entries m) : k = m := by
  rcases Nat.lt_trichotomy k m with less | same | more
  · exact absurd (other.old k less) first.new
  · exact same
  · exact absurd (first.old m more) other.new

theorem holds_cons_succ {e : LogEntry C} {k : Nat} :
    Holds rf index (e :: entries) (k + 1) ↔ Holds rf (index + 1) entries k := by
  unfold Holds
  rw [List.getElem?_cons_succ, show index + ((k + 1 : Nat) : Int) = index + 1 + k by omega]

theorem FirstNew.cons {e : LogEntry C} {k : Nat} (head : Holds rf index (e :: entries) 0)
    (first : FirstNew rf (index + 1) entries k) : FirstNew rf index (e :: entries) (k + 1) where
  within := Nat.succ_lt_succ first.within
  old j less := by
    cases j with
    | zero => exact head
    | succ j => exact holds_cons_succ.mpr (first.old j (Nat.lt_of_succ_lt_succ less))
  new held := first.new (holds_cons_succ.mp held)

/-- Where the merge loop stops: at the first new entry, past the end of the log or at
a conflict, or nowhere if there is none. -/
theorem scan_spec (above : rf.lastIncludedIndex < index) (reach : index ≤ rf.lastIndex + 1) :
    (rf.scan index entries = .agrees ∧ ∀ k < entries.length, Holds rf index entries k) ∨
    (∃ k, FirstNew rf index entries k ∧ rf.scan index entries = .extend (entries.drop k) ∧
      index + k = rf.lastIndex + 1) ∨
    ∃ k, FirstNew rf index entries k ∧ rf.scan index entries = .conflict (index + k) (entries.drop k) ∧
      index + k ≤ rf.lastIndex := by
  induction entries generalizing index with
  | nil => exact Or.inl ⟨rfl, fun k less => absurd less (Nat.not_lt_zero k)⟩
  | cons e entries ih =>
    rw [scan]
    have start : index + ((0 : Nat) : Int) = index := by omega
    by_cases beyond : index > rf.lastIndex
    · have missing : ¬ Holds rf index (e :: entries) 0 := by
        rintro ⟨_, f, _, found, _⟩
        have bounds := slot_bounds found
        unfold lastIndex at beyond
        omega
      refine Or.inr (Or.inl ⟨0, ⟨Nat.succ_pos _, fun j less => absurd less (Nat.not_lt_zero j), missing⟩, ?_⟩)
      rw [if_pos beyond]
      exact ⟨rfl, by omega⟩
    · have stored : ∃ f, rf.entryAt index = some f := by
        refine Option.ne_none_iff_exists'.mp fun none => ?_
        have outside := slot_eq_none.mp none
        unfold lastIndex at beyond
        omega
      obtain ⟨f, found⟩ := stored
      have term : rf.termAt index = f.term := by
        unfold entryAt at found
        rw [termAt, if_neg (by omega), found]
      rw [if_neg beyond, term]
      by_cases same : f.term = e.term
      · have head : Holds rf index (e :: entries) 0 :=
          ⟨e, f, rfl, by rw [start, found], same⟩
        rw [if_neg (not_not.mpr same)]
        have above' : rf.lastIncludedIndex < index + 1 := by omega
        have reach' : index + 1 ≤ rf.lastIndex + 1 := by omega
        rcases ih above' reach' with
          ⟨scanned, all⟩ | ⟨k, first, scanned, past⟩ | ⟨k, first, scanned, inside⟩
        · refine Or.inl ⟨scanned, fun k less => ?_⟩
          cases k with
          | zero => exact head
          | succ k => exact holds_cons_succ.mpr (all k (Nat.lt_of_succ_lt_succ less))
        · exact Or.inr (Or.inl ⟨k + 1, first.cons head, scanned, by omega⟩)
        · refine Or.inr (Or.inr ⟨k + 1, first.cons head, ?_, by omega⟩)
          rw [scanned, show index + ((k + 1 : Nat) : Int) = index + 1 + k by omega]
          rfl
      · have differs : ¬ Holds rf index (e :: entries) 0 := by
          rintro ⟨_, g, head, here, equal⟩
          cases head
          rw [start, found] at here
          cases here
          exact same equal
        refine Or.inr (Or.inr
          ⟨0, ⟨Nat.succ_pos _, fun j less => absurd less (Nat.not_lt_zero j), differs⟩, ?_, by omega⟩)
        rw [if_pos same, start]
        rfl

theorem merge_logs (above : rf.lastIncludedIndex ≤ args.prevLogIndex)
    (inside : args.prevLogIndex ≤ rf.lastIndex) :
    ((∀ k < args.entries.length, Holds rf (args.prevLogIndex + 1) args.entries k) ∧
      (rf.merge args).logs = rf.logs) ∨
    ∃ k, FirstNew rf (args.prevLogIndex + 1) args.entries k ∧
      args.prevLogIndex + k ≤ rf.lastIndex ∧
      (rf.merge args).logs =
        rf.logs.take (args.prevLogIndex + 1 + k - rf.lastIncludedIndex).toNat ++ args.entries.drop k := by
  have start : rf.lastIncludedIndex < args.prevLogIndex + 1 := by omega
  have reach : args.prevLogIndex + 1 ≤ rf.lastIndex + 1 := by omega
  rcases scan_spec start reach with
    ⟨scanned, all⟩ | ⟨k, first, scanned, past⟩ | ⟨k, first, scanned, within⟩
  · exact Or.inl ⟨all, by rw [merge, scanned]⟩
  · refine Or.inr ⟨k, first, by omega, ?_⟩
    have whole : rf.logs.length ≤ (args.prevLogIndex + 1 + k - rf.lastIncludedIndex).toNat := by
      unfold lastIndex at past
      omega
    rw [merge, scanned, List.take_of_length_le whole]
    rfl
  · refine Or.inr ⟨k, first, by omega, ?_⟩
    rw [merge, scanned]
    rfl

/-- What a log is after the entries of a request were merged into it. -/
structure Merged (rf : Raft n C) (args : AppendEntryArgs C) (rf' : Raft n C) : Prop where
  base : rf'.lastIncludedIndex = rf.lastIncludedIndex
  held : ∀ k < args.entries.length, Holds rf' (args.prevLogIndex + 1) args.entries k
  kept : rf'.logs.take (args.prevLogIndex + 1 - rf.lastIncludedIndex).toNat =
    rf.logs.take (args.prevLogIndex + 1 - rf.lastIncludedIndex).toNat
  unchanged : (∀ k < args.entries.length, Holds rf (args.prevLogIndex + 1) args.entries k) →
    rf'.logs = rf.logs
  spliced : ∀ k, FirstNew rf (args.prevLogIndex + 1) args.entries k →
    rf'.logs =
      rf.logs.take (args.prevLogIndex + 1 + k - rf.lastIncludedIndex).toNat ++ args.entries.drop k

theorem entryAt_congr (base : rf'.lastIncludedIndex = rf.lastIncludedIndex) (logs : rf'.logs = rf.logs)
    (index : Int) : rf'.entryAt index = rf.entryAt index := by
  rw [entryAt, entryAt, base, logs]

theorem Holds.congr (base : rf'.lastIncludedIndex = rf.lastIncludedIndex) (logs : rf'.logs = rf.logs) {k : Nat}
    (held : Holds rf index entries k) : Holds rf' index entries k := by
  obtain ⟨e, f, entry, found, term⟩ := held
  exact ⟨e, f, entry, by rw [entryAt_congr base logs, found], term⟩

theorem Holds.of_isPrefix {shorter : List (LogEntry C)} (part : shorter <+: entries) {k : Nat}
    (within : k < shorter.length) (held : Holds rf index entries k) : Holds rf index shorter k := by
  obtain ⟨e, f, entry, found, term⟩ := held
  obtain ⟨rest, rfl⟩ := part
  rw [List.getElem?_append_left within] at entry
  exact ⟨e, f, entry, found, term⟩

theorem merged_of_logs (above : rf.lastIncludedIndex ≤ args.prevLogIndex)
    (inside : args.prevLogIndex ≤ rf.lastIndex) (base : rf'.lastIncludedIndex = rf.lastIncludedIndex)
    (logs : rf'.logs = (rf.merge args).logs) : Merged rf args rf' := by
  have last : rf.lastIndex = rf.lastIncludedIndex + rf.logs.length - 1 := rfl
  rcases merge_logs above inside with ⟨all, same⟩ | ⟨k, first, reach, cut⟩
  · rw [same] at logs
    exact ⟨base, fun k within => (all k within).congr base logs, by rw [logs], fun _ => logs,
      fun k first => absurd (all k first.within) first.new⟩
  · rw [cut] at logs
    have length : (rf.logs.take (args.prevLogIndex + 1 + k - rf.lastIncludedIndex).toNat).length =
        (args.prevLogIndex + 1 + k - rf.lastIncludedIndex).toNat := by
      rw [List.length_take]
      omega
    constructor
    case base => exact base
    case held =>
      intro j within
      have place : args.prevLogIndex + 1 + j - rf'.lastIncludedIndex =
          ((args.prevLogIndex + 1 - rf.lastIncludedIndex).toNat + j : Nat) := by
        rw [base]
        omega
      rcases Nat.lt_or_ge j k with earlier | later
      · obtain ⟨e, f, entry, found, term⟩ := first.old j earlier
        refine ⟨e, f, entry, ?_, term⟩
        rw [base] at place
        rw [entryAt, place, slot_natCast] at found
        rw [entryAt, base, place, slot_natCast, logs, List.getElem?_append_left (by omega),
          List.getElem?_take_of_lt (by omega), found]
      · refine ⟨args.entries[j], args.entries[j], List.getElem?_eq_getElem within, ?_, rfl⟩
        rw [entryAt, place, slot_natCast, logs, List.getElem?_append_right (by omega), List.getElem?_drop,
          length, ← List.getElem?_eq_getElem within]
        congr 1
        omega
    case kept =>
      rw [logs, List.take_append_of_le_length (by omega), List.take_take]
      congr 1
      omega
    case unchanged => exact fun all => absurd (all k first.within) first.new
    case spliced =>
      intro m other
      rw [logs, first.unique other]

/-- The consistency check looks only at the log and its base. -/
theorem prevMatches_congr (base : rf'.lastIncludedIndex = rf.lastIncludedIndex)
    (baseTerm : rf'.lastIncludedTerm = rf.lastIncludedTerm)
    (kept : rf'.entryAt args.prevLogIndex = rf.entryAt args.prevLogIndex)
    (index : args'.prevLogIndex = args.prevLogIndex) (term : args'.prevLogTerm = args.prevLogTerm) :
    rf'.prevMatches args' = rf.prevMatches args := by
  unfold entryAt at kept
  rw [base] at kept
  unfold prevMatches
  rw [index, term, base, baseTerm, kept]

theorem prevMatches_bounds (nonempty : rf.logs ≠ []) (accepted : rf.prevMatches args = true) :
    rf.lastIncludedIndex ≤ args.prevLogIndex ∧ args.prevLogIndex ≤ rf.lastIndex := by
  have positive := List.length_pos_iff.mpr nonempty
  unfold prevMatches at accepted
  unfold lastIndex
  split at accepted
  next => cases accepted
  next notBelow =>
    split at accepted
    next => omega
    next =>
      split at accepted
      next => cases accepted
      next found =>
        have bounds := slot_bounds found
        omega

theorem prevMatches_followTerm (rf : Raft n C) (args : AppendEntryArgs C) (term : Int) :
    (rf.followTerm term).prevMatches args = rf.prevMatches args := by
  obtain ⟨base, baseTerm, logs⟩ := followTerm_base rf term
  exact prevMatches_congr base baseTerm (entryAt_congr base logs _) rfl rfl

theorem Merged.congr {rf₁ : Raft n C} (base : rf₁.lastIncludedIndex = rf.lastIncludedIndex)
    (logs : rf₁.logs = rf.logs) (merged : Merged rf₁ args rf') : Merged rf args rf' where
  base := merged.base.trans base
  held := merged.held
  kept := by
    rw [← base, ← logs]
    exact merged.kept
  unchanged all := (merged.unchanged fun k within => (all k within).congr base logs).trans logs
  spliced k first := by
    rw [← base, ← logs]
    exact merged.spliced k ⟨first.within, fun j less => (first.old j less).congr base logs,
      fun held => first.new (held.congr base.symm logs.symm)⟩

/-- An accepted request merges its entries into the log. -/
theorem merged_appendEntriesHandler [Inhabited C] (nonempty : rf.logs ≠ [])
    (success : (rf.appendEntriesHandler args).2.1.success = true) :
    Merged rf args (rf.appendEntriesHandler args).1 := by
  obtain ⟨base, _, logs⟩ := followTerm_base rf args.term
  rcases appendEntriesHandler_cases rf args with ⟨_, handled⟩ | ⟨_, accepted, _, commitIndex, applying, handled⟩
  · rw [handled] at success
    cases success
  · obtain ⟨above, inside⟩ := prevMatches_bounds (by rwa [logs]) accepted
    obtain ⟨_, _, fields, _⟩ := merge_eq (rf.followTerm args.term) args
    have merged : Merged (rf.followTerm args.term) args (rf.appendEntriesHandler args).1 := by
      refine merged_of_logs above inside ?_ (by rw [handled])
      rw [handled, fields]
    exact merged.congr base logs

/-- Success and failure of a request, in terms of the state before it. -/
theorem appendEntriesHandler_success_iff (rf : Raft n C) (args : AppendEntryArgs C) :
    (rf.appendEntriesHandler args).2.1.success = true ↔
      rf.currentTerm ≤ args.term ∧ rf.prevMatches args = true := by
  rw [← prevMatches_followTerm rf args args.term]
  rcases appendEntriesHandler_cases rf args with ⟨refused, handled⟩ | ⟨reached, accepted, answer, _⟩
  · rw [handled]
    exact ⟨fun success => absurd success Bool.false_ne_true, fun both => absurd both refused⟩
  · rw [answer]
    exact ⟨fun _ => ⟨reached, accepted⟩, fun _ => rfl⟩

theorem appendEntriesHandler_refused (refused : (rf.appendEntriesHandler args).2.1.success = false) :
    (rf.appendEntriesHandler args).1 = rf.followTerm args.term := by
  rcases appendEntriesHandler_cases rf args with ⟨_, handled⟩ | ⟨_, _, answer, _⟩
  · rw [handled]
  · rw [answer] at refused
    cases refused

variable [Inhabited C]

/-- A log that already holds all the entries of a request is left alone by it. -/
theorem appendEntriesHandler_of_holds (nonempty : rf.logs ≠ [])
    (held : (rf.appendEntriesHandler args).2.1.success = true →
      ∀ k < args.entries.length, Holds rf (args.prevLogIndex + 1) args.entries k) :
    (rf.appendEntriesHandler args).1.lastIncludedIndex = rf.lastIncludedIndex ∧
      (rf.appendEntriesHandler args).1.logs = rf.logs := by
  cases answer : (rf.appendEntriesHandler args).2.1.success with
  | false =>
    rw [appendEntriesHandler_refused answer]
    obtain ⟨base, _, logs⟩ := followTerm_base rf args.term
    exact ⟨base, logs⟩
  | true =>
    have merged := merged_appendEntriesHandler nonempty answer
    exact ⟨merged.base, merged.unchanged (held answer)⟩

/-- A refused request changes neither log nor commit position, an accepted one merges
its entries; and the same request again, or one for the same place with fewer of
its entries, leaves the log as it is. -/
theorem append_entries_merge (inv : LogInvariant rf) (args : AppendEntryArgs C) :
    ((rf.appendEntriesHandler args).2.1.success = false →
      (rf.appendEntriesHandler args).1.logs = rf.logs ∧
      (rf.appendEntriesHandler args).1.lastIncludedIndex = rf.lastIncludedIndex ∧
      (rf.appendEntriesHandler args).1.commitIndex = rf.commitIndex) ∧
    ((rf.appendEntriesHandler args).2.1.success = true → Merged rf args (rf.appendEntriesHandler args).1) ∧
    ∀ args' : AppendEntryArgs C, args'.term = args.term → args'.prevLogIndex = args.prevLogIndex →
      args'.prevLogTerm = args.prevLogTerm → args'.entries <+: args.entries →
      ((rf.appendEntriesHandler args).1.appendEntriesHandler args').1.lastIncludedIndex =
        (rf.appendEntriesHandler args).1.lastIncludedIndex ∧
      ((rf.appendEntriesHandler args).1.appendEntriesHandler args').1.logs =
        (rf.appendEntriesHandler args).1.logs := by
  have nonempty : rf.logs ≠ [] := List.length_pos_iff.mp inv.nonempty
  obtain ⟨base, baseTerm, logs⟩ := followTerm_base rf args.term
  refine ⟨fun refused => ?_, merged_appendEntriesHandler nonempty, fun args' term place placeTerm part => ?_⟩
  · rw [appendEntriesHandler_refused refused]
    exact ⟨logs, base, followTerm_commitIndex rf args.term⟩
  · cases answer : (rf.appendEntriesHandler args).2.1.success with
    | false =>
      rw [appendEntriesHandler_refused answer]
      refine appendEntriesHandler_of_holds (by rwa [logs]) fun success => ?_
      -- what was refused is refused again
      obtain ⟨reached, accepted⟩ := (appendEntriesHandler_success_iff _ args').mp success
      rw [prevMatches_congr base baseTerm (entryAt_congr base logs _) place placeTerm] at accepted
      have later : rf.currentTerm ≤ args.term := by
        rcases lt_or_ge args.term rf.currentTerm with behind | now
        · rw [followTerm_behind behind, term] at reached
          exact reached
        · exact now
      rw [(appendEntriesHandler_success_iff rf args).mpr ⟨later, accepted⟩] at answer
      cases answer
    | true =>
      have merged := merged_appendEntriesHandler nonempty answer
      have accepted := ((appendEntriesHandler_success_iff rf args).mp answer).2
      have above := (prevMatches_bounds nonempty accepted).1
      refine appendEntriesHandler_of_holds (fun empty => ?_) fun _ k within => ?_
      · have kept := merged.kept
        rw [empty, List.take_nil] at kept
        rcases List.take_eq_nil_iff.mp kept.symm with none | nothing
        · omega
        · exact nonempty nothing
      · rw [place]
        exact (merged.held k (within.trans_le part.length_le)).of_isPrefix part within

/-- A follower with entries of terms 1 and 1 gets two entries of term 2 after the
first, and then only the first of them again. -/
theorem append_entries_merge_conflict :
    let rf : Raft 3 Nat := { make 0 makePersister with currentTerm := 1, logs := [⟨0, 0⟩, ⟨7, 1⟩, ⟨8, 1⟩] }
    let args : AppendEntryArgs Nat := ⟨2, 1, 1, 1, [⟨5, 2⟩, ⟨6, 2⟩], 0, 0⟩
    (rf.appendEntriesHandler args).1.logs = [⟨0, 0⟩, ⟨7, 1⟩, ⟨5, 2⟩, ⟨6, 2⟩] ∧
      ((rf.appendEntriesHandler args).1.appendEntriesHandler ⟨2, 1, 1, 1, [⟨5, 2⟩], 0, 0⟩).1.logs =
        [⟨0, 0⟩, ⟨7, 1⟩, ⟨5, 2⟩, ⟨6, 2⟩] := by
  have inv : LogInvariant ({ make 0 makePersister with
      currentTerm := 1, logs := [⟨0, 0⟩, ⟨7, 1⟩, ⟨8, 1⟩] } : Raft 3 Nat) :=
    ⟨by decide, by decide, by decide, by decide, by decide, by decide, by decide⟩
  have repeated := (append_entries_merge inv ⟨2, 1, 1, 1, [⟨5, 2⟩, ⟨6, 2⟩], 0, 0⟩).2.2
    ⟨2, 1, 1, 1, [⟨5, 2⟩], 0, 0⟩ rfl rfl rfl (by decide)
  exact ⟨by decide, repeated.2.trans (by decide)⟩

end DistSys.Raft
