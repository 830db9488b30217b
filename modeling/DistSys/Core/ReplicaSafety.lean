import DistSys.Core.ReplicaInv
import Mathlib.Data.Fintype.Lattice

namespace DistSys.Replica

variable {S τ E : Type*} [Fintype S] [LinearOrder τ] {stamp : E → τ}
variable {a : State S τ E} {t u : τ} {k m : Nat} {L P Q : List E} {s v : S}

theorem Inv.own_chief (inv : Inv stamp a) (own : Own stamp a t k) : ∃ s, a.chief t = some s := by
  cases chief : a.chief t with
  | none =>
    have bound := own.lt_length
    rw [inv.book_nil chief] at bound
    exact absurd bound (Nat.not_lt_zero k)
  | some s => exact ⟨s, rfl⟩

/-- An elected leader of a later term left a majority that can no longer store
anything new in an earlier one. -/
theorem Inv.lost_of_ack (inv : Inv stamp a) (chief : a.chief u = some s) (order : t < u)
    (small : ∀ v, u ≤ (a.peer v).term → a.ack v t ≤ k) : Lost a t k := by
  obtain ⟨Q, major, voted⟩ := inv.chief_majority chief
  refine ⟨Q, major, fun v member => ?_⟩
  have reached := inv.vote_term (voted v member)
  exact ⟨order.trans_le reached, small v reached⟩

/-- Leader completeness: the book of a later leader extends what an earlier
term has chosen. -/
theorem Inv.chosen_prefix_book [DecidableEq S] (inv : Inv stamp a) (chosen : Chosen stamp a t k)
    (chief : a.chief u = some s) (order : t ≤ u) : (a.book t).take (k + 1) <+: a.book u := by
  rcases order.lt_or_eq with earlier | rfl
  · exact (inv.book_kept chief earlier chosen.1).resolve_right chosen.not_lost
  · exact List.take_prefix _ _

/-- What one term has chosen and what another term may still choose lie on
one line. -/
theorem Inv.chosen_comparable [DecidableEq S] (inv : Inv stamp a) (chosen : Chosen stamp a t k)
    (own : Own stamp a u m) :
    Lost a u m ∨ (a.book t).take (k + 1) <+: (a.book u).take (m + 1) ∨
      (a.book u).take (m + 1) <+: (a.book t).take (k + 1) := by
  rcases le_or_gt t u with order | order
  · obtain ⟨s, chief⟩ := inv.own_chief own
    have part := inv.chosen_prefix_book chosen chief order
    exact Or.inr (List.prefix_or_prefix_of_prefix part (List.take_prefix _ _))
  · obtain ⟨s, chief⟩ := inv.own_chief chosen.1
    rcases inv.book_kept chief order own with part | lost
    · exact Or.inr (List.prefix_or_prefix_of_prefix (List.take_prefix _ _) part)
    · exact Or.inl lost

/-- State machine safety: any two committed prefixes are comparable. -/
theorem Inv.committed_comparable [DecidableEq S] (inv : Inv stamp a) (left : Committed stamp a t P)
    (right : Committed stamp a u Q) : P <+: Q ∨ Q <+: P := by
  rcases left with rfl | ⟨t', _, k, chosen, inLeft⟩
  · exact Or.inl (List.nil_prefix)
  rcases right with rfl | ⟨u', _, m, chosen', inRight⟩
  · exact Or.inr (List.nil_prefix)
  rcases inv.chosen_comparable chosen chosen'.1 with lost | part | part
  · exact absurd lost chosen'.not_lost
  · exact List.prefix_or_prefix_of_prefix (inLeft.trans part) inRight
  · exact List.prefix_or_prefix_of_prefix inLeft (inRight.trans part)

theorem Inv.committed_prefix_book [DecidableEq S] (inv : Inv stamp a) (settled : Committed stamp a t P)
    (chief : a.chief u = some s) (order : t ≤ u) : P <+: a.book u := by
  rcases settled with rfl | ⟨w, before, k, chosen, part⟩
  · exact List.nil_prefix
  · exact part.trans (inv.chosen_prefix_book chosen chief (before.trans order))

/-- Storing a stretch of the current leader's book never cuts a committed
prefix. -/
theorem Inv.committed_prefix_adopt [DecidableEq S] (inv : Inv stamp a) (settled : Committed stamp a t P)
    (order : t ≤ u) (part : P <+: L) (m : Nat) : P <+: adopt ((a.book u).take m) L := by
  by_cases inL : (a.book u).take m <+: L
  · rwa [adopt_of_isPrefix inL]
  rw [adopt_of_not_isPrefix inL]
  cases chief : a.chief u with
  | none =>
    rw [inv.book_nil chief, List.take_nil] at inL
    exact absurd List.nil_prefix inL
  | some s =>
    have inBook := inv.committed_prefix_book settled chief order
    rcases List.prefix_or_prefix_of_prefix inBook (List.take_prefix m (a.book u)) with short | long
    · exact short
    · exact absurd (long.trans part) inL

theorem Inv.committed_rooted (inv : Inv stamp a) (settled : Committed stamp a t P) :
    Rooted stamp a P := by
  rcases settled with rfl | ⟨u, _, k, _, part⟩
  · intro k e entry
    simp at entry
  · exact (inv.book_rooted u).of_isPrefix (part.trans (List.take_prefix _ _))

/-- Switching to a committed prefix never gives up a position that may still
be chosen. -/
theorem Inv.kept_adopt_committed [DecidableEq S] (inv : Inv stamp a) (settled : Committed stamp a u P)
    (own : Own stamp a t k) (kept : Kept a L t k) : Kept a (adopt P L) t k := by
  by_cases part : P <+: L
  · rwa [adopt_of_isPrefix part]
  rw [adopt_of_not_isPrefix part]
  rcases kept with inL | lost
  · rcases settled with rfl | ⟨w, _, m, chosen, inBook⟩
    · exact absurd List.nil_prefix part
    -- both the prefix and the kept part now lie on one line, and the prefix is not below `L`
    rcases inv.chosen_comparable chosen own with lost | below | above
    · exact Or.inr lost
    · exact absurd ((inBook.trans below).trans inL) part
    · rcases List.prefix_or_prefix_of_prefix inBook above with short | long
      · exact absurd (short.trans inL) part
      · exact Or.inl long
  · exact Or.inr lost

/-- Storing a stretch of the current leader's book never gives up a position
that an earlier or the current term may still choose. -/
theorem Inv.kept_adopt_book (inv : Inv stamp a) (chief : a.chief u = some s) (order : t ≤ u)
    (inBook : m ≤ (a.book u).length) (own : Own stamp a t k) (kept : Kept a L t k) :
    Kept a (adopt ((a.book u).take m) L) t k := by
  by_cases part : (a.book u).take m <+: L
  · rwa [adopt_of_isPrefix part]
  rw [adopt_of_not_isPrefix part]
  rcases kept with inL | lost
  · have onBook : Kept a (a.book u) t k := by
      rcases order.lt_or_eq with earlier | rfl
      · exact inv.book_kept chief earlier own
      · exact Or.inl (List.take_prefix _ _)
    refine onBook.imp_left fun below => ?_
    rcases List.prefix_or_prefix_of_prefix below (List.take_prefix m (a.book u)) with short | long
    · exact short
    · exact absurd (long.trans inL) part
  · exact Or.inr lost

omit [Fintype S] [LinearOrder τ] in
/-- A rooted log lies within the book of its last term, which wrote that
last position itself. -/
theorem Rooted.last_own (rooted : Rooted stamp a L) {f : E} (last : f ∈ L.getLast?) :
    L <+: a.book (stamp f) ∧ Own stamp a (stamp f) (L.length - 1) := by
  have nonempty : L ≠ [] := by
    rintro rfl
    simp at last
  have positive := List.length_pos_iff.mpr nonempty
  have atLast : L[L.length - 1]? = some f := by
    rw [← List.getLast?_eq_getElem?]
    exact last
  have whole := rooted _ _ atLast
  rw [show L.length - 1 + 1 = L.length by omega, List.take_length] at whole
  exact ⟨whole, f, getElem?_of_isPrefix (whole) atLast, rfl⟩

/-- Every entry of a rooted log was written after the first term. -/
theorem Inv.origin_lt (inv : Inv stamp a) (rooted : Rooted stamp a L) {e : E} (member : e ∈ L) :
    a.origin < stamp e := by
  obtain ⟨k, entry⟩ := List.getElem?_of_mem member
  have own : Own stamp a (stamp e) k :=
    ⟨e, getElem?_of_take_isPrefix (rooted k e entry) entry, rfl⟩
  obtain ⟨s, chief⟩ := inv.own_chief own
  exact inv.origin_chief chief

/-- A log that holds a position written in term `t` ends in term `t` or later. -/
theorem Inv.last_of_isPrefix (inv : Inv stamp a) (own : Own stamp a t k)
    (rooted : Rooted stamp a L) (part : (a.book t).take (k + 1) <+: L) :
    ∃ f ∈ L.getLast?, t ≤ stamp f ∧ k < L.length := by
  obtain ⟨e, entry, written⟩ := own
  have inL := getElem?_of_take_isPrefix part entry
  have bound := (List.getElem?_eq_some_iff.mp inL).1
  have nonempty : L ≠ [] := List.ne_nil_of_length_pos (by omega)
  have last := List.getLast?_eq_some_getLast nonempty
  refine ⟨L.getLast nonempty, last, ?_, bound⟩
  have member := (rooted.last_own last).1.mem (List.mem_of_getElem? inL)
  have small := inv.book_bound member
  rwa [written] at small

/-- A rooted log whose last term is later than `t`, or is `t` with enough
entries, holds every position of term `t` that may still be chosen. -/
theorem Inv.kept_of_last (inv : Inv stamp a) (rooted : Rooted stamp a L) (own : Own stamp a t k)
    {f : E} (last : f ∈ L.getLast?) (late : t < stamp f ∨ t = stamp f ∧ k < L.length) :
    Kept a L t k := by
  obtain ⟨whole, atBook⟩ := rooted.last_own last
  rcases late with later | ⟨same, long⟩
  · obtain ⟨s, chief⟩ := inv.own_chief atBook
    refine (inv.book_kept chief later own).imp_left fun below => ?_
    rcases List.prefix_or_prefix_of_prefix below whole with short | long
    · exact short
    · -- the last entry would be one of the book of `t`, whose terms are at most `t`
      have member := (long.trans (List.take_prefix _ _)).mem (List.mem_of_getLast? last)
      exact absurd (inv.book_bound member) (not_le.mpr later)
  · rw [← same] at whole
    have bound := own.lt_length
    exact Or.inl (List.prefix_of_prefix_length_le (List.take_prefix _ _) whole
      (by rw [List.length_take]; omega))

/-- The entries before an entry were in the book of its term when it was
written, and a book holds nothing from later terms. -/
theorem Inv.rooted_sorted (inv : Inv stamp a) (rooted : Rooted stamp a L) :
    L.Pairwise fun e f => stamp e ≤ stamp f := by
  rw [List.pairwise_iff_getElem]
  intro i j boundI boundJ order
  have part := rooted j L[j] (List.getElem?_eq_getElem boundJ)
  have member : L[i] ∈ L.take (j + 1) := by
    rw [List.mem_take_iff_getElem]
    exact ⟨i, by omega, rfl⟩
  exact inv.book_bound (part.subset member)

/-- Only leaders write, and no leader leads the first term. -/
theorem Inv.origin_lt_stamp (inv : Inv stamp a) (rooted : Rooted stamp a L) {e : E} (member : e ∈ L) :
    a.origin < stamp e := by
  obtain ⟨k, bound, rfl⟩ := List.getElem_of_mem member
  have part := rooted k L[k] (List.getElem?_eq_getElem bound)
  cases chief : a.chief (stamp L[k]) with
  | none =>
    rw [inv.book_nil chief, List.prefix_nil] at part
    have size := congrArg List.length part
    rw [List.length_take, List.length_nil] at size
    omega
  | some s => exact inv.origin_chief chief

/-- Of two committed prefixes the shorter one is a prefix of the other. -/
theorem Inv.committed_isPrefix [DecidableEq S] (inv : Inv stamp a)
    (left : Committed stamp a t P) (right : Committed stamp a u Q)
    (short : P.length ≤ Q.length) : P <+: Q := by
  rcases inv.committed_comparable left right with part | part
  · exact part
  · rw [part.eq_of_length (le_antisymm part.length_le short)]

/-- Committed prefixes, if they are finitely many, are prefixes of one log. -/
theorem Inv.exists_common_log [DecidableEq S] {ι : Type*} [Finite ι] (inv : Inv stamp a) {prefixes : ι → List E}
    (committed : ∀ i, ∃ t, Committed stamp a t (prefixes i)) : ∃ log, ∀ i, prefixes i <+: log := by
  rcases isEmpty_or_nonempty ι with empty | inhabited
  · exact ⟨[], fun i => empty.elim i⟩
  · obtain ⟨longest, most⟩ := Finite.exists_max fun i => (prefixes i).length
    refine ⟨prefixes longest, fun i => ?_⟩
    obtain ⟨t, left⟩ := committed i
    obtain ⟨u, right⟩ := committed longest
    exact inv.committed_isPrefix left right (most i)

end DistSys.Replica
