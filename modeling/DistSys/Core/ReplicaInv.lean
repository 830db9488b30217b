import DistSys.Core.Replica

namespace DistSys.Replica

theorem getElem?_of_isPrefix {E : Type*} {P L : List E} {k : Nat} {e : E} (part : P <+: L)
    (entry : P[k]? = some e) : L[k]? = some e := by
  obtain ⟨tail, rfl⟩ := part
  rw [List.getElem?_append_left (List.getElem?_eq_some_iff.mp entry).1, entry]

theorem getElem?_of_take_isPrefix {E : Type*} {B L : List E} {k : Nat} {e : E}
    (part : B.take (k + 1) <+: L) (entry : B[k]? = some e) : L[k]? = some e :=
  getElem?_of_isPrefix part (by rw [List.getElem?_take_of_lt (Nat.lt_succ_self k), entry])

theorem take_eq_of_isPrefix {E : Type*} {P L : List E} {k : Nat} (part : P <+: L)
    (bound : k ≤ P.length) : L.take k = P.take k := by
  obtain ⟨tail, rfl⟩ := part
  rw [List.take_append_of_le_length bound]

section
variable {S τ E : Type*} [LinearOrder τ] {stamp : E → τ} {a b : State S τ E}
variable {t u : τ} {k m : Nat} {L M P Q : List E}

omit [LinearOrder τ] in
theorem Own.lt_length (own : Own stamp a t k) : k < (a.book t).length := by
  obtain ⟨e, entry, _⟩ := own
  exact (List.getElem?_eq_some_iff.mp entry).1

theorem Own.take_eq (own : Own stamp a t k) (grows : Grows a b) :
    (b.book t).take (k + 1) = (a.book t).take (k + 1) :=
  take_eq_of_isPrefix (grows.book t) own.lt_length

theorem Own.grows (own : Own stamp a t k) (grows : Grows a b) : Own stamp b t k := by
  obtain ⟨e, entry, written⟩ := own
  exact ⟨e, getElem?_of_isPrefix ((grows.book t)) entry, written⟩

variable [Fintype S]

theorem Lost.grows (lost : Lost a t k) (grows : Grows a b) : Lost b t k := by
  obtain ⟨Q, major, left⟩ := lost
  refine ⟨Q, major, fun v member => ?_⟩
  obtain ⟨past, small⟩ := left v member
  exact ⟨past.trans_le (grows.term v), (grows.frozen v t past).trans_le small⟩

theorem Kept.grows (kept : Kept a L t k) (own : Own stamp a t k) (grows : Grows a b) :
    Kept b L t k := by
  rcases kept with part | lost
  · exact Or.inl (by rwa [own.take_eq grows])
  · exact Or.inr (lost.grows grows)

theorem Kept.of_isPrefix (kept : Kept a L t k) (part : L <+: M) : Kept a M t k :=
  kept.imp_left fun inL => inL.trans part

theorem Chosen.grows (chosen : Chosen stamp a t k) (grows : Grows a b) : Chosen stamp b t k := by
  obtain ⟨own, Q, major, stored⟩ := chosen
  exact ⟨own.grows grows, Q, major, fun v member => (stored v member).trans_le (grows.ack v t)⟩

theorem Committed.grows (settled : Committed stamp a t P) (grows : Grows a b) :
    Committed stamp b t P := by
  rcases settled with empty | ⟨u, before, k, chosen, part⟩
  · exact Or.inl empty
  · exact Or.inr ⟨u, before, k, chosen.grows grows, by rwa [chosen.1.take_eq grows]⟩

theorem Committed.later (settled : Committed stamp a t P) (order : t ≤ u) :
    Committed stamp a u P :=
  settled.imp_right fun ⟨w, before, rest⟩ => ⟨w, before.trans order, rest⟩

theorem Committed.of_isPrefix (settled : Committed stamp a t P) (part : Q <+: P) :
    Committed stamp a t Q := by
  rcases settled with rfl | ⟨u, before, k, chosen, inBook⟩
  · exact Or.inl (List.prefix_nil.mp part)
  · exact Or.inr ⟨u, before, k, chosen, part.trans inBook⟩

/-- A chosen position cannot be lost: the two majorities share a member. -/
theorem Chosen.not_lost [DecidableEq S] (chosen : Chosen stamp a t k) : ¬ Lost a t k := by
  rintro ⟨P, left, past⟩
  obtain ⟨_, Q, right, stored⟩ := chosen
  obtain ⟨v, inP, inQ⟩ := left.meet right
  exact absurd (stored v inQ) (Nat.not_lt.mpr (past v inP).2)

omit [Fintype S] in
theorem Rooted.grows (rooted : Rooted stamp a L) (grows : Grows a b) : Rooted stamp b L :=
  fun k e entry => (rooted k e entry).trans (grows.book _)

omit [Fintype S] [LinearOrder τ] in
theorem Rooted.of_isPrefix (rooted : Rooted stamp a M) (part : L <+: M) : Rooted stamp a L := by
  intro k e entry
  obtain ⟨bound, _⟩ := List.getElem?_eq_some_iff.mp entry
  have same := take_eq_of_isPrefix part (show k + 1 ≤ L.length from bound)
  rw [← same]
  refine rooted k e ?_
  exact getElem?_of_isPrefix (part) entry

omit [Fintype S] [LinearOrder τ] in
/-- Log matching: two rooted logs with the same term at a position agree up
to and including that position. -/
theorem Rooted.agree (left : Rooted stamp a L) (right : Rooted stamp a M) {e f : E}
    (inL : L[k]? = some e) (inM : M[k]? = some f) (same : stamp e = stamp f) :
    L.take (k + 1) = M.take (k + 1) := by
  have first := left k e inL
  have second := right k f inM
  rw [← same] at second
  have boundL := (List.getElem?_eq_some_iff.mp inL).1
  have boundM := (List.getElem?_eq_some_iff.mp inM).1
  have lengths : (L.take (k + 1)).length = (M.take (k + 1)).length := by
    rw [List.length_take, List.length_take]; omega
  exact (List.prefix_of_prefix_length_le first second lengths.le).eq_of_length lengths

/-- The invariant of log replication. The last six fields say where a
position that may still be chosen can be found. -/
structure Inv (stamp : E → τ) (a : State S τ E) : Prop where
  origin_term : ∀ v, a.origin ≤ (a.peer v).term
  origin_candidate : ∀ {v}, (a.peer v).role = .candidate → a.origin < (a.peer v).term
  origin_chief : ∀ {t s}, a.chief t = some s → a.origin < t
  vote_term : ∀ {v t s}, a.vote v t = some s → t ≤ (a.peer v).term
  vote_target : ∀ {v t s}, a.vote v t = some s → t ≤ (a.peer s).term
  asked_term : ∀ {s t L}, a.asked s t L → t ≤ (a.peer s).term
  asked_rooted : ∀ {s t L}, a.asked s t L → Rooted stamp a L
  chief_majority : ∀ {t s}, a.chief t = some s →
    ∃ Q : Finset S, Majority Q ∧ ∀ v ∈ Q, a.vote v t = some s
  chief_term : ∀ {t s}, a.chief t = some s → t ≤ (a.peer s).term
  book_nil : ∀ {t}, a.chief t = none → a.book t = []
  log_rooted : ∀ v, Rooted stamp a (a.peer v).log
  book_rooted : ∀ t, Rooted stamp a (a.book t)
  log_bound : ∀ {v e}, e ∈ (a.peer v).log → stamp e ≤ (a.peer v).term
  book_bound : ∀ {t e}, e ∈ a.book t → stamp e ≤ t
  ack_length : ∀ v t, a.ack v t ≤ (a.book t).length
  ack_term : ∀ {v t}, 0 < a.ack v t → t ≤ (a.peer v).term
  leader_chief : ∀ {s}, (a.peer s).role = .leader → a.chief (a.peer s).term = some s
  leader_book : ∀ {s}, (a.peer s).role = .leader → a.book (a.peer s).term = (a.peer s).log
  leader_ack : ∀ {s}, (a.peer s).role = .leader → a.ack s (a.peer s).term = (a.peer s).log.length
  candidate_chief : ∀ {s}, (a.peer s).role = .candidate → a.chief (a.peer s).term ≠ some s
  ack_kept : ∀ {v t k}, Own stamp a t k → k < a.ack v t → Kept a (a.peer v).log t k
  book_kept : ∀ {u s t k}, a.chief u = some s → t < u → Own stamp a t k → Kept a (a.book u) t k
  asked_kept : ∀ {s L t k}, (a.peer s).role = .candidate → a.asked s (a.peer s).term L →
    t < (a.peer s).term → Own stamp a t k →
    (∃ f ∈ L.getLast?, t < stamp f ∨ t = stamp f ∧ k < L.length) → Kept a (a.peer s).log t k
  vote_kept : ∀ {s v t k}, (a.peer s).role = .candidate → a.vote v (a.peer s).term = some s →
    t < (a.peer s).term → Own stamp a t k → k < a.ack v t → Kept a (a.peer s).log t k

end

end DistSys.Replica
