import DistSys.Core.ReplicaLocal

namespace DistSys.Replica

variable {S τ E : Type*} [Fintype S] [DecidableEq S] [LinearOrder τ] {stamp : E → τ}
variable {a b : State S τ E} {t : τ} {k : Nat} {L P : List E} {s v : S}

omit [DecidableEq S] in
theorem fair_advance (inv : Inv stamp a) (order : (a.peer v).term ≤ t) :
    Fair stamp a v ⟨t, .follower, (a.peer v).log⟩ (a.ack v (a.peer v).term) where
  later := order
  more := le_rfl
  inBook := inv.ack_length _ _
  rooted := inv.log_rooted v
  bound _ member := (inv.log_bound member).trans order
  kept _ _ kept := kept
  stored own small := inv.ack_kept own small
  role := Or.inl rfl

theorem fair_install (inv : Inv stamp a) (settled : Committed stamp a (a.peer v).term P) :
    Fair stamp a v ⟨(a.peer v).term, (a.peer v).role, adopt P (a.peer v).log⟩
      (a.ack v (a.peer v).term) where
  later := le_rfl
  more := le_rfl
  inBook := inv.ack_length _ _
  rooted := by
    unfold adopt
    split
    · exact inv.log_rooted v
    · exact inv.committed_rooted settled
  bound := by
    intro e member
    unfold adopt at member
    split at member
    · exact inv.log_bound member
    · rcases settled with rfl | ⟨u, before, k, chosen, part⟩
      · simp at member
      · exact (inv.book_bound ((part.trans (List.take_prefix _ _)).mem member)).trans before
  kept own _ kept := inv.kept_adopt_committed settled own kept
  stored own small := inv.kept_adopt_committed settled own (inv.ack_kept own small)
  role := by
    refine Or.inr ⟨rfl, rfl, rfl, fun leads => ?_⟩
    have part := inv.committed_prefix_book settled (inv.leader_chief leads) le_rfl
    rw [inv.leader_book leads] at part
    exact adopt_of_isPrefix part

omit [DecidableEq S] in
theorem fair_accept (inv : Inv stamp a) (inBook : k ≤ (a.book (a.peer v).term).length) :
    Fair stamp a v ⟨(a.peer v).term, .follower,
      adopt ((a.book (a.peer v).term).take k) (a.peer v).log⟩ (max (a.ack v (a.peer v).term) k) where
  later := le_rfl
  more := le_max_left _ _
  inBook := max_le (inv.ack_length _ _) inBook
  rooted := by
    unfold adopt
    split
    · exact inv.log_rooted v
    · exact (inv.book_rooted _).of_isPrefix (List.take_prefix _ _)
  bound := by
    intro e member
    unfold adopt at member
    split at member
    · exact inv.log_bound member
    · exact inv.book_bound ((List.take_prefix _ _).mem member)
  kept := by
    intro t m own reached kept
    cases chief : a.chief (a.peer v).term with
    | none =>
      rw [inv.book_nil chief, List.take_nil, adopt_of_isPrefix List.nil_prefix]
      exact kept
    | some s => exact inv.kept_adopt_book chief reached inBook own kept
  stored := by
    intro m own small
    rcases lt_max_iff.mp small with old | new
    · obtain ⟨s, chief⟩ := inv.own_chief own
      exact inv.kept_adopt_book chief le_rfl inBook own (inv.ack_kept own old)
    · refine Or.inl (List.IsPrefix.trans ?_ (prefix_adopt _ _))
      exact List.take_prefix_take_left (by omega)
  role := Or.inl rfl

omit [Fintype S] in
theorem vote_of_setVote {w x : S} {u : τ} (voted : (a.setVote v t s).vote w u = some x) :
    a.vote w u = some x ∨ w = v ∧ u = t ∧ x = s := by
  unfold State.setVote at voted
  by_cases here : w = v
  · subst here
    by_cases now : u = t
    · subst now
      simp only [Function.update_self, Option.some.injEq] at voted
      exact Or.inr ⟨rfl, rfl, voted.symm⟩
    · simp only [Function.update_self, Function.update_of_ne now] at voted
      exact Or.inl voted
  · simp only [Function.update_of_ne here] at voted
    exact Or.inl voted

theorem grows_campaign (inv : Inv stamp a) (order : (a.peer v).term < t) :
    Grows a ((a.setPeer v ⟨t, .candidate, (a.peer v).log⟩).setVote v t v) where
  origin := rfl
  term w := by
    simp only [State.setVote, State.setPeer, Function.update_apply]
    split
    next here => subst here; exact order.le
    next => exact le_rfl
  vote w u s voted := by
    simp only [State.setVote, State.setPeer, Function.update_apply]
    by_cases here : w = v
    · subst here
      have earlier := inv.vote_term voted
      have differs : u ≠ t := fun same => absurd earlier (not_le.mpr (same ▸ order))
      simpa [differs] using voted
    · simpa [here] using voted
  asked _ _ _ h := h
  chief _ _ h := h
  book _ := List.prefix_rfl
  ack _ _ := le_rfl
  frozen _ _ _ := rfl

theorem Inv.campaign (inv : Inv stamp a) (order : (a.peer v).term < t) :
    Inv stamp ((a.setPeer v ⟨t, .candidate, (a.peer v).log⟩).setVote v t v) := by
  have grows := grows_campaign inv order
  set b := (a.setPeer v ⟨t, .candidate, (a.peer v).log⟩).setVote v t v with hb
  have peer (w : S) : b.peer w = if w = v then ⟨t, .candidate, (a.peer v).log⟩ else a.peer w := by
    simp only [hb, State.setVote, State.setPeer, Function.update_apply]
  have vote {w u s} (voted : b.vote w u = some s) : a.vote w u = some s ∨ w = v ∧ u = t ∧ s = v :=
    vote_of_setVote voted
  have log (w : S) : (b.peer w).log = (a.peer w).log := by
    rw [peer]
    split
    next here => rw [here]
    next => rfl
  have atV : b.peer v = ⟨t, .candidate, (a.peer v).log⟩ := by rw [peer, if_pos rfl]
  have elsewhere {w : S} (away : w ≠ v) : b.peer w = a.peer w := by rw [peer, if_neg away]
  have away_of_leader {w : S} (leads : (b.peer w).role = .leader) : w ≠ v := by
    rintro rfl
    rw [atV] at leads
    exact Role.noConfusion leads
  constructor
  case origin_term => exact fun w => (inv.origin_term w).trans (grows.term w)
  case origin_candidate =>
    intro w runs
    by_cases here : w = v
    · subst here
      rw [atV]
      exact (inv.origin_term w).trans_lt order
    · rw [elsewhere here] at runs ⊢
      exact inv.origin_candidate runs
  case origin_chief => exact inv.origin_chief
  case vote_term =>
    intro w u s voted
    rcases vote voted with old | ⟨rfl, rfl, rfl⟩
    · exact (inv.vote_term old).trans (grows.term w)
    · rw [atV]
  case vote_target =>
    intro w u s voted
    rcases vote voted with old | ⟨rfl, rfl, rfl⟩
    · exact (inv.vote_target old).trans (grows.term s)
    · rw [atV]
  case asked_term => exact fun asked => (inv.asked_term asked).trans (grows.term _)
  case asked_rooted => exact fun asked => (inv.asked_rooted asked).grows grows
  case chief_majority =>
    intro u s chief
    obtain ⟨Q, major, voted⟩ := inv.chief_majority chief
    exact ⟨Q, major, fun w member => grows.vote _ _ _ (voted w member)⟩
  case chief_term => exact fun chief => (inv.chief_term chief).trans (grows.term _)
  case book_nil => exact inv.book_nil
  case log_rooted =>
    intro w
    rw [log]
    exact (inv.log_rooted w).grows grows
  case book_rooted => exact fun u => (inv.book_rooted u).grows grows
  case log_bound =>
    intro w e member
    rw [log] at member
    exact (inv.log_bound member).trans (grows.term w)
  case book_bound => exact inv.book_bound
  case ack_length => exact inv.ack_length
  case ack_term => exact fun positive => (inv.ack_term positive).trans (grows.term _)
  case leader_chief =>
    intro w leads
    have away := away_of_leader leads
    rw [elsewhere away] at leads ⊢
    exact inv.leader_chief leads
  case leader_book =>
    intro w leads
    have away := away_of_leader leads
    rw [elsewhere away] at leads ⊢
    exact inv.leader_book leads
  case leader_ack =>
    intro w leads
    have away := away_of_leader leads
    rw [elsewhere away] at leads ⊢
    exact inv.leader_ack leads
  case candidate_chief =>
    intro w runs
    by_cases here : w = v
    · subst here
      rw [atV]
      exact fun chief => absurd (inv.chief_term chief) (not_le.mpr order)
    · rw [elsewhere here] at runs ⊢
      exact inv.candidate_chief runs
  case ack_kept =>
    intro w u k own small
    rw [log]
    exact (inv.ack_kept own small).grows own grows
  case book_kept => exact fun chief earlier own => (inv.book_kept chief earlier own).grows own grows
  case asked_kept =>
    intro w L u k runs asked earlier own late
    by_cases here : w = v
    · -- nothing was presented in the new term yet
      subst here
      rw [atV] at asked
      exact absurd (inv.asked_term asked) (not_le.mpr order)
    · rw [elsewhere here] at runs asked earlier ⊢
      exact (inv.asked_kept runs asked earlier own late).grows own grows
  case vote_kept =>
    intro w x u k runs voted earlier own small
    by_cases here : w = v
    · subst here
      rw [atV] at voted earlier
      rcases vote voted with old | ⟨rfl, _, _⟩
      · exact absurd (inv.vote_target old) (not_le.mpr order)
      · rw [log]
        exact (inv.ack_kept own small).grows own grows
    · rw [elsewhere here] at runs voted earlier ⊢
      rcases vote voted with old | ⟨_, _, same⟩
      · exact (inv.vote_kept runs old earlier own small).grows own grows
      · exact absurd same here

omit [Fintype S] [DecidableEq S] in
theorem grows_ask (a : State S τ E) (v : S) (t : τ) :
    Grows a { a with asked := fun s u L => a.asked s u L ∨ s = v ∧ u = t ∧ L = (a.peer v).log } :=
  ⟨rfl, fun _ => le_rfl, fun _ _ _ h => h, fun _ _ _ h => Or.inl h, fun _ _ h => h,
    fun _ => List.prefix_rfl, fun _ _ => le_rfl, fun _ _ _ => rfl⟩

omit [DecidableEq S] in
theorem Inv.ask (inv : Inv stamp a) (order : t ≤ (a.peer v).term) :
    Inv stamp { a with asked := fun s u L => a.asked s u L ∨ s = v ∧ u = t ∧ L = (a.peer v).log } := by
  have grows := grows_ask a v t
  exact { inv with
    asked_term := by
      rintro s u L (old | ⟨rfl, rfl, rfl⟩)
      · exact inv.asked_term old
      · exact order
    asked_rooted := by
      rintro s u L (old | ⟨rfl, rfl, rfl⟩)
      · exact (inv.asked_rooted old).grows grows
      · exact (inv.log_rooted s).grows grows
    asked_kept := by
      rintro s L u k runs (old | ⟨rfl, _, rfl⟩) earlier own late
      · exact (inv.asked_kept runs old earlier own late).grows own grows
      · obtain ⟨f, last, later⟩ := late
        exact (inv.kept_of_last (inv.log_rooted s) own last later).grows own grows }

omit [Fintype S] in
theorem grows_grant (free : a.vote v (a.peer v).term = none ∨ a.vote v (a.peer v).term = some s) :
    Grows a (a.setVote v (a.peer v).term s) where
  origin := rfl
  term _ := le_rfl
  vote w u x voted := by
    simp only [State.setVote, Function.update_apply]
    by_cases here : w = v
    · subst here
      by_cases now : u = (a.peer w).term
      · subst now
        rw [voted] at free
        simp only [reduceCtorEq, Option.some.injEq, false_or] at free
        simp [free]
      · simpa [now] using voted
    · simpa [here] using voted
  asked _ _ _ h := h
  chief _ _ h := h
  book _ := List.prefix_rfl
  ack _ _ := le_rfl
  frozen _ _ _ := rfl

theorem Inv.grant (inv : Inv stamp a) (asked : a.asked s (a.peer v).term L)
    (free : a.vote v (a.peer v).term = none ∨ a.vote v (a.peer v).term = some s)
    (fresh : UpToDate stamp L (a.peer v).log) : Inv stamp (a.setVote v (a.peer v).term s) := by
  have grows := grows_grant free
  have vote {w u x} (voted : (a.setVote v (a.peer v).term s).vote w u = some x) :
      a.vote w u = some x ∨ w = v ∧ u = (a.peer v).term ∧ x = s :=
    vote_of_setVote voted
  exact { inv with
    vote_term := by
      intro w u x voted
      rcases vote voted with old | ⟨rfl, rfl, rfl⟩
      · exact inv.vote_term old
      · exact le_rfl
    vote_target := by
      intro w u x voted
      rcases vote voted with old | ⟨rfl, rfl, rfl⟩
      · exact inv.vote_target old
      · exact inv.asked_term asked
    chief_majority := by
      intro u x chief
      obtain ⟨Q, major, voted⟩ := inv.chief_majority chief
      exact ⟨Q, major, fun w member => grows.vote _ _ _ (voted w member)⟩
    vote_kept := by
      intro x w u k runs voted earlier own small
      rcases vote voted with old | ⟨rfl, now, rfl⟩
      · exact (inv.vote_kept runs old earlier own small).grows own grows
      · -- the voter's own log passes the position on to the log that was presented
        have own' : Own stamp a u k := own
        refine Kept.grows ?_ own' grows
        rcases inv.ack_kept own small with part | lost
        · obtain ⟨e, last, reached, long⟩ := inv.last_of_isPrefix own (inv.log_rooted w) part
          obtain ⟨f, lastL, order⟩ := fresh e last
          rw [← now] at asked
          refine inv.asked_kept runs asked earlier own ⟨f, lastL, ?_⟩
          rcases order with above | ⟨same, length⟩
          · exact Or.inl (reached.trans_lt above)
          · rcases reached.lt_or_eq with above | equal
            · exact Or.inl (above.trans_eq same)
            · exact Or.inr ⟨equal.trans same, long.trans_le length⟩
        · exact Or.inr lost }

end DistSys.Replica
