import DistSys.Core.ReplicaSafety

namespace DistSys.Replica

variable {S τ E : Type*} [DecidableEq S] [LinearOrder τ] {stamp : E → τ}
variable {a b : State S τ E} {t : τ} {k n : Nat} {L P : List E} {p : Peer τ E} {s v : S}

/-- Member `v` becomes `p` and has stored `n` positions of its term's book. -/
def State.revise (a : State S τ E) (v : S) (p : Peer τ E) (n : Nat) : State S τ E :=
  (a.setPeer v p).setAck v (a.peer v).term n

theorem State.revise_ack (a : State S τ E) (v : S) (p : Peer τ E) :
    a.revise v p (a.ack v (a.peer v).term) = a.setPeer v p := by
  unfold State.revise State.setAck State.setPeer
  simp only [Function.update_eq_self]

theorem State.revise_peer (a : State S τ E) (v w : S) (p : Peer τ E) (n : Nat) :
    (a.revise v p n).peer w = if w = v then p else a.peer w := by
  simp only [State.revise, State.setPeer, State.setAck, Function.update_apply]

theorem State.setAck_ack (a : State S τ E) (v w : S) (t u : τ) (n : Nat) :
    (a.setAck v t n).ack w u = if w = v ∧ u = t then n else a.ack w u := by
  simp only [State.setAck, Function.update_apply]
  by_cases here : w = v
  · subst here
    by_cases now : u = t <;> simp [now]
  · simp [here]

theorem State.revise_ack_apply (a : State S τ E) (v w : S) (p : Peer τ E) (n : Nat) (t : τ) :
    (a.revise v p n).ack w t = if w = v ∧ t = (a.peer v).term then n else a.ack w t :=
  (a.setPeer v p).setAck_ack v w _ t n

theorem grows_revise (later : (a.peer v).term ≤ p.term) (more : a.ack v (a.peer v).term ≤ n) :
    Grows a (a.revise v p n) where
  origin := rfl
  term w := by
    rw [State.revise_peer]
    split
    next here => rw [here]; exact later
    next => exact le_rfl
  vote _ _ _ h := h
  asked _ _ _ h := h
  chief _ _ h := h
  book _ := List.prefix_rfl
  ack w t := by
    rw [State.revise_ack_apply]
    split
    next here => rw [here.1, here.2]; exact more
    next => exact le_rfl
  frozen w t past := by
    rw [State.revise_ack_apply, if_neg]
    rintro ⟨rfl, rfl⟩
    exact lt_irrefl _ past

variable [Fintype S]

/-- What a change of one member has to respect: its log stays rooted, keeps
every position that may still be chosen, and stays put while it leads. -/
structure Fair (stamp : E → τ) (a : State S τ E) (v : S) (p : Peer τ E) (n : Nat) : Prop where
  later : (a.peer v).term ≤ p.term
  more : a.ack v (a.peer v).term ≤ n
  inBook : n ≤ (a.book (a.peer v).term).length
  rooted : Rooted stamp a p.log
  bound : ∀ e ∈ p.log, stamp e ≤ p.term
  kept : ∀ {t k}, Own stamp a t k → t ≤ (a.peer v).term → Kept a (a.peer v).log t k → Kept a p.log t k
  stored : ∀ {k}, Own stamp a (a.peer v).term k → k < n → Kept a p.log (a.peer v).term k
  role : p.role = .follower ∨
    p.role = (a.peer v).role ∧ p.term = (a.peer v).term ∧ n = a.ack v (a.peer v).term ∧
      ((a.peer v).role = .leader → p.log = (a.peer v).log)

theorem Inv.revise (inv : Inv stamp a) (fair : Fair stamp a v p n) :
    Inv stamp (a.revise v p n) := by
  have grows : Grows a (a.revise v p n) := grows_revise fair.later fair.more
  have keep {w : S} {t : τ} {k : Nat} (own : Own stamp a t k) (reached : t ≤ (a.peer w).term)
      (kept : Kept a (a.peer w).log t k) : Kept (a.revise v p n) ((a.revise v p n).peer w).log t k := by
    rw [State.revise_peer]
    split
    next here => subst here; exact (fair.kept own reached kept).grows own grows
    next => exact kept.grows own grows
  -- a member that is not a plain follower afterwards was already in that role and term
  have steady {w : S} (active : ((a.revise v p n).peer w).role ≠ .follower) :
      ((a.revise v p n).peer w).role = (a.peer w).role ∧
        ((a.revise v p n).peer w).term = (a.peer w).term := by
    rw [State.revise_peer] at active ⊢
    split at active
    next here =>
      subst here
      rcases fair.role with idle | ⟨role, term, _⟩
      · exact absurd idle active
      · simp only [if_true]
        exact ⟨role, term⟩
    next elsewhere =>
      simp only [if_neg elsewhere]
      trivial
  constructor
  case origin_term => exact fun w => (inv.origin_term w).trans (grows.term w)
  case origin_candidate =>
    intro w runs
    obtain ⟨role, term⟩ := steady (by rw [runs]; exact Role.noConfusion)
    rw [term]
    exact inv.origin_candidate (role.symm.trans runs)
  case origin_chief => exact inv.origin_chief
  case vote_term => exact fun voted => (inv.vote_term voted).trans (grows.term _)
  case vote_target => exact fun voted => (inv.vote_target voted).trans (grows.term _)
  case asked_term => exact fun asked => (inv.asked_term asked).trans (grows.term _)
  case asked_rooted => exact fun asked => (inv.asked_rooted asked).grows grows
  case chief_majority => exact inv.chief_majority
  case chief_term => exact fun chief => (inv.chief_term chief).trans (grows.term _)
  case book_nil => exact inv.book_nil
  case log_rooted =>
    intro w
    rw [State.revise_peer]
    split
    · exact fair.rooted.grows grows
    · exact (inv.log_rooted w).grows grows
  case book_rooted => exact fun t => (inv.book_rooted t).grows grows
  case log_bound =>
    intro w e member
    rw [State.revise_peer] at member ⊢
    split at member
    next here => rw [if_pos here]; exact fair.bound e member
    next elsewhere => rw [if_neg elsewhere]; exact inv.log_bound member
  case book_bound => exact inv.book_bound
  case ack_length =>
    intro w t
    rw [State.revise_ack_apply]
    split
    next here => rw [here.2]; exact fair.inBook
    next => exact inv.ack_length w t
  case ack_term =>
    intro w t positive
    rw [State.revise_ack_apply] at positive
    split at positive
    next here =>
      obtain ⟨rfl, rfl⟩ := here
      exact grows.term w
    next => exact (inv.ack_term positive).trans (grows.term w)
  case leader_chief =>
    intro w leads
    obtain ⟨role, term⟩ := steady (by rw [leads]; exact Role.noConfusion)
    rw [term]
    exact inv.leader_chief (role.symm.trans leads)
  case leader_book =>
    intro w leads
    obtain ⟨role, term⟩ := steady (by rw [leads]; exact Role.noConfusion)
    have old := inv.leader_book (role.symm.trans leads)
    rw [term]
    refine old.trans ?_
    rw [State.revise_peer] at leads ⊢
    split
    next here =>
      subst here
      rw [if_pos rfl] at leads
      rcases fair.role with idle | ⟨same, _, _, fixed⟩
      · rw [idle] at leads; exact Role.noConfusion leads
      · exact (fixed (same.symm.trans leads)).symm
    next => rfl
  case leader_ack =>
    intro w leads
    obtain ⟨role, term⟩ := steady (by rw [leads]; exact Role.noConfusion)
    have old := inv.leader_ack (role.symm.trans leads)
    rw [term, State.revise_ack_apply]
    rw [State.revise_peer] at leads ⊢
    split at leads
    next here =>
      subst here
      rcases fair.role with idle | ⟨same, _, count, fixed⟩
      · rw [idle] at leads; exact Role.noConfusion leads
      · rw [if_pos rfl, if_pos ⟨rfl, rfl⟩, fixed (same.symm.trans leads), count]
        exact old
    next elsewhere =>
      rw [if_neg elsewhere, if_neg (fun both => elsewhere both.1)]
      exact old
  case candidate_chief =>
    intro w runs
    obtain ⟨role, term⟩ := steady (by rw [runs]; exact Role.noConfusion)
    rw [term]
    exact inv.candidate_chief (role.symm.trans runs)
  case ack_kept =>
    intro w t k own small
    have own' : Own stamp a t k := own
    rw [State.revise_ack_apply] at small
    split at small
    next here =>
      obtain ⟨rfl, rfl⟩ := here
      have kept := (fair.stored own' small).grows own' grows
      rw [State.revise_peer, if_pos rfl]
      exact kept
    next =>
      exact keep own' (inv.ack_term (Nat.zero_lt_of_lt small)) (inv.ack_kept own' small)
  case book_kept =>
    intro u s t k chief order own
    exact (inv.book_kept chief order own).grows own grows
  case asked_kept =>
    intro w L t k runs asked order own late
    obtain ⟨role, term⟩ := steady (by rw [runs]; exact Role.noConfusion)
    rw [term] at asked order
    exact keep own order.le (inv.asked_kept (role.symm.trans runs) asked order own late)
  case vote_kept =>
    intro w x t k runs voted order own small
    obtain ⟨role, term⟩ := steady (by rw [runs]; exact Role.noConfusion)
    rw [term] at voted order
    have own' : Own stamp a t k := own
    have old : k < a.ack x t := by
      rw [State.revise_ack_apply] at small
      split at small
      next here =>
        -- a voter of the candidate's term has left every earlier term
        obtain ⟨rfl, rfl⟩ := here
        exact absurd (inv.vote_term voted) (not_le.mpr order)
      next => exact small
    exact keep own order.le (inv.vote_kept (role.symm.trans runs) voted order own' old)

end DistSys.Replica
