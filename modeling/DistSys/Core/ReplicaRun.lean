import DistSys.Core.ReplicaLead
import Mathlib.Logic.Relation

namespace DistSys.Replica

variable {S τ E : Type*} [Fintype S] [DecidableEq S] [LinearOrder τ] {stamp : E → τ}
variable {a b c : State S τ E} {t : τ} {v w : S}

/-- Nothing has happened yet. -/
def State.initial (S E : Type*) {τ : Type*} (origin : τ) : State S τ E where
  origin := origin
  peer _ := ⟨origin, .follower, []⟩
  vote _ _ := none
  asked _ _ _ := False
  chief _ := none
  book _ := []
  ack _ _ := 0

omit [DecidableEq S] in
theorem Inv.initial (origin : τ) : Inv stamp (State.initial S E origin) where
  origin_term _ := le_rfl
  origin_candidate runs := by cases runs
  origin_chief chief := by cases chief
  vote_term vote := by cases vote
  vote_target vote := by cases vote
  asked_term asked := asked.elim
  asked_rooted asked := asked.elim
  chief_majority chief := by cases chief
  chief_term chief := by cases chief
  book_nil _ := rfl
  log_rooted _ _ _ entry := by cases entry
  book_rooted _ _ _ entry := by cases entry
  log_bound member := by cases member
  book_bound member := by cases member
  ack_length _ _ := le_rfl
  ack_term positive := absurd positive (lt_irrefl 0)
  leader_chief leads := by cases leads
  leader_book leads := by cases leads
  leader_ack leads := by cases leads
  candidate_chief runs := by cases runs
  ack_kept _ positive := absurd positive (Nat.not_lt_zero _)
  book_kept chief := by cases chief
  asked_kept runs := by cases runs
  vote_kept runs := by cases runs

theorem Step.inv_grows (step : Step stamp v a b) (inv : Inv stamp a) : Inv stamp b ∧ Grows a b := by
  cases step with
  | advance order =>
    have fair := fair_advance inv order.le
    rw [← State.revise_ack]
    exact ⟨inv.revise fair, grows_revise fair.later fair.more⟩
  | stepDown =>
    have fair := fair_advance inv (le_refl (a.peer v).term)
    rw [← State.revise_ack]
    exact ⟨inv.revise fair, grows_revise fair.later fair.more⟩
  | campaign order => exact ⟨inv.campaign order, grows_campaign inv order⟩
  | ask order => exact ⟨inv.ask order, grows_ask a v _⟩
  | grant asked free fresh => exact ⟨inv.grant asked free fresh, grows_grant free⟩
  | elect runs major voted =>
    have due := entitled_crown inv runs major voted
    exact ⟨inv.lead due, grows_lead inv due⟩
  | append leads written =>
    have due := entitled_write inv leads written
    rw [inv.write_eq_lead leads]
    exact ⟨inv.lead due, grows_lead inv due⟩
  | accept _ inBook =>
    have fair := fair_accept inv inBook
    exact ⟨inv.revise fair, grows_revise fair.later fair.more⟩
  | install settled =>
    have fair := fair_install inv settled
    rw [← State.revise_ack]
    exact ⟨inv.revise fair, grows_revise fair.later fair.more⟩

/-- A step of one member leaves the state and the votes of all others alone. -/
theorem Step.frame (step : Step stamp v a b) (away : w ≠ v) :
    b.peer w = a.peer w ∧ b.vote w = a.vote w := by
  cases step <;>
    simp only [State.setPeer, State.setVote, State.setAck, State.crown, State.write,
      Function.update_of_ne away, and_self]

/-- What is newly stored is stored by the acting member, in its present term
and in its present log. -/
def Stored (v : S) (a b : State S τ E) : Prop :=
  ∀ w t, b.ack w t = a.ack w t ∨
    w = v ∧ t = (b.peer v).term ∧ (b.book t).take (b.ack v t) <+: (b.peer v).log

omit [Fintype S] in
theorem stored_lead (a : State S τ E) (v : S) (L : List E) : Stored v a (a.lead v L) := by
  intro w t
  by_cases here : w = v ∧ t = (a.peer v).term
  · obtain ⟨rfl, rfl⟩ := here
    refine Or.inr ⟨rfl, (State.lead_term a w w L).symm, ?_⟩
    rw [State.lead_self, State.lead_book]
    exact List.take_prefix _ _
  · exact Or.inl (by rw [State.lead_ack, if_neg here])

theorem Step.stored (step : Step stamp v a b) : Stored v a b := by
  intro w t
  cases step with
  | advance | stepDown | campaign | ask | grant | install => exact Or.inl rfl
  | elect => exact stored_lead a v _ w t
  | append =>
    rw [State.write_eq]
    exact stored_lead a v _ w t
  | @accept k follows inBook =>
    change (a.revise v _ _).ack w t = _ ∨ _ = _ ∧ _ = ((a.revise v _ _).peer v).term ∧
      ((a.revise v _ _).book t).take ((a.revise v _ _).ack v t) <+: ((a.revise v _ _).peer v).log
    rw [State.revise_peer, if_pos rfl, State.revise_ack_apply]
    by_cases here : w = v ∧ t = (a.peer v).term
    · obtain ⟨rfl, rfl⟩ := here
      rcases le_total k (a.ack w (a.peer w).term) with small | large
      · left
        rw [if_pos ⟨rfl, rfl⟩, max_eq_left small]
      · right
        rw [State.revise_ack_apply, if_pos ⟨rfl, rfl⟩, max_eq_right large]
        exact ⟨rfl, rfl, prefix_adopt _ _⟩
    · exact Or.inl (by rw [if_neg here])

/-- One member makes some steps, the last of which is the only one that may
store anything. -/
structure Moved (stamp : E → τ) (v : S) (a b : State S τ E) : Prop where
  path : Relation.ReflTransGen (Step stamp v) a b
  stored : Stored v a b

theorem Moved.refl (v : S) (a : State S τ E) : Moved stamp v a a :=
  ⟨.refl, fun _ _ => Or.inl rfl⟩

theorem Step.moved (step : Step stamp v a b) : Moved stamp v a b :=
  ⟨.single step, step.stored⟩

theorem Moved.after (rest : Moved stamp v b c) (first : Moved stamp v a b)
    (quiet : b.ack = a.ack) : Moved stamp v a c := by
  refine ⟨first.path.trans rest.path, fun w t => ?_⟩
  rw [← quiet]
  exact rest.stored w t

theorem Moved.inv_grows (moved : Moved stamp v a b) (inv : Inv stamp a) :
    Inv stamp b ∧ Grows a b := by
  have path := moved.path
  clear moved
  induction path with
  | refl => exact ⟨inv, Grows.refl a⟩
  | tail _ step ih =>
    obtain ⟨next, more⟩ := step.inv_grows ih.1
    exact ⟨next, ih.2.trans more⟩

theorem Moved.frame (moved : Moved stamp v a b) (away : w ≠ v) :
    b.peer w = a.peer w ∧ b.vote w = a.vote w := by
  have path := moved.path
  clear moved
  induction path with
  | refl => exact ⟨rfl, rfl⟩
  | tail _ step ih =>
    obtain ⟨peer, vote⟩ := step.frame away
    exact ⟨peer.trans ih.1, vote.trans ih.2⟩

end DistSys.Replica
