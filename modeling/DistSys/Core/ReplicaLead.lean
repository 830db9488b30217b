import DistSys.Core.Exec
import DistSys.Core.ReplicaStep

namespace DistSys.Replica

variable {S τ E : Type*} [DecidableEq S] [LinearOrder τ] {stamp : E → τ}
variable {a : State S τ E} {t u : τ} {k : Nat} {L : List E} {e : E} {s v w : S}

/-- Member `v` leads its term with the log `L`. Winning an election and writing
an entry are both of this form. -/
def State.lead (a : State S τ E) (v : S) (L : List E) : State S τ E where
  origin := a.origin
  peer := Function.update a.peer v ⟨(a.peer v).term, .leader, L⟩
  vote := a.vote
  asked := a.asked
  chief := Function.update a.chief (a.peer v).term (some v)
  book := Function.update a.book (a.peer v).term L
  ack := Function.update a.ack v (Function.update (a.ack v) (a.peer v).term L.length)

theorem State.lead_self (a : State S τ E) (v : S) (L : List E) :
    (a.lead v L).peer v = ⟨(a.peer v).term, .leader, L⟩ := by
  simp only [State.lead, Function.update_self]

theorem State.lead_of_ne (a : State S τ E) (L : List E) (away : w ≠ v) :
    (a.lead v L).peer w = a.peer w := by
  simp only [State.lead, Function.update_of_ne away]

theorem State.lead_term (a : State S τ E) (v w : S) (L : List E) :
    ((a.lead v L).peer w).term = (a.peer w).term := by
  by_cases here : w = v
  · rw [here, State.lead_self]
  · rw [State.lead_of_ne a L here]

theorem State.lead_chief (a : State S τ E) (v : S) (L : List E) :
    (a.lead v L).chief (a.peer v).term = some v := by
  simp only [State.lead, Function.update_self]

theorem State.lead_chief_of_ne (a : State S τ E) (L : List E) (other : t ≠ (a.peer v).term) :
    (a.lead v L).chief t = a.chief t := by
  simp only [State.lead, Function.update_of_ne other]

theorem State.lead_book (a : State S τ E) (v : S) (L : List E) :
    (a.lead v L).book (a.peer v).term = L := by
  simp only [State.lead, Function.update_self]

theorem State.lead_book_of_ne (a : State S τ E) (L : List E) (other : t ≠ (a.peer v).term) :
    (a.lead v L).book t = a.book t := by
  simp only [State.lead, Function.update_of_ne other]

theorem State.lead_ack (a : State S τ E) (v w : S) (L : List E) (t : τ) :
    (a.lead v L).ack w t = if w = v ∧ t = (a.peer v).term then L.length else a.ack w t :=
  a.setAck_ack v w _ t _

theorem State.ne_of_lead_candidate (runs : ((a.lead v L).peer w).role = .candidate) : w ≠ v := by
  rintro rfl
  rw [State.lead_self] at runs
  exact Role.noConfusion runs

variable [Fintype S]

/-- What a member needs to lead its term with the log `L`: a majority that voted
for it, and a log that extends what it had and holds every position of an
earlier term that may still be chosen. -/
structure Entitled (stamp : E → τ) (a : State S τ E) (v : S) (L : List E) : Prop where
  origin : a.origin < (a.peer v).term
  backed : ∃ Q : Finset S, Majority Q ∧ ∀ w ∈ Q, a.vote w (a.peer v).term = some v
  book : a.book (a.peer v).term <+: L
  log : (a.peer v).log <+: L
  rooted : ∀ k e, L[k]? = some e → stamp e ≠ (a.peer v).term → L.take (k + 1) <+: a.book (stamp e)
  bound : ∀ e ∈ L, stamp e ≤ (a.peer v).term
  kept : ∀ {t k}, t < (a.peer v).term → Own stamp a t k → Kept a L t k

/-- A term has one winner: another one would share a voter with it. -/
theorem Inv.chief_eq (inv : Inv stamp a)
    (backed : ∃ Q : Finset S, Majority Q ∧ ∀ w ∈ Q, a.vote w t = some v)
    (chief : a.chief t = some s) : s = v := by
  obtain ⟨Q, major, voted⟩ := backed
  obtain ⟨P, other, chosen⟩ := inv.chief_majority chief
  obtain ⟨w, inP, inQ⟩ := other.meet major
  exact Option.some.inj ((chosen w inP).symm.trans (voted w inQ))

theorem grows_lead (inv : Inv stamp a) (due : Entitled stamp a v L) : Grows a (a.lead v L) where
  origin := rfl
  term w := (State.lead_term a v w L).ge
  vote _ _ _ h := h
  asked _ _ _ h := h
  chief t s chief := by
    by_cases now : t = (a.peer v).term
    · subst now
      rw [State.lead_chief, inv.chief_eq due.backed chief]
    · rwa [State.lead_chief_of_ne a L now]
  book t := by
    by_cases now : t = (a.peer v).term
    · subst now
      rw [State.lead_book]
      exact due.book
    · rw [State.lead_book_of_ne a L now]
  ack w t := by
    rw [State.lead_ack]
    split
    next here =>
      rw [here.1, here.2]
      exact (inv.ack_length v _).trans due.book.length_le
    next => exact le_rfl
  frozen w t past := by
    rw [State.lead_ack, if_neg]
    rintro ⟨rfl, rfl⟩
    exact lt_irrefl _ past

/-- Only what lies past the old book is a new position of the term. -/
theorem Entitled.own_lead (due : Entitled stamp a v L) (own : Own stamp (a.lead v L) t k) :
    Own stamp a t k ∨ t = (a.peer v).term ∧ (a.book (a.peer v).term).length ≤ k := by
  obtain ⟨f, entry, written⟩ := own
  by_cases now : t = (a.peer v).term
  · subst now
    rw [State.lead_book] at entry
    rcases Nat.lt_or_ge k (a.book (a.peer v).term).length with old | new
    · have inBook := List.getElem?_eq_getElem old
      have same := (getElem?_of_isPrefix due.book inBook).symm.trans entry
      exact Or.inl ⟨f, inBook.trans same, written⟩
    · exact Or.inr ⟨rfl, new⟩
  · rw [State.lead_book_of_ne a L now] at entry
    exact Or.inl ⟨f, entry, written⟩

omit [DecidableEq S] in
/-- A position written after a later leader was elected is lost at once. -/
theorem Inv.lost_of_length (inv : Inv stamp a) (chief : a.chief u = some s) (order : t < u)
    (new : (a.book t).length ≤ k) : Lost a t k :=
  inv.lost_of_ack chief order fun w _ => (inv.ack_length w t).trans new

theorem Inv.lead (inv : Inv stamp a) (due : Entitled stamp a v L) : Inv stamp (a.lead v L) := by
  have grows := grows_lead inv due
  -- another leader is in another term
  have away_term {w : S} (away : w ≠ v) (leads : (a.peer w).role = .leader) :
      (a.peer w).term ≠ (a.peer v).term := by
    intro same
    have chief := inv.leader_chief leads
    rw [same] at chief
    exact away (inv.chief_eq due.backed chief)
  have rooted : Rooted stamp (a.lead v L) L := by
    intro k f entry
    by_cases now : stamp f = (a.peer v).term
    · rw [now, State.lead_book]
      exact List.take_prefix _ _
    · exact (due.rooted k f entry now).trans (grows.book _)
  -- nobody has stored a position that is only written now
  have fresh {w : S} {k : Nat} (new : (a.book (a.peer v).term).length ≤ k) :
      ¬ k < a.ack w (a.peer v).term :=
    Nat.not_lt.mpr ((inv.ack_length w _).trans new)
  constructor
  case origin_term => exact fun w => (inv.origin_term w).trans (grows.term w)
  case origin_candidate =>
    intro w runs
    have away := State.ne_of_lead_candidate runs
    rw [State.lead_of_ne a L away] at runs ⊢
    exact inv.origin_candidate runs
  case origin_chief =>
    intro u s chief
    by_cases now : u = (a.peer v).term
    · subst now
      exact due.origin
    · rw [State.lead_chief_of_ne a L now] at chief
      exact inv.origin_chief chief
  case vote_term => exact fun h => (inv.vote_term h).trans (grows.term _)
  case vote_target => exact fun h => (inv.vote_target h).trans (grows.term _)
  case asked_term => exact fun h => (inv.asked_term h).trans (grows.term _)
  case asked_rooted => exact fun h => (inv.asked_rooted h).grows grows
  case chief_majority =>
    intro u s chief
    by_cases now : u = (a.peer v).term
    · subst now
      rw [State.lead_chief] at chief
      cases chief
      exact due.backed
    · rw [State.lead_chief_of_ne a L now] at chief
      exact inv.chief_majority chief
  case chief_term =>
    intro u s chief
    by_cases now : u = (a.peer v).term
    · subst now
      rw [State.lead_chief] at chief
      cases chief
      exact grows.term v
    · rw [State.lead_chief_of_ne a L now] at chief
      exact (inv.chief_term chief).trans (grows.term s)
  case book_nil =>
    intro u chief
    by_cases now : u = (a.peer v).term
    · subst now
      rw [State.lead_chief] at chief
      cases chief
    · rw [State.lead_chief_of_ne a L now] at chief
      rw [State.lead_book_of_ne a L now]
      exact inv.book_nil chief
  case log_rooted =>
    intro w
    by_cases here : w = v
    · subst here
      rw [State.lead_self]
      exact rooted
    · rw [State.lead_of_ne a L here]
      exact (inv.log_rooted w).grows grows
  case book_rooted =>
    intro u
    by_cases now : u = (a.peer v).term
    · subst now
      rw [State.lead_book]
      exact rooted
    · rw [State.lead_book_of_ne a L now]
      exact (inv.book_rooted u).grows grows
  case log_bound =>
    intro w f member
    rw [State.lead_term]
    by_cases here : w = v
    · subst here
      rw [State.lead_self] at member
      exact due.bound f member
    · rw [State.lead_of_ne a L here] at member
      exact inv.log_bound member
  case book_bound =>
    intro u f member
    by_cases now : u = (a.peer v).term
    · subst now
      rw [State.lead_book] at member
      exact due.bound f member
    · rw [State.lead_book_of_ne a L now] at member
      exact inv.book_bound member
  case ack_length =>
    intro w u
    rw [State.lead_ack]
    split
    next here => rw [here.2, State.lead_book]
    next => exact (inv.ack_length w u).trans (grows.book u).length_le
  case ack_term =>
    intro w u positive
    rw [State.lead_ack] at positive
    rw [State.lead_term]
    split at positive
    next here => rw [here.1, here.2]
    next => exact inv.ack_term positive
  case leader_chief =>
    intro w leads
    rw [State.lead_term]
    by_cases here : w = v
    · subst here
      exact State.lead_chief a w L
    · rw [State.lead_of_ne a L here] at leads
      rw [State.lead_chief_of_ne a L (away_term here leads)]
      exact inv.leader_chief leads
  case leader_book =>
    intro w leads
    rw [State.lead_term]
    by_cases here : w = v
    · subst here
      rw [State.lead_self, State.lead_book]
    · rw [State.lead_of_ne a L here] at leads ⊢
      rw [State.lead_book_of_ne a L (away_term here leads)]
      exact inv.leader_book leads
  case leader_ack =>
    intro w leads
    rw [State.lead_term, State.lead_ack]
    by_cases here : w = v
    · subst here
      rw [State.lead_self, if_pos ⟨rfl, rfl⟩]
    · rw [State.lead_of_ne a L here] at leads ⊢
      rw [if_neg (fun both => here both.1)]
      exact inv.leader_ack leads
  case candidate_chief =>
    intro w runs
    have away := State.ne_of_lead_candidate runs
    rw [State.lead_of_ne a L away] at runs ⊢
    by_cases now : (a.peer w).term = (a.peer v).term
    · rw [now, State.lead_chief]
      exact fun same => away (Option.some.inj same).symm
    · rw [State.lead_chief_of_ne a L now]
      exact inv.candidate_chief runs
  case ack_kept =>
    intro w u k own small
    rw [State.lead_ack] at small
    split at small
    next here =>
      obtain ⟨rfl, rfl⟩ := here
      rw [State.lead_self]
      left
      rw [State.lead_book]
      exact List.take_prefix _ _
    next =>
      rcases due.own_lead own with old | ⟨rfl, new⟩
      · have kept := (inv.ack_kept old small).grows old grows
        by_cases here : w = v
        · subst here
          rw [State.lead_self]
          exact kept.of_isPrefix due.log
        · rwa [State.lead_of_ne a L here]
      · exact absurd small (fresh new)
  case book_kept =>
    intro u s t k chief order own
    by_cases now : u = (a.peer v).term
    · subst now
      rw [State.lead_book]
      rcases due.own_lead own with old | ⟨same, _⟩
      · exact (due.kept order old).grows old grows
      · exact absurd same order.ne
    · rw [State.lead_chief_of_ne a L now] at chief
      rw [State.lead_book_of_ne a L now]
      rcases due.own_lead own with old | ⟨rfl, new⟩
      · exact (inv.book_kept chief order old).grows old grows
      · exact Or.inr ((inv.lost_of_length chief order new).grows grows)
  case asked_kept =>
    intro w M t k runs asked order own late
    have away := State.ne_of_lead_candidate runs
    rw [State.lead_of_ne a L away] at runs asked order ⊢
    rcases due.own_lead own with old | ⟨rfl, new⟩
    · exact (inv.asked_kept runs asked order old late).grows old grows
    · -- the presented log was read before the entry existed
      obtain ⟨f, last, late⟩ := late
      obtain ⟨whole, owned⟩ := (inv.asked_rooted asked).last_own last
      rcases late with later | ⟨same, long⟩
      · obtain ⟨s, chief⟩ := inv.own_chief owned
        exact Or.inr ((inv.lost_of_length chief later new).grows grows)
      · rw [← same] at whole
        exact absurd (whole.length_le.trans new) (Nat.not_le.mpr long)
  case vote_kept =>
    intro w x t k runs voted order own small
    have away := State.ne_of_lead_candidate runs
    rw [State.lead_of_ne a L away] at runs voted order ⊢
    have other : ¬ (x = v ∧ t = (a.peer v).term) := by
      rintro ⟨rfl, rfl⟩
      exact absurd (inv.vote_term voted) (not_le.mpr order)
    rw [State.lead_ack, if_neg other] at small
    rcases due.own_lead own with old | ⟨rfl, new⟩
    · exact (inv.vote_kept runs voted order old small).grows old grows
    · exact absurd small (fresh new)

/-- The winner of an election is the first of its term: it has not won this term
before. -/
theorem Inv.chief_none (inv : Inv stamp a) (runs : (a.peer v).role = .candidate)
    (backed : ∃ Q : Finset S, Majority Q ∧ ∀ w ∈ Q, a.vote w (a.peer v).term = some v) :
    a.chief (a.peer v).term = none := by
  cases chief : a.chief (a.peer v).term with
  | none => rfl
  | some s =>
    have same := inv.chief_eq backed chief
    subst same
    exact absurd chief (inv.candidate_chief runs)

omit [Fintype S] in
theorem State.crown_eq (a : State S τ E) (v : S) : a.crown v = a.lead v (a.peer v).log := rfl

theorem entitled_crown (inv : Inv stamp a) {Q : Finset S} (runs : (a.peer v).role = .candidate)
    (major : Majority Q) (voted : ∀ w ∈ Q, a.vote w (a.peer v).term = some v) :
    Entitled stamp a v (a.peer v).log where
  origin := inv.origin_candidate runs
  backed := ⟨Q, major, voted⟩
  book := by
    rw [inv.book_nil (inv.chief_none runs ⟨Q, major, voted⟩)]
    exact List.nil_prefix
  log := List.prefix_rfl
  rooted k e entry _ := inv.log_rooted v k e entry
  bound _ member := inv.log_bound member
  kept := by
    intro t k order own
    -- either some voter passed the position on, or the whole majority left without it
    by_cases heard : ∃ x ∈ Q, k < a.ack x t
    · obtain ⟨x, member, small⟩ := heard
      exact inv.vote_kept runs (voted x member) order own small
    · right
      refine ⟨Q, major, fun x member => ⟨order.trans_le (inv.vote_term (voted x member)), ?_⟩⟩
      exact Nat.le_of_not_lt fun small => heard ⟨x, member, small⟩

omit [Fintype S] in
/-- A leader that writes stays the winner of its term. -/
theorem State.write_eq (a : State S τ E) (v : S) (e : E) :
    a.write v e = { a.lead v ((a.peer v).log ++ [e]) with chief := a.chief } := by
  simp only [State.write, State.lead, List.length_append, List.length_singleton]

theorem Inv.write_eq_lead (inv : Inv stamp a) (leads : (a.peer v).role = .leader) (e : E) :
    a.write v e = a.lead v ((a.peer v).log ++ [e]) := by
  have same : Function.update a.chief (a.peer v).term (some v) = a.chief := by
    rw [← inv.leader_chief leads, Function.update_eq_self]
  rw [State.write_eq, ← same]
  rfl

omit [DecidableEq S] in
theorem entitled_write (inv : Inv stamp a) (leads : (a.peer v).role = .leader)
    (written : stamp e = (a.peer v).term) : Entitled stamp a v ((a.peer v).log ++ [e]) := by
  have chief := inv.leader_chief leads
  have extended : a.book (a.peer v).term <+: (a.peer v).log ++ [e] := by
    rw [inv.leader_book leads]
    exact List.prefix_append _ _
  constructor
  case origin => exact inv.origin_chief chief
  case backed => exact inv.chief_majority chief
  case book => exact extended
  case log => exact List.prefix_append _ _
  case rooted =>
    intro k f entry other
    rcases getElem?_concat_cases entry with old | ⟨rfl, rfl⟩
    · have inside := (List.getElem?_eq_some_iff.mp old).1
      rw [List.take_append_of_le_length inside]
      exact inv.log_rooted v k f old
    · exact absurd written other
  case bound =>
    intro f member
    rcases List.mem_append.mp member with old | new
    · exact inv.log_bound old
    · exact (congrArg stamp (List.mem_singleton.mp new)).trans written |>.le
  case kept => exact fun order own => (inv.book_kept chief order own).of_isPrefix extended

end DistSys.Replica
