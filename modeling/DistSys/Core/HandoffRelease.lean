import DistSys.Core.Handoff

namespace DistSys.Handoff

variable {G D : Type*} [Preorder D] {owner : Nat → Option G} {fresh : D}
variable {a b : State G D} {g h : G} {n : Nat} {p : Phase} {d v : D}

/-- The two ends of a handoff: an owner gets past waiting only after the
previous owner has entered its epoch, and a member that holds a copy still has
a next owner to come for it. Nothing here depends on the turn. -/
structure Handshake (owner : Nat → Option G) (fresh : D) (a : State G D) : Prop where
  shape : ∀ g, Shape owner fresh g (a.epoch g) (a.phase g) (a.data g)
  reach : ∀ {m g h}, owner (m + 1) = some g → owner m = some h → h ≠ g →
    m + 1 < a.epoch g ∨ a.epoch g = m + 1 ∧ a.phase g ≠ .awaiting → m + 1 ≤ a.epoch h
  offers : ∀ {m d h}, a.offered (m + 1) d → owner m = some h → m + 1 ≤ a.epoch h
  held : ∀ {g h}, a.phase g = .held → owner (a.epoch g) = some h →
    a.epoch h < a.epoch g ∨ a.epoch h = a.epoch g ∧ (a.phase h = .awaiting ∨ a.phase h = .settling)

/-- A move of one member, whatever becomes of the turn. -/
theorem Handshake.become [DecidableEq G] (hand : Handshake owner fresh a) (later : a.epoch g ≤ n)
    (new : Shape owner fresh g n p d)
    (reach : ∀ m h, owner (m + 1) = some g → owner m = some h → h ≠ g →
      m + 1 < n ∨ n = m + 1 ∧ p ≠ .awaiting → m + 1 ≤ a.epoch h)
    (asked : ∀ h, h ≠ g → a.phase h = .held → owner (a.epoch h) = some g →
      n < a.epoch h ∨ n = a.epoch h ∧ (p = .awaiting ∨ p = .settling))
    (holds : ∀ h, p = .held → owner n = some h → h ≠ g →
      a.epoch h < n ∨ a.epoch h = n ∧ (a.phase h = .awaiting ∨ a.phase h = .settling))
    (t : Nat) (v : D) :
    Handshake owner fresh { a.become g n p d with turn := t, value := v } where
  shape := shape_become hand.shape new
  reach := by
    intro m k h after before other gone
    by_cases here : k = g
    · subst here
      simp only [become_epoch_self, become_phase_self] at gone
      exact Nat.le_trans (reach m h after before other gone) (epoch_le_become (p := p) (d := d) later h)
    · simp only [become_epoch_of_ne here, become_phase_of_ne here] at gone
      exact Nat.le_trans (hand.reach after before other gone) (epoch_le_become (p := p) (d := d) later h)
  offers := by
    rintro m y h (old | ⟨shows, next, _⟩) before
    · exact Nat.le_trans (hand.offers old before) (epoch_le_become (p := p) (d := d) later h)
    · subst next
      rcases shows with held | settling
      · obtain ⟨_, mine, _⟩ := new.held held
        rw [Nat.add_sub_cancel, before] at mine
        cases mine
        exact (become_epoch_self (p := p) (d := d)).ge
      · obtain ⟨_, mine, k, other, theirs⟩ := new.awaiting (Or.inr settling)
        rw [Nat.add_sub_cancel, before] at theirs
        cases theirs
        have reached := reach m h mine before other (Or.inr ⟨rfl, by rw [settling]; rintro ⟨⟩⟩)
        exact Nat.le_trans reached (epoch_le_become (p := p) (d := d) later h)
  held := by
    intro k h held after
    by_cases here : k = g
    · subst here
      simp only [become_epoch_self, become_phase_self] at held after ⊢
      obtain ⟨_, _, next, other, theirs⟩ := new.held held
      rw [after] at theirs
      cases theirs
      rw [become_epoch_of_ne other, become_phase_of_ne other]
      exact holds h held after other
    · simp only [become_epoch_of_ne here, become_phase_of_ne here] at held after ⊢
      by_cases next : h = g
      · subst next
        simp only [become_epoch_self, become_phase_self]
        exact asked k here held after
      · rw [become_epoch_of_ne next, become_phase_of_ne next]
        exact hand.held held after

section
variable (hand : Handshake owner fresh a)
include hand

theorem Handshake.reach_same {m : Nat} (after : owner (m + 1) = some g) (before : owner m = some h)
    (other : h ≠ g) (past : a.phase g ≠ .awaiting) (gone : m + 1 ≤ a.epoch g) : m + 1 ≤ a.epoch h := by
  rcases Nat.lt_or_eq_of_le gone with early | now
  · exact hand.reach after before other (Or.inl early)
  · exact hand.reach after before other (Or.inr ⟨now.symm, past⟩)

/-- A member in step with the epoch of a copy that is held for it is about to
come for it; otherwise it is not there yet. -/
theorem Handshake.asked_steady (steady : a.phase g = .steady) (held : a.phase h = .held)
    (after : owner (a.epoch h) = some g) : a.epoch g + 1 ≤ a.epoch h := by
  rcases hand.held held after with early | ⟨_, waits | settles⟩
  · exact early
  · rw [steady] at waits; cases waits
  · rw [steady] at settles; cases settles

/-- Entering the next epoch: only a member that has to wait finds a copy held
for it there, and it leaves no wait behind. -/
theorem Handshake.enter [DecidableEq G] (steady : a.phase g = .steady)
    (new : Shape owner fresh g (a.epoch g + 1) p d)
    (waits : ∀ h, h ≠ g → owner (a.epoch g) = some h → owner (a.epoch g + 1) = some g → p = .awaiting)
    (holds : p = .held → owner (a.epoch g) = some g) (t : Nat) (v : D) :
    Handshake owner fresh { a.become g (a.epoch g + 1) p d with turn := t, value := v } := by
  refine hand.become (Nat.le_succ _) new ?_ ?_ ?_ t v
  · rintro m h after before other (early | ⟨now, past⟩)
    · exact hand.reach_same after before other (by rw [steady]; rintro ⟨⟩) (by omega)
    · obtain rfl : m = a.epoch g := by omega
      exact absurd (waits h other before after) past
  · intro h other held after
    have early := hand.asked_steady steady held after
    rcases Nat.lt_or_eq_of_le early with before | now
    · exact Or.inl before
    · obtain ⟨_, theirs, _⟩ := (hand.shape h).held held
      rw [← now, Nat.add_sub_cancel] at theirs
      rw [← now] at after
      exact Or.inr ⟨now, Or.inl (waits h other theirs after)⟩
  · intro h held after other
    have mine := holds held
    by_contra far
    have gone : a.epoch g + 1 < a.epoch h ∨ a.epoch h = a.epoch g + 1 ∧ a.phase h ≠ .awaiting := by
      by_cases past : a.epoch h = a.epoch g + 1
      · exact Or.inr ⟨past, fun waits => far (Or.inr ⟨past, Or.inl waits⟩)⟩
      · exact Or.inl (by omega)
    have reached := hand.reach after mine (Ne.symm other) gone
    omega

end

/-- Every step keeps the handshake, if an owner settles only after the previous
owner has forgotten the object. -/
theorem Step.handshake [DecidableEq G] (step : Step owner fresh g a b) (hand : Handshake owner fresh a)
    (done : a.phase g = .settling → b.phase g = .steady →
      ∀ h, a.phase h = .held → a.epoch h = a.epoch g → owner (a.epoch g - 1) ≠ some h) :
    Handshake owner fresh b := by
  have new := step.shape hand.shape g
  cases step with
  | @grow d more =>
    refine hand.become (Nat.le_refl _) (by simpa using new)
      (fun m h after before other => hand.reach after before other)
      (fun h _ held after => hand.held held after) (fun h held after _ => hand.held held after) _ _
  | pass steady before after =>
    exact hand.enter steady (by simpa using new)
      (fun h _ _ next => absurd next after) (by rintro ⟨⟩) _ _
  | keep steady before after =>
    refine hand.enter steady (by simpa using new) ?_ (by rintro ⟨⟩) _ _
    intro h other theirs _
    rw [before] at theirs
    exact absurd (Option.some.inj theirs).symm other
  | @hold h steady before after other =>
    refine hand.enter steady (by simpa using new) ?_ (fun _ => before) _ _
    intro k _ _ next
    rw [after] at next
    exact absurd (Option.some.inj next) other
  | @drop d steady before after empty =>
    refine hand.enter steady (by simpa using new) ?_ (by rintro ⟨⟩) _ _
    intro h _ _ next
    rw [after] at next
    cases next
  | take steady before after =>
    refine hand.enter steady (by simpa using new) ?_ (by rintro ⟨⟩) _ _
    intro h _ theirs _
    rw [before] at theirs
    cases theirs
  | @await h steady before other after =>
    exact hand.enter steady (by simpa using new) (fun _ _ _ _ => rfl) (by rintro ⟨⟩) _ _
  | @write d has mine =>
    refine hand.become (Nat.le_refl _) (by simpa using new)
      (fun m h after before other => hand.reach after before other)
      (fun h _ held after => hand.held held after) (fun h held after _ => hand.held held after) _ _
  | @install x d waits offered more =>
    refine hand.become (Nat.le_refl _) (by simpa using new) ?_ ?_ (by rintro h ⟨⟩) _ _
    · rintro m h after before other (early | ⟨now, _⟩)
      · exact hand.reach after before other (Or.inl early)
      · rw [now] at offered
        exact hand.offers offered before
    · intro h _ held after
      exact (hand.held held after).imp_right fun same => ⟨same.1, Or.inr rfl⟩
  | finish settles =>
    refine hand.become (Nat.le_refl _) (by simpa using new) ?_ ?_
      (by rintro h ⟨⟩) _ _
    · rintro m h after before other gone
      exact hand.reach_same after before other (by rw [settles]; rintro ⟨⟩) (by omega)
    · intro h _ held after
      rcases hand.held held after with early | ⟨now, _⟩
      · exact Or.inl early
      · obtain ⟨_, theirs, _⟩ := (hand.shape h).held held
        rw [← now] at theirs
        exact absurd theirs (done settles (by simp) h held now.symm)
  | @discard d held claimed empty =>
    refine hand.become (Nat.le_refl _) (by simpa using new) ?_ ?_ (by rintro h ⟨⟩) _ _
    · rintro m h after before other gone
      exact hand.reach_same after before other (by rw [held]; rintro ⟨⟩) (by omega)
    · intro h _ holds after
      rcases hand.held holds after with early | ⟨_, waits | settles⟩
      · exact Or.inl early
      · rw [held] at waits; cases waits
      · rw [held] at settles; cases settles

end DistSys.Handoff
