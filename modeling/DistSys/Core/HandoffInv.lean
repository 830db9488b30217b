import DistSys.Core.Handoff
import Mathlib.Data.Nat.Find

namespace DistSys.Handoff

variable {G D : Type*} [Preorder D] {owner : Nat → Option G} {fresh : D}
variable {a b : State G D} {g h : G} {n : Nat} {p : Phase} {d v x : D}

/-- A move of one member that leaves the turn where it is. -/
theorem Inv.become [DecidableEq G] (inv : Inv owner fresh a) (later : a.epoch g ≤ n)
    (shapes : ∀ h, Shape owner fresh h ((a.become g n p d).epoch h) ((a.become g n p d).phase h)
      ((a.become g n p d).data h))
    (ahead : ∀ e, a.turn < e → owner e = some g → n < e ∨ n = e ∧ p = .awaiting)
    (holder : owner a.turn = some g → Holds owner a.turn a.value n p d)
    (offers : p = .held ∨ p = .settling → n ≤ a.turn ∨
      n = a.turn + 1 ∧ a.value ≤ d ∧ owner a.turn = some g)
    (claims : p = .settling → n ≤ a.turn) : Inv owner fresh (a.become g n p d) where
  shape := shapes
  ahead := by
    intro e h after mine
    by_cases here : h = g
    · subst here
      rw [become_epoch_self, become_phase_self]
      exact ahead e after mine
    · rw [become_epoch_of_ne here, become_phase_of_ne here]
      exact inv.ahead after mine
  behind := fun before mine => Nat.lt_of_lt_of_le (inv.behind before mine) (epoch_le_become later _)
  holder := by
    intro h mine
    by_cases here : h = g
    · subst here
      rw [become_epoch_self, become_phase_self, become_data_self]
      exact holder mine
    · rw [become_epoch_of_ne here, become_phase_of_ne here, become_data_of_ne here]
      exact inv.holder mine
  start := inv.start
  offers := by
    rintro k y (old | ⟨shares, rfl, rfl⟩)
    · rcases inv.offers old with past | ⟨next, knows, h, mine, moved⟩
      · exact Or.inl past
      · exact Or.inr ⟨next, knows, h, mine, Nat.lt_of_lt_of_le moved (epoch_le_become later h)⟩
    · rcases offers shares with past | ⟨next, knows, mine⟩
      · exact Or.inl past
      · refine Or.inr ⟨next, knows, g, mine, ?_⟩
        rw [become_epoch_self, become_turn]
        omega
  claims := by
    rintro k (old | ⟨settles, rfl⟩)
    · exact inv.claims old
    · exact claims settles

/-- A move that makes its member the owner of the turn. -/
theorem Inv.arrive [DecidableEq G] (inv : Inv owner fresh a) (later : a.epoch g ≤ n)
    (shapes : ∀ h, Shape owner fresh h ((a.become g n p d).epoch h) ((a.become g n p d).phase h)
      ((a.become g n p d).data h))
    (mine : owner n = some g) (has : p = .steady ∨ p = .settling)
    (knows : v ≤ d) (turn : a.turn < n)
    (behind : ∀ e h, e < n → owner e = some h → h ≠ g → e < a.epoch h) :
    Inv owner fresh { a.become g n p d with turn := n, value := v } where
  shape := shapes
  ahead := by
    intro e h after owns
    have late : a.turn < e := Nat.lt_trans turn after
    by_cases here : h = g
    · subst here
      exact Or.inl (by simpa using after)
    · simp only [become_epoch_of_ne here, become_phase_of_ne here]
      exact inv.ahead late owns
  behind := by
    intro e h before owns
    by_cases here : h = g
    · subst here
      simpa using before
    · simp only [become_epoch_of_ne here]
      exact behind e h before owns here
  holder := by
    intro h owns
    rw [mine] at owns
    cases owns
    left
    simpa using ⟨has, knows⟩
  start := fun none => by rw [mine] at none; cases none
  offers := by
    rintro k y (old | ⟨_, rfl, _⟩)
    · rcases inv.offers old with past | ⟨next, _⟩
      · exact Or.inl (Nat.le_trans past turn.le)
      · exact Or.inl (by rw [next]; exact turn)
    · exact Or.inl (Nat.le_refl _)
  claims := by
    rintro k (old | ⟨_, rfl⟩)
    · exact Nat.le_trans (inv.claims old) turn.le
    · exact Nat.le_refl _

/-- The owner of the turn changes the object; no copy is about yet. -/
theorem Inv.write [DecidableEq G] (inv : Inv owner fresh a) (live : Live owner a g) :
    Inv owner fresh { a.become g (a.epoch g) (a.phase g) d with value := d } := by
  have now := inv.turn_eq_of_live live
  have mine := live.1
  have owned := mine
  rw [now] at owned
  have new : Shape owner fresh g (a.epoch g) (a.phase g) d :=
    ⟨(inv.shape g).awaiting, (inv.shape g).held, fun _ other => absurd mine other⟩
  constructor
  case shape => exact shape_become inv.shape new
  case ahead =>
    intro e h after owns
    by_cases here : h = g
    · subst here
      simp only [become_epoch_self, become_phase_self]
      exact inv.ahead after owns
    · simp only [become_epoch_of_ne here, become_phase_of_ne here]
      exact inv.ahead after owns
  case behind =>
    intro e h before owns
    exact Nat.lt_of_lt_of_le (inv.behind before owns)
      (epoch_le_become (p := a.phase g) (d := d) (Nat.le_refl _) h)
  case holder =>
    intro h owns
    simp only [become_turn] at owns ⊢
    rw [owned] at owns
    cases owns
    simp only [become_epoch_self, become_phase_self, become_data_self]
    exact Or.inl ⟨now, live.2, le_refl d⟩
  case start =>
    intro none
    simp only [become_turn] at none
    rw [owned] at none
    cases none
  case offers =>
    rintro k y (old | ⟨_, rfl, rfl⟩)
    · rcases inv.offers old with past | ⟨_, _, h, owns, moved⟩
      · exact Or.inl past
      · rw [owned] at owns
        cases owns
        omega
    · exact Or.inl now.le
  case claims =>
    rintro k (old | ⟨_, rfl⟩)
    · exact inv.claims old
    · exact now.le

/-- What a member shows is a copy of the past, or as good as the object. -/
theorem Inv.shares (inv : Inv owner fresh a) (shows : a.phase g = .held ∨ a.phase g = .settling) :
    a.epoch g ≤ a.turn ∨
      a.epoch g = a.turn + 1 ∧ a.value ≤ a.data g ∧ owner a.turn = some g := by
  rcases shows with held | settling
  · obtain ⟨positive, before, h, other, after⟩ := (inv.shape g).held held
    rcases Nat.lt_trichotomy (a.epoch g - 1) a.turn with past | now | future
    · exact Or.inl (by omega)
    · rw [now] at before
      rcases inv.holder before with ⟨_, steady | settling, _⟩ | ⟨next, _, knows⟩ | ⟨_, none⟩
      · rw [held] at steady; cases steady
      · rw [held] at settling; cases settling
      · exact Or.inr ⟨next, knows, before⟩
      · rw [show a.turn + 1 = a.epoch g by omega, after] at none
        cases none
    · rcases inv.ahead future before with early | ⟨same, _⟩ <;> omega
  · have mine := (inv.shape g).awaiting (Or.inr settling)
    exact Or.inl (inv.turn_eq_of_live ⟨mine.2.1, Or.inr settling⟩).le

theorem Inv.claims_settling (inv : Inv owner fresh a) (settles : a.phase g = .settling) :
    a.epoch g ≤ a.turn := by
  have mine := (inv.shape g).awaiting (Or.inr settles)
  exact (inv.turn_eq_of_live ⟨mine.2.1, Or.inr settles⟩).le

/-- A steady member has yet to reach all later epochs of its own. -/
theorem Inv.ahead_steady (inv : Inv owner fresh a) (steady : a.phase g = .steady) {e : Nat}
    (after : a.turn < e) (mine : owner e = some g) : a.epoch g < e := by
  rcases inv.ahead after mine with early | ⟨_, waits⟩
  · exact early
  · rw [steady] at waits
    cases waits

/-- If it does not own the next epoch either, they lie behind that one. -/
theorem Inv.ahead_next (inv : Inv owner fresh a) (steady : a.phase g = .steady)
    (other : owner (a.epoch g + 1) ≠ some g) {e : Nat} (after : a.turn < e) (mine : owner e = some g) :
    a.epoch g + 1 < e := by
  have early := inv.ahead_steady steady after mine
  have ne : e ≠ a.epoch g + 1 := fun same => other (same ▸ mine)
  omega

/-- A steady member that owned the turn and is not in its own epoch has left
the object to nobody. -/
theorem Inv.gone_of_steady (inv : Inv owner fresh a) (steady : a.phase g = .steady)
    (other : owner (a.epoch g) ≠ some g) (mine : owner a.turn = some g) :
    a.turn < a.epoch g ∧ owner (a.turn + 1) = none := by
  rcases inv.holder mine with ⟨now, _⟩ | ⟨_, held, _⟩ | gone
  · rw [now] at other
    exact absurd mine other
  · rw [steady] at held
    cases held
  · exact gone

/-- When the last owner up to an epoch has left its own, so have all earlier owners. -/
theorem Inv.left_of_last (inv : Inv owner fresh a) {e : Nat}
    (last : ∀ e h, e ≤ n → owner e = some h → (∀ k, e < k → k ≤ n → owner k = none) → e < a.epoch h)
    (early : e ≤ n) (mine : owner e = some h) : e < a.epoch h := by
  have here : (owner e).isSome = true := by rw [mine]; rfl
  have after : e ≤ Nat.findGreatest (fun k => (owner k).isSome = true) n := Nat.le_findGreatest early here
  obtain ⟨k, owns⟩ := Option.isSome_iff_exists.mp
    (Nat.findGreatest_spec (P := fun k => (owner k).isSome = true) early here)
  have left := last _ k (Nat.findGreatest_le n) owns fun j above below =>
    Option.not_isSome_iff_eq_none.mp (Nat.findGreatest_is_greatest above below)
  generalize Nat.findGreatest (fun k => (owner k).isSome = true) n = m at after owns left
  rcases Nat.eq_or_lt_of_le after with rfl | before
  · rw [mine] at owns
    cases owns
    exact left
  · by_cases past : e < a.turn
    · exact inv.behind past mine
    · -- the last owner would still have to wait for its turn
      rcases inv.ahead (e := m) (by omega) owns with far | ⟨same, _⟩ <;> omega

/-- Every step keeps the invariant, if objects without an owner are taken
cleanly. -/
theorem Step.inv [DecidableEq G] (step : Step owner fresh g a b) (inv : Inv owner fresh a)
    (clean : b.epoch g ≠ a.epoch g → Clean owner a g) : Inv owner fresh b := by
  have shape := inv.shape g
  have shapes := step.shape inv.shape
  cases step with
  | @grow d more =>
    refine inv.become (Nat.le_refl _) shapes
      (fun e after mine => inv.ahead after mine) ?_ ?_ inv.claims_settling
    · intro mine
      rcases inv.holder mine with ⟨now, has, knows⟩ | ⟨next, held, knows⟩ | gone
      · exact Or.inl ⟨now, has, le_trans knows more⟩
      · exact Or.inr (Or.inl ⟨next, held, le_trans knows more⟩)
      · exact Or.inr (Or.inr gone)
    · intro shows
      rcases inv.shares shows with past | ⟨next, knows, mine⟩
      · exact Or.inl past
      · exact Or.inr ⟨next, le_trans knows more, mine⟩
  | pass steady before after =>
    refine inv.become (Nat.le_succ _) shapes ?_ ?_
      (by rintro (held | settling) <;> contradiction) (by rintro ⟨⟩)
    · exact fun e late mine => Or.inl (inv.ahead_next steady after late mine)
    · intro mine
      obtain ⟨left, none⟩ := inv.gone_of_steady steady before mine
      exact Or.inr (Or.inr ⟨by omega, none⟩)
  | keep steady before after =>
    have live : Live owner a g := ⟨before, Or.inl steady⟩
    have now := inv.turn_eq_of_live live
    refine inv.arrive (Nat.le_succ _) shapes after
      (Or.inl rfl) (inv.value_le live) (by omega) ?_
    intro e h early mine other
    have ne : e ≠ a.epoch g := by
      rintro rfl
      rw [before] at mine
      exact other (Option.some.inj mine).symm
    exact inv.behind (by omega) mine
  | @hold h steady before after other =>
    have live : Live owner a g := ⟨before, Or.inl steady⟩
    have now := inv.turn_eq_of_live live
    refine inv.become (Nat.le_succ _) shapes ?_ ?_ ?_ (by rintro ⟨⟩)
    · have away : owner (a.epoch g + 1) ≠ some g := by
        rw [after]
        exact fun same => other (Option.some.inj same)
      exact fun e late mine => Or.inl (inv.ahead_next steady away late mine)
    · exact fun _ => Or.inr (Or.inl ⟨by omega, rfl, inv.value_le live⟩)
    · exact fun _ => Or.inr ⟨by omega, inv.value_le live, by rw [← now]; exact before⟩
  | @drop d steady before after empty =>
    have now := inv.turn_eq_of_live ⟨before, Or.inl steady⟩
    refine inv.become (Nat.le_succ _) shapes ?_ ?_
      (by rintro (held | settling) <;> contradiction) (by rintro ⟨⟩)
    · have away : owner (a.epoch g + 1) ≠ some g := by
        rw [after]
        rintro ⟨⟩
      exact fun e late mine => Or.inl (inv.ahead_next steady away late mine)
    · exact fun _ => Or.inr (Or.inr ⟨by omega, by rw [← now]; exact after⟩)
  | take steady before after =>
    have other : owner (a.epoch g) ≠ some g := by rw [before]; rintro ⟨⟩
    refine inv.arrive (Nat.le_succ _) shapes after (Or.inl rfl)
      (shape.idle steady other) (inv.turn_lt after (Nat.lt_succ_self _)) ?_
    intro e h early mine _
    exact inv.left_of_last (clean (by simp) before after) (by omega) mine
  | @await h steady before other after =>
    refine inv.become (Nat.le_succ _) shapes ?_ ?_
      (by rintro (held | settling) <;> contradiction) (by rintro ⟨⟩)
    · intro e late mine
      rcases Nat.lt_or_eq_of_le (inv.ahead_steady steady late mine) with early | now
      · exact Or.inl early
      · exact Or.inr ⟨now, rfl⟩
    · intro mine
      have ne : owner (a.epoch g) ≠ some g := by
        rw [before]
        exact fun same => other (Option.some.inj same)
      obtain ⟨left, none⟩ := inv.gone_of_steady steady ne mine
      exact Or.inr (Or.inr ⟨by omega, none⟩)
  | @write d has mine => exact inv.write ⟨mine, has⟩
  | @install x d waits offered more =>
    have late := inv.turn_lt_of_awaiting waits
    obtain ⟨positive, mine, rest⟩ := shape.awaiting (Or.inl waits)
    rcases inv.offers offered with past | ⟨next, knows, h, owns, moved⟩
    · omega
    · refine inv.arrive (Nat.le_refl _) shapes mine (Or.inr rfl) (le_trans knows more) late ?_
      intro e k early theirs _
      by_cases now : e = a.turn
      · subst now
        rw [owns] at theirs
        cases theirs
        exact moved
      · exact inv.behind (by omega) theirs
  | finish settles =>
    have mine := (shape.awaiting (Or.inr settles)).2.1
    refine inv.become (Nat.le_refl _) shapes ?_ ?_
      (by rintro (held | settling) <;> contradiction) (by rintro ⟨⟩)
    · intro e late owns
      rcases inv.ahead late owns with early | ⟨_, waits⟩
      · exact Or.inl early
      · rw [settles] at waits
        cases waits
    · intro owns
      rcases inv.holder owns with ⟨now, _, knows⟩ | ⟨_, held, _⟩ | gone
      · exact Or.inl ⟨now, Or.inl rfl, knows⟩
      · rw [settles] at held
        cases held
      · exact Or.inr (Or.inr gone)
  | @discard d held claimed empty =>
    have past := inv.claims claimed
    refine inv.become (Nat.le_refl _) shapes ?_ ?_
      (by rintro (held | settling) <;> contradiction) (by rintro ⟨⟩)
    · exact fun e late _ => Or.inl (by omega)
    · intro owns
      rcases inv.holder owns with ⟨_, steady | settling, _⟩ | ⟨next, _⟩ | gone
      · rw [held] at steady; cases steady
      · rw [held] at settling; cases settling
      · omega
      · exact Or.inr (Or.inr gone)

end DistSys.Handoff
