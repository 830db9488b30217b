import Mathlib.Logic.Function.Basic
import Mathlib.Order.Basic
import Mathlib.Data.Nat.Basic

namespace DistSys.Handoff

/-- Where a member stands with the object in its epoch: nothing is under way, it
waits for the previous owner, it keeps the object for the next owner, or it has
received the object and the previous owner still has to forget it. -/
inductive Phase
  | steady
  | awaiting
  | held
  | settling
  deriving DecidableEq

/-- One object that a schedule of epochs passes from owner to owner, while every
member goes through the epochs at its own pace. `offered` and `claimed` keep
what members have shown in the past: the copies they held for an epoch, and the
epochs in which an owner had received the object. `turn` is the last epoch
whose owner has had the object, and `value` is the least of what it knows. -/
structure State (G D : Type*) where
  epoch : G → Nat
  phase : G → Phase
  data : G → D
  offered : Nat → D → Prop
  claimed : Nat → Prop
  turn : Nat
  value : D

section
variable {G D : Type*} [DecidableEq G]

/-- Member `g` moves, and shows what it has. -/
def State.become (a : State G D) (g : G) (n : Nat) (p : Phase) (d : D) : State G D where
  epoch := Function.update a.epoch g n
  phase := Function.update a.phase g p
  data := Function.update a.data g d
  offered k x := a.offered k x ∨ (p = .held ∨ p = .settling) ∧ k = n ∧ x = d
  claimed k := a.claimed k ∨ p = .settling ∧ k = n
  turn := a.turn
  value := a.value

variable [Preorder D] (owner : Nat → Option G) (fresh : D)

/-- What member `g` can do. It may learn more at any time. It enters the next
epoch only when nothing is under way; the schedule then decides whether it
passes, keeps the object, holds it for the next owner, drops it because there
is none, takes it because there was none, or waits for it. An owner that has
the object may change it. -/
inductive Step (g : G) (a : State G D) : State G D → Prop
  | grow {d : D} : a.data g ≤ d → Step g a (a.become g (a.epoch g) (a.phase g) d)
  | pass : a.phase g = .steady → owner (a.epoch g) ≠ some g → owner (a.epoch g + 1) ≠ some g →
      Step g a (a.become g (a.epoch g + 1) .steady (a.data g))
  | keep : a.phase g = .steady → owner (a.epoch g) = some g → owner (a.epoch g + 1) = some g →
      Step g a { a.become g (a.epoch g + 1) .steady (a.data g) with turn := a.epoch g + 1 }
  | hold {h : G} : a.phase g = .steady → owner (a.epoch g) = some g →
      owner (a.epoch g + 1) = some h → h ≠ g →
      Step g a (a.become g (a.epoch g + 1) .held (a.data g))
  | drop {d : D} : a.phase g = .steady → owner (a.epoch g) = some g → owner (a.epoch g + 1) = none →
      fresh ≤ d → Step g a (a.become g (a.epoch g + 1) .steady d)
  | take : a.phase g = .steady → owner (a.epoch g) = none → owner (a.epoch g + 1) = some g →
      Step g a { a.become g (a.epoch g + 1) .steady (a.data g) with
        turn := a.epoch g + 1, value := fresh }
  | await {h : G} : a.phase g = .steady → owner (a.epoch g) = some h → h ≠ g →
      owner (a.epoch g + 1) = some g →
      Step g a (a.become g (a.epoch g + 1) .awaiting (a.data g))
  | write {d : D} : a.phase g = .steady ∨ a.phase g = .settling → owner (a.epoch g) = some g →
      Step g a { a.become g (a.epoch g) (a.phase g) d with value := d }
  | install {x d : D} : a.phase g = .awaiting → a.offered (a.epoch g) x → x ≤ d →
      Step g a { a.become g (a.epoch g) .settling d with turn := a.epoch g }
  | finish : a.phase g = .settling → Step g a (a.become g (a.epoch g) .steady (a.data g))
  | discard {d : D} : a.phase g = .held → a.claimed (a.epoch g) → fresh ≤ d →
      Step g a (a.become g (a.epoch g) .steady d)

/-- How the phase of a member fits the schedule. -/
structure Shape (g : G) (n : Nat) (p : Phase) (d : D) : Prop where
  awaiting : p = .awaiting ∨ p = .settling →
    0 < n ∧ owner n = some g ∧ ∃ h, h ≠ g ∧ owner (n - 1) = some h
  held : p = .held → 0 < n ∧ owner (n - 1) = some g ∧ ∃ h, h ≠ g ∧ owner n = some h
  idle : p = .steady → owner n ≠ some g → fresh ≤ d

/-- What the owner of the current turn has: the object itself, a copy for the
next owner, or nothing any more if there is no next owner. -/
def Holds (turn : Nat) (value : D) (n : Nat) (p : Phase) (d : D) : Prop :=
  n = turn ∧ (p = .steady ∨ p = .settling) ∧ value ≤ d ∨
    n = turn + 1 ∧ p = .held ∧ value ≤ d ∨ turn < n ∧ owner (turn + 1) = none

/-- Owners before the turn have moved on, owners after it still wait, and every
copy for the next owner is as good as the object. -/
structure Inv (a : State G D) : Prop where
  shape : ∀ g, Shape owner fresh g (a.epoch g) (a.phase g) (a.data g)
  ahead : ∀ {e g}, a.turn < e → owner e = some g →
    a.epoch g < e ∨ a.epoch g = e ∧ a.phase g = .awaiting
  behind : ∀ {e g}, e < a.turn → owner e = some g → e < a.epoch g
  holder : ∀ {h}, owner a.turn = some h →
    Holds owner a.turn a.value (a.epoch h) (a.phase h) (a.data h)
  start : owner a.turn = none → a.turn = 0 ∧ a.value = fresh
  offers : ∀ {n d}, a.offered n d → n ≤ a.turn ∨
    n = a.turn + 1 ∧ a.value ≤ d ∧ ∃ h, owner a.turn = some h ∧ a.turn < a.epoch h
  claims : ∀ {n}, a.claimed n → n ≤ a.turn

/-- The member has the object and may use it. -/
def Live (a : State G D) (g : G) : Prop :=
  owner (a.epoch g) = some g ∧ (a.phase g = .steady ∨ a.phase g = .settling)

/-- Before a member takes an object that nobody owns, the last owner has left the
epoch of its ownership. -/
def Clean (a : State G D) (g : G) : Prop :=
  owner (a.epoch g) = none → owner (a.epoch g + 1) = some g →
    ∀ e h, e ≤ a.epoch g → owner e = some h → (∀ k, e < k → k ≤ a.epoch g → owner k = none) →
      e < a.epoch h

end

section
variable {G D : Type*} [DecidableEq G] {a : State G D} {g h : G} {n : Nat} {p : Phase} {d : D}

@[simp]
theorem become_epoch_self : (a.become g n p d).epoch g = n := Function.update_self ..

@[simp]
theorem become_phase_self : (a.become g n p d).phase g = p := Function.update_self ..

@[simp]
theorem become_data_self : (a.become g n p d).data g = d := Function.update_self ..

@[simp]
theorem become_turn : (a.become g n p d).turn = a.turn := rfl

theorem become_epoch_of_ne (away : h ≠ g) : (a.become g n p d).epoch h = a.epoch h :=
  Function.update_of_ne away ..

theorem become_phase_of_ne (away : h ≠ g) : (a.become g n p d).phase h = a.phase h :=
  Function.update_of_ne away ..

theorem become_data_of_ne (away : h ≠ g) : (a.become g n p d).data h = a.data h :=
  Function.update_of_ne away ..

theorem epoch_le_become (later : a.epoch g ≤ n) (h : G) :
    a.epoch h ≤ (a.become g n p d).epoch h := by
  by_cases here : h = g
  · subst here
    rwa [become_epoch_self]
  · exact (become_epoch_of_ne here).ge

end

section
variable {G D : Type*} {a : State G D} {g h : G} {n : Nat} {p : Phase} {d : D}
variable [Preorder D] {owner : Nat → Option G} {fresh : D} {e : Nat}

theorem shape_become [DecidableEq G] (shapes : ∀ h, Shape owner fresh h (a.epoch h) (a.phase h) (a.data h))
    (new : Shape owner fresh g n p d) (h : G) :
    Shape owner fresh h ((a.become g n p d).epoch h) ((a.become g n p d).phase h)
      ((a.become g n p d).data h) := by
  by_cases here : h = g
  · subst here
    rwa [become_epoch_self, become_phase_self, become_data_self]
  · rw [become_epoch_of_ne here, become_phase_of_ne here, become_data_of_ne here]
    exact shapes h

theorem shape_steady (knows : owner n ≠ some g → fresh ≤ d) : Shape owner fresh g n .steady d where
  awaiting waits := by rcases waits with waits | waits <;> cases waits
  held holds := by cases holds
  idle _ := knows

/-- Every step keeps phases and schedule together. -/
theorem Step.shape [DecidableEq G] {b : State G D} (step : Step owner fresh g a b)
    (shapes : ∀ h, Shape owner fresh h (a.epoch h) (a.phase h) (a.data h)) (h : G) :
    Shape owner fresh h (b.epoch h) (b.phase h) (b.data h) := by
  have shape := shapes g
  cases step with
  | @grow d more =>
    exact shape_become shapes
      ⟨shape.awaiting, shape.held, fun idle other => le_trans (shape.idle idle other) more⟩ h
  | pass steady before after =>
    exact shape_become shapes (shape_steady fun _ => shape.idle steady before) h
  | keep steady before after => exact shape_become shapes (shape_steady fun other => absurd after other) h
  | @hold k steady before after other =>
    exact shape_become shapes ⟨by rintro (waits | settles) <;> contradiction,
      fun _ => ⟨by omega, before, k, other, after⟩, by rintro ⟨⟩⟩ h
  | @drop d steady before after empty => exact shape_become shapes (shape_steady fun _ => empty) h
  | take steady before after => exact shape_become shapes (shape_steady fun other => absurd after other) h
  | @await k steady before other after =>
    exact shape_become shapes
      ⟨fun _ => ⟨by omega, after, k, other, before⟩, by rintro ⟨⟩, by rintro ⟨⟩⟩ h
  | @write d has mine =>
    exact shape_become shapes ⟨shape.awaiting, shape.held, fun _ other => absurd mine other⟩ h
  | @install x d waits offered more =>
    exact shape_become shapes
      ⟨fun _ => shape.awaiting (Or.inl waits), by rintro ⟨⟩, by rintro ⟨⟩⟩ h
  | finish settles =>
    have mine := (shape.awaiting (Or.inr settles)).2.1
    exact shape_become shapes (shape_steady fun other => absurd mine other) h
  | @discard d held claimed empty => exact shape_become shapes (shape_steady fun _ => empty) h

/-- An epoch that its owner has not reached lies after the turn. -/
theorem Inv.turn_lt (inv : Inv owner fresh a) (mine : owner e = some g) (early : a.epoch g < e) :
    a.turn < e := by
  rcases Nat.lt_trichotomy e a.turn with before | now | after
  · exact absurd (inv.behind before mine) (by omega)
  · subst now
    rcases inv.holder mine with ⟨same, _⟩ | ⟨same, _⟩ | ⟨later, _⟩ <;> omega
  · exact after

/-- Before its first owner comes, the object is fresh. -/
theorem Inv.value_eq_fresh (inv : Inv owner fresh a) (mine : owner (a.epoch g + 1) = some g)
    (free : ∀ e ≤ a.epoch g, owner e = none) : a.value = fresh := by
  have before := inv.turn_lt mine (Nat.lt_succ_self _)
  exact (inv.start (free a.turn (Nat.lt_succ_iff.mp before))).2

theorem Inv.turn_lt_of_awaiting (inv : Inv owner fresh a) (waits : a.phase g = .awaiting) :
    a.turn < a.epoch g := by
  obtain ⟨_, mine, _⟩ := (inv.shape g).awaiting (Or.inl waits)
  rcases Nat.lt_trichotomy (a.epoch g) a.turn with before | now | after
  · exact absurd (inv.behind before mine) (Nat.lt_irrefl _)
  · rw [now] at mine
    rcases inv.holder mine with ⟨_, steady | settling, _⟩ | ⟨same, _⟩ | ⟨later, _⟩
    · rw [waits] at steady; cases steady
    · rw [waits] at settling; cases settling
    · omega
    · omega
  · exact after

theorem Inv.turn_eq_of_live (inv : Inv owner fresh a) (live : Live owner a g) :
    a.epoch g = a.turn := by
  obtain ⟨mine, has⟩ := live
  rcases Nat.lt_trichotomy (a.epoch g) a.turn with before | now | after
  · exact absurd (inv.behind before mine) (Nat.lt_irrefl _)
  · exact now
  · rcases inv.ahead after mine with early | ⟨_, waits⟩
    · exact absurd early (Nat.lt_irrefl _)
    · rw [waits] at has
      rcases has with steady | settling
      · cases steady
      · cases settling

/-- At most one member has the object. -/
theorem Inv.live_unique (inv : Inv owner fresh a) (first : Live owner a g) (second : Live owner a h) :
    g = h := by
  have mine := first.1
  rw [inv.turn_eq_of_live first, ← inv.turn_eq_of_live second, second.1] at mine
  exact (Option.some.inj mine).symm

theorem Inv.value_le (inv : Inv owner fresh a) (live : Live owner a g) : a.value ≤ a.data g := by
  have now := inv.turn_eq_of_live live
  have mine := live.1
  rw [now] at mine
  rcases inv.holder mine with ⟨_, _, knows⟩ | ⟨_, held, _⟩ | ⟨later, _⟩
  · exact knows
  · rcases live.2 with steady | settling
    · rw [held] at steady; cases steady
    · rw [held] at settling; cases settling
  · omega

end

end DistSys.Handoff
