import Mathlib.Data.List.Infix

namespace DistSys

/-- A place of a list that has got one more entry is an old one or the last. -/
theorem getElem?_concat_cases {α : Type*} {l : List α} {x y : α} {i : Nat}
    (here : (l ++ [x])[i]? = some y) : l[i]? = some y ∨ (i = l.length ∧ x = y) := by
  rcases Nat.lt_or_ge i l.length with old | beyond
  · rw [List.getElem?_append_left old] at here
    exact Or.inl here
  · have bound := (List.getElem?_eq_some_iff.mp here).1
    rw [List.length_append, List.length_singleton] at bound
    have last : i = l.length := by omega
    subst last
    rw [List.getElem?_concat_length] at here
    exact Or.inr ⟨rfl, Option.some.inj here⟩

/-- Run a partial step function along a list of actions. A disabled action
makes the whole execution undefined. -/
def exec {σ α : Type*} (step : σ → α → Option σ) : σ → List α → Option σ
  | s, [] => some s
  | s, a :: as => (step s a).bind fun t => exec step t as

section
variable {σ α : Type*} {step : σ → α → Option σ}

theorem exec_append (s : σ) (as bs : List α) :
    exec step s (as ++ bs) = (exec step s as).bind fun t => exec step t bs := by
  induction as generalizing s with
  | nil => rfl
  | cons a as ih =>
    simp only [List.cons_append, exec]
    cases step s a with
    | none => rfl
    | some t => exact ih t

theorem exec_concat {s t u : σ} {as : List α} {a : α}
    (run : exec step s as = some t) (next : step t a = some u) :
    exec step s (as ++ [a]) = some u := by
  rw [exec_append, run]
  simp only [Option.bind_some, exec, next]

/-- What holds at the start and survives every step holds after every
execution. The history version also sees the actions taken so far. -/
theorem exec_history {s t : σ} {as : List α} {P : List α → σ → Prop} (base : P [] s)
    (keep : ∀ bs u a v, exec step s bs = some u → P bs u → step u a = some v → P (bs ++ [a]) v)
    (run : exec step s as = some t) : P as t := by
  induction as using List.reverseRecOn generalizing t with
  | nil => cases run; exact base
  | append_singleton as a ih =>
    rw [exec_append] at run
    obtain ⟨u, first, rest⟩ := Option.bind_eq_some_iff.mp run
    obtain ⟨v, next, last⟩ := Option.bind_eq_some_iff.mp rest
    cases last
    exact keep as u a t first (ih first) next

theorem exec_invariant {s t : σ} {as : List α} {P : σ → Prop} (base : P s)
    (keep : ∀ u a v, P u → step u a = some v → P v) (run : exec step s as = some t) : P t :=
  exec_history (P := fun _ u => P u) base (fun _ u a v _ old next => keep u a v old next) run

/-- A history variable: it changes with every step and never affects one. -/
def observe {τ : Type*} (step : σ → α → Option σ) (track : σ → α → τ → τ) : σ → τ → List α → τ
  | _, x, [] => x
  | s, x, a :: as =>
    match step s a with
    | some t => observe step track t (track s a x) as
    | none => x

theorem observe_concat {τ : Type*} {track : σ → α → τ → τ} {s t u : σ} {as : List α} {a : α}
    (x : τ) (run : exec step s as = some t) (next : step t a = some u) :
    observe step track s x (as ++ [a]) = track t a (observe step track s x as) := by
  induction as generalizing s x with
  | nil =>
    cases run
    simp only [List.nil_append, observe, next]
  | cons b as ih =>
    obtain ⟨v, first, rest⟩ := Option.bind_eq_some_iff.mp run
    simp only [List.cons_append, observe, first]
    exact ih (track s b x) rest

/-- Every action of the execution is taken in a state where `guard` allows it. -/
def Along (step : σ → α → Option σ) (s : σ) (as : List α) (guard : σ → α → Prop) : Prop :=
  ∀ bs a u, bs ++ [a] <+: as → exec step s bs = some u → guard u a

theorem along_nil (s : σ) (guard : σ → α → Prop) : Along step s [] guard := by
  intro bs a u part
  exact absurd (List.prefix_nil.mp part) (by simp)

theorem along_cons {s : σ} {a : α} {as : List α} {guard : σ → α → Prop} :
    Along step s (a :: as) guard ↔ guard s a ∧ ∀ t, step s a = some t → Along step t as guard := by
  constructor
  · intro along
    refine ⟨along [] a s (by simp) rfl, fun t next bs b u part run => ?_⟩
    refine along (a :: bs) b u (by simpa using part) ?_
    simp only [exec, next, Option.bind_some, run]
  · rintro ⟨first, rest⟩ bs b u part run
    cases bs with
    | nil =>
      cases run
      obtain ⟨rfl, _⟩ := List.cons_prefix_cons.mp part
      exact first
    | cons a' bs =>
      obtain ⟨rfl, part'⟩ := List.cons_prefix_cons.mp part
      obtain ⟨t, next, run'⟩ := Option.bind_eq_some_iff.mp run
      exact rest t next bs b u part' run'

instance decidableAlong {guard : σ → α → Prop} [∀ s a, Decidable (guard s a)] :
    (s : σ) → (as : List α) → Decidable (Along step s as guard)
  | s, [] => isTrue (along_nil s guard)
  | s, a :: as =>
    match next : step s a with
    | none => decidable_of_iff (guard s a) (by simp [along_cons, next])
    | some t =>
      have : Decidable (Along step t as guard) := decidableAlong t as
      decidable_of_iff (guard s a ∧ Along step t as guard) (by simp [along_cons, next])

/-- The history rule for executions whose actions are all guarded. -/
theorem exec_along {s t : σ} {as : List α} {guard : σ → α → Prop} {P : List α → σ → Prop}
    (base : P [] s)
    (keep : ∀ bs u a v, exec step s bs = some u → P bs u → guard u a → step u a = some v →
      P (bs ++ [a]) v)
    (guarded : Along step s as guard) (run : exec step s as = some t) : P as t := by
  refine exec_history (P := fun bs u => bs <+: as → P bs u) (fun _ => base) ?_ run List.prefix_rfl
  intro bs u a v before old next part
  exact keep bs u a v before (old ((List.prefix_append bs [a]).trans part)) (guarded bs a u part before) next

/-- If every guarded action is possible, the whole execution is. -/
theorem exec_along_exists {s : σ} {as : List α} {guard : σ → α → Prop} {P : List α → σ → Prop}
    (base : P [] s)
    (keep : ∀ bs u a, exec step s bs = some u → P bs u → guard u a →
      ∃ v, step u a = some v ∧ P (bs ++ [a]) v)
    (guarded : Along step s as guard) : ∃ t, exec step s as = some t ∧ P as t := by
  induction as using List.reverseRecOn with
  | nil => exact ⟨s, rfl, base⟩
  | append_singleton as a ih =>
    obtain ⟨u, run, old⟩ := ih fun bs b w part before =>
      guarded bs b w (part.trans (List.prefix_append as [a])) before
    obtain ⟨v, next, new⟩ := keep as u a run old (guarded as a u List.prefix_rfl run)
    exact ⟨v, exec_concat run next, new⟩

/-- Two machines that show the same after every guarded step show the same after the
whole execution, and one stops where the other does. -/
theorem exec_view {σ' β τ : Type*} {step' : σ' → β → Option σ'} {view : σ → τ} {view' : σ' → τ}
    {f : α → β} {guard : σ → α → Prop}
    (keep : ∀ s s' a, view s = view' s' → guard s a → (step s a).map view = (step' s' (f a)).map view')
    {s : σ} {s' : σ'} {as : List α} (start : view s = view' s') (guarded : Along step s as guard) :
    (exec step s as).map view = (exec step' s' (as.map f)).map view' := by
  induction as generalizing s s' with
  | nil => simp only [exec, List.map_nil, Option.map_some, start]
  | cons a as ih =>
    obtain ⟨first, rest⟩ := along_cons.mp guarded
    have same := keep s s' a start first
    simp only [exec, List.map_cons]
    cases next : step s a with
    | none =>
      rw [next, Option.map_none, eq_comm, Option.map_eq_none_iff] at same
      rw [same]
      rfl
    | some t =>
      rw [next, Option.map_some, eq_comm, Option.map_eq_some_iff] at same
      obtain ⟨t', next', shows⟩ := same
      rw [next']
      exact ih shows.symm (rest t next)

/-- Every moment of an execution is itself reached, and the rest of the
execution starts from it. -/
theorem exec_split {s t : σ} {as bs : List α} (part : bs <+: as) (run : exec step s as = some t) :
    ∃ u cs, as = bs ++ cs ∧ exec step s bs = some u ∧ exec step u cs = some t := by
  obtain ⟨cs, rfl⟩ := part
  rw [exec_append] at run
  obtain ⟨u, first, rest⟩ := Option.bind_eq_some_iff.mp run
  exact ⟨u, cs, rfl, first, rest⟩

end

end DistSys
