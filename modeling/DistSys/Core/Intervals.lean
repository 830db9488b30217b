import DistSys.Core.Exec
import Mathlib.Data.List.Nodup

namespace DistSys

/-- Two entries of a list come one before the other. -/
theorem pair_sublist_or {α : Type*} {l : List α} {x y : α} (first : x ∈ l) (second : y ∈ l) (apart : x ≠ y) :
    [x, y].Sublist l ∨ [y, x].Sublist l := by
  induction l with
  | nil => cases first
  | cons z l ih =>
    rcases List.mem_cons.mp first with rfl | first
    · rcases List.mem_cons.mp second with rfl | second
      · exact absurd rfl apart
      · exact Or.inl ((List.singleton_sublist.mpr second).cons_cons x)
    · rcases List.mem_cons.mp second with is | second
      · exact Or.inr (is ▸ (List.singleton_sublist.mpr first).cons_cons y)
      · exact (ih first second).imp (List.Sublist.cons z) (List.Sublist.cons z)

theorem mem_of_pair_sublist {α : Type*} {xs ys : List α} {x y : α} (before : [x, y].Sublist (xs ++ y :: ys))
    (nodup : (xs ++ y :: ys).Nodup) : x ∈ xs := by
  have away : y ∉ ys := (List.nodup_cons.mp (List.nodup_append.mp nodup).2.1).1
  obtain ⟨left, right, split, inLeft, inRight⟩ := List.sublist_append_iff.mp before
  cases left with
  | nil =>
    subst split
    cases inRight with
    | cons _ later => exact absurd (later.subset (by simp)) away
    | cons_cons _ later => exact absurd (List.singleton_sublist.mp later) away
  | cons z left =>
    rw [(List.cons.inj split).1]
    exact inLeft.subset List.mem_cons_self

theorem mem_of_sublist_pair {α : Type*} {xs ys : List α} {x y : α} (before : [x, y].Sublist (xs ++ x :: ys))
    (nodup : (xs ++ x :: ys).Nodup) : y ∈ ys := by
  obtain ⟨_, later, apart⟩ := List.nodup_append.mp nodup
  have away : x ∉ xs := fun inside => apart x inside x List.mem_cons_self rfl
  obtain ⟨left, right, split, inLeft, inRight⟩ := List.sublist_append_iff.mp before
  cases left with
  | nil =>
    subst split
    cases inRight with
    | cons _ later => exact later.subset (by simp)
    | cons_cons _ later => exact List.singleton_sublist.mp later
  | cons z left =>
    rw [(List.cons.inj split).1] at away
    exact absurd (inLeft.subset List.mem_cons_self) away

namespace Intervals

/-- The ends of numbered calls. -/
inductive Mark
  | call (i : Nat)
  | ret (i : Nat)
deriving DecidableEq, Repr

namespace Mark

def id : Mark → Nat
  | call i => i
  | ret i => i

end Mark

/-- Every call returns, once and after it was made. -/
structure Paired (marks : List Mark) : Prop where
  nodup : marks.Nodup
  returns : ∀ {i}, Mark.call i ∈ marks → [Mark.call i, Mark.ret i].Sublist marks
  called : ∀ {i}, Mark.ret i ∈ marks → Mark.call i ∈ marks

/-- What is left of a history without some of the calls. -/
def rest (marks : List Mark) (order : List Nat) : List Mark :=
  marks.filter fun mark => mark.id ∉ order

/-- No call has returned before this one is made. -/
def Open (marks : List Mark) (i : Nat) : Prop :=
  ∃ before after, marks = before ++ Mark.call i :: after ∧ ∀ j, Mark.ret j ∉ before

/-- Calls that can be the first ones in an order of all calls, as far as the times
and the effects of the calls so far tell. -/
inductive Linearized {S : Type*} (step : S → Nat → Option S) (start : S) (marks : List Mark) : List Nat → S → Prop
  | nil : Linearized step start marks [] start
  | snoc {order s s' i} : Linearized step start marks order s → Open (rest marks order) i →
      step s i = some s' → Linearized step start marks (order ++ [i]) s'

/-- All calls can be put in an order. -/
def Linearizable {S : Type*} (step : S → Nat → Option S) (start : S) (marks : List Mark) : Prop :=
  ∃ order s, Linearized step start marks order s ∧ rest marks order = []

variable {S : Type*} {step : S → Nat → Option S} {start s : S} {marks : List Mark}
variable {order order' : List Nat} {i j : Nat}

theorem mem_rest {mark : Mark} : mark ∈ rest marks order ↔ mark ∈ marks ∧ mark.id ∉ order := by
  simp [rest]

theorem rest_congr (same : ∀ i, i ∈ order ↔ i ∈ order') : rest marks order = rest marks order' :=
  List.filter_congr fun mark _ => by simp only [same]

theorem rest_nil : rest marks [] = marks := by
  simp [rest]

theorem rest_concat : rest marks (order ++ [i]) = (rest marks order).filter fun mark => mark.id ≠ i := by
  rw [rest, rest, List.filter_filter]
  refine List.filter_congr fun mark _ => ?_
  simp [and_comm]

theorem Paired.rest (paired : Paired marks) (order : List Nat) : Paired (rest marks order) := by
  refine ⟨paired.nodup.filter _, fun {i} made => ?_, fun {i} returned => ?_⟩
  · obtain ⟨made, absent⟩ := mem_rest.mp made
    have kept := (paired.returns made).filter fun mark => decide (mark.id ∉ order)
    have both : [Mark.call i, Mark.ret i].filter (fun mark => decide (mark.id ∉ order)) =
        [Mark.call i, Mark.ret i] := by
      have missing : i ∉ order := absent
      simp [Mark.id, missing]
    exact both ▸ kept
  · obtain ⟨returned, absent⟩ := mem_rest.mp returned
    exact mem_rest.mpr ⟨paired.called returned, absent⟩

/-- The return of a call is behind it. -/
theorem Paired.ret_mem {before after : List Mark} (paired : Paired (before ++ Mark.call i :: after)) :
    Mark.ret i ∈ after :=
  mem_of_sublist_pair (paired.returns (List.mem_append_right _ List.mem_cons_self)) paired.nodup

/-- Taking a call out. -/
theorem Paired.filter_id {before middle after : List Mark}
    (paired : Paired (before ++ Mark.call i :: (middle ++ Mark.ret i :: after))) :
    (before ++ Mark.call i :: (middle ++ Mark.ret i :: after)).filter (fun mark => decide (mark.id ≠ i)) =
      before ++ (middle ++ after) := by
  have nodup := paired.nodup
  have other {mark : Mark} (call : mark ≠ Mark.call i) (ret : mark ≠ Mark.ret i) : mark.id ≠ i := by
    rintro rfl
    cases mark with
    | call => exact call rfl
    | ret => exact ret rfl
  have kept {xs : List Mark} (call : Mark.call i ∉ xs) (ret : Mark.ret i ∉ xs) :
      xs.filter (fun mark => decide (mark.id ≠ i)) = xs := by
    refine List.filter_eq_self.mpr fun mark inside => decide_eq_true (other ?_ ?_)
    · rintro rfl
      exact call inside
    · rintro rfl
      exact ret inside
  simp only [List.nodup_append, List.nodup_cons, List.mem_append, List.mem_cons, not_or] at nodup
  simp only [List.filter_append, List.filter_cons]
  grind [Mark.id]

theorem Open.mem (opened : Open marks i) : Mark.call i ∈ marks := by
  obtain ⟨before, after, rfl, _⟩ := opened
  exact List.mem_append_right _ List.mem_cons_self

theorem Open.mem_before {before after : List Mark} (opened : Open (before ++ Mark.ret j :: after) i) :
    Mark.call i ∈ before := by
  obtain ⟨before', after', split, silent⟩ := opened
  rcases List.append_eq_append_iff.mp split with ⟨middle, longer, tail⟩ | ⟨middle, shorter, tail⟩
  · cases middle with
    | nil => cases tail
    | cons mark middle =>
      cases tail
      exact absurd (longer ▸ List.mem_append_right before List.mem_cons_self) (silent j)
  · cases middle with
    | nil => cases tail
    | cons mark middle =>
      cases tail
      exact shorter ▸ List.mem_append_right before' List.mem_cons_self

/-- A call can be the next one if all calls that returned before it are taken. -/
theorem open_rest_iff (nodup : marks.Nodup) : Open (rest marks order) i ↔
    Mark.call i ∈ marks ∧ i ∉ order ∧ ∀ j, [Mark.ret j, Mark.call i].Sublist marks → j ∈ order := by
  constructor
  · intro opened
    have here := opened.mem
    obtain ⟨before, after, split, silent⟩ := opened
    refine ⟨(mem_rest.mp here).1, (mem_rest.mp here).2, fun j earlier => ?_⟩
    by_contra absent
    have kept := earlier.filter fun mark => decide (mark.id ∉ order)
    have left : [Mark.ret j, Mark.call i].filter (fun mark => decide (mark.id ∉ order)) =
        [Mark.ret j, Mark.call i] := by
      have missing : i ∉ order := (mem_rest.mp here).2
      simp [Mark.id, absent, missing]
    rw [left] at kept
    have both : [Mark.ret j, Mark.call i].Sublist (before ++ Mark.call i :: after) := split ▸ kept
    exact silent j (mem_of_pair_sublist both (split ▸ nodup.filter _))
  · rintro ⟨made, absent, taken⟩
    obtain ⟨before, after, split⟩ := List.append_of_mem (mem_rest.mpr ⟨made, absent⟩)
    refine ⟨before, after, split, fun j inside => ?_⟩
    have both : [Mark.ret j, Mark.call i].Sublist (rest marks order) := by
      rw [split]
      exact (List.singleton_sublist.mpr inside).append (List.singleton_sublist.mpr List.mem_cons_self)
    exact (mem_rest.mp (both.subset List.mem_cons_self)).2 (taken j (both.trans List.filter_sublist))

namespace Linearized

theorem state_of_nil (given : Linearized step start marks [] s) : s = start := by
  generalize empty : ([] : List Nat) = order at given
  cases given with
  | nil => rfl
  | snoc _ _ _ => simp at empty

theorem mem_call (given : Linearized step start marks order s) (inside : i ∈ order) : Mark.call i ∈ marks := by
  induction given with
  | nil => cases inside
  | @snoc order s s' k _ opened _ ih =>
    rcases List.mem_append.mp inside with old | new
    · exact ih old
    · rw [List.mem_singleton.mp new]
      exact (mem_rest.mp opened.mem).1

theorem nodup (given : Linearized step start marks order s) : order.Nodup := by
  induction given with
  | nil => exact List.nodup_nil
  | @snoc order s s' k _ opened _ ih =>
    rw [List.nodup_append]
    refine ⟨ih, by simp, fun a old b new => ?_⟩
    rintro rfl
    rw [List.mem_singleton.mp new] at old
    exact (mem_rest.mp opened.mem).2 old

/-- The order of the calls in a search: legal, without repetition, and everything that
returned before a call was made comes before it. -/
theorem iff_order (paired : marks.Nodup) : Linearized step start marks order s ↔
    exec step start order = some s ∧ order.Nodup ∧ (∀ i ∈ order, Mark.call i ∈ marks) ∧
      ∀ xs i ys, order = xs ++ i :: ys → ∀ j, [Mark.ret j, Mark.call i].Sublist marks → j ∈ xs := by
  constructor
  · intro given
    refine ⟨?_, given.nodup, fun i => given.mem_call, ?_⟩
    · induction given with
      | nil => rfl
      | snoc _ _ taken ih => exact exec_concat ih taken
    · induction given with
      | nil =>
        intro xs i ys split
        simp at split
      | @snoc order s s' k _ opened _ ih =>
        intro xs i ys split j earlier
        rcases List.eq_nil_or_concat ys with rfl | ⟨ys, last, rfl⟩
        · obtain ⟨rfl, is⟩ := List.append_inj' split rfl
          cases is
          exact ((open_rest_iff paired).mp opened).2.2 j earlier
        · rw [List.concat_eq_append, ← List.cons_append, ← List.append_assoc] at split
          exact ih xs i ys (List.append_inj' split rfl).1 j earlier
  · rintro ⟨run, nodup, made, timely⟩
    induction order using List.reverseRecOn generalizing s with
    | nil =>
      cases run
      exact .nil
    | append_singleton order k ih =>
      rw [exec_append] at run
      obtain ⟨t, first, last⟩ := Option.bind_eq_some_iff.mp run
      obtain ⟨u, taken, is⟩ := Option.bind_eq_some_iff.mp last
      cases is
      obtain ⟨before, _, apart⟩ := List.nodup_append.mp nodup
      refine .snoc (ih first before (fun i inside => made i (List.mem_append_left _ inside)) ?_) ?_ taken
      · intro xs i ys split
        exact timely xs i (ys ++ [k]) (by rw [split, List.append_assoc, List.cons_append])
      · refine (open_rest_iff paired).mpr ⟨made k (by simp), fun inside => apart k inside k (by simp) rfl, ?_⟩
        exact timely order k [] rfl

/-- A search that never goes on from a set of calls twice with states that are not told
apart: it meets every set of calls that can come first. -/
theorem met {seen : List Nat → S → Prop} {equal : S → S → Prop}
    (given : Linearized step start marks order s) (refl : ∀ s, equal s s)
    (trans : ∀ {s t u}, equal s t → equal t u → equal s u)
    (alike : ∀ {s t i s'}, equal s t → step s i = some s' → ∃ t', step t i = some t' ∧ equal s' t')
    (root : seen [] start)
    (next : ∀ {order s i s'}, seen order s → Open (rest marks order) i → step s i = some s' →
      ∃ order' t, seen order' t ∧ (∀ k, k ∈ order' ↔ k ∈ order ++ [i]) ∧ equal s' t) :
    ∃ order' t, seen order' t ∧ (∀ k, k ∈ order' ↔ k ∈ order) ∧ equal s t := by
  induction given with
  | nil => exact ⟨[], start, root, fun _ => Iff.rfl, refl start⟩
  | snoc _ opened taken ih =>
    obtain ⟨known, t, met, same, close⟩ := ih
    obtain ⟨t', taken', close'⟩ := alike close taken
    obtain ⟨order', u, met', same', close''⟩ := next met (rest_congr same ▸ opened) taken'
    refine ⟨order', u, met', fun k => ?_, trans close' close''⟩
    rw [same', List.mem_append, List.mem_append, same]

end Linearized

end Intervals

end DistSys
