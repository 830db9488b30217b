import Mathlib.Algebra.BigOperators.Group.Finset.Sigma
import Mathlib.Algebra.BigOperators.Group.Finset.Piecewise
import Mathlib.Algebra.Order.BigOperators.Group.Finset

namespace DistSys.Grouping

variable {α κ ν : Type*} [DecidableEq κ] (key : α → κ) (value : α → ν)

/-- The values that a list of records holds for one key. -/
def valuesOf (k : κ) (l : List α) : Multiset ν :=
  ((l.filter fun a => key a = k).map value : List ν)

/-- Every key of a list of records, once, with the multiset of all its values. -/
def groups (l : List α) : Multiset (κ × Multiset ν) :=
  ∑ k ∈ (l.map key).toFinset, {(k, valuesOf key value k l)}

/-- The runs of consecutive records with one key, each with its values in order. -/
def runs : List α → List (κ × List ν)
  | [] => []
  | a :: rest =>
    (key a, value a :: (rest.takeWhile fun b => key b = key a).map value) ::
      runs (rest.dropWhile fun b => key b = key a)
termination_by l => l.length
decreasing_by
  have shorter := (List.dropWhile_suffix (fun b => decide (key b = key a)) (l := rest)).length_le
  rw [List.length_cons]
  omega

variable {key value} {l m : List α}

theorem valuesOf_perm (perm : l.Perm m) (k : κ) : valuesOf key value k l = valuesOf key value k m :=
  Multiset.coe_eq_coe.mpr ((perm.filter _).map value)

theorem groups_perm (perm : l.Perm m) : groups key value l = groups key value m := by
  unfold groups
  rw [List.toFinset_eq_of_perm _ _ (perm.map key)]
  exact Finset.sum_congr rfl fun k _ => by rw [valuesOf_perm perm]

omit [DecidableEq κ] in
/-- The parts of a list by a hash below a bound make up the list. -/
theorem perm_parts (hash : α → Nat) {n : Nat} (bound : ∀ a ∈ l, hash a < n) :
    ((List.range n).flatMap fun y => l.filter fun a => hash a = y).Perm l := by
  -- the parts up to some hash make up the records up to that hash
  have upTo : ∀ n, ((List.range n).flatMap fun y => l.filter fun a => hash a = y).Perm
      (l.filter fun a => hash a < n) := by
    intro n
    induction n with
    | zero => simp
    | succ n ih =>
      have low : (l.filter fun a => hash a < n + 1).filter (fun a => hash a < n) =
          l.filter fun a => hash a < n := by
        rw [List.filter_filter]
        refine List.filter_congr fun a _ => ?_
        rw [← Bool.decide_and]
        exact decide_eq_decide.mpr (by omega)
      have top : (l.filter fun a => hash a < n + 1).filter (fun a => !decide (hash a < n)) =
          l.filter fun a => hash a = n := by
        rw [List.filter_filter]
        refine List.filter_congr fun a _ => ?_
        rw [← decide_not, ← Bool.decide_and]
        exact decide_eq_decide.mpr (by omega)
      have split := List.filter_append_perm (fun a => decide (hash a < n)) (l.filter fun a => hash a < n + 1)
      rw [low, top] at split
      rw [List.range_succ, List.flatMap_append, List.flatMap_singleton]
      exact (ih.append_right _).trans split
  have all : (l.filter fun a => hash a < n) = l :=
    List.filter_eq_self.mpr fun a member => decide_eq_true (bound a member)
  have parts := upTo n
  rwa [all] at parts

theorem valuesOf_filter (hash : κ → Nat) (k : κ) :
    valuesOf key value k (l.filter fun a => hash (key a) = hash k) = valuesOf key value k l := by
  unfold valuesOf
  rw [List.filter_filter]
  congr 2
  refine List.filter_congr fun a _ => ?_
  by_cases same : key a = k <;> simp [same]

/-- Splitting the records by a function of their keys splits the groups: no key is
in two parts, and the part of a key has all its values. -/
theorem sum_groups_filter (hash : κ → Nat) {n : Nat} (bound : ∀ a ∈ l, hash (key a) < n) :
    ∑ y ∈ Finset.range n, groups key value (l.filter fun a => hash (key a) = y) =
      groups key value l := by
  have inside : ∀ k ∈ (l.map key).toFinset, hash k ∈ Finset.range n := by
    intro k member
    obtain ⟨a, inList, rfl⟩ := List.mem_map.mp (List.mem_toFinset.mp member)
    exact Finset.mem_range.mpr (bound a inList)
  unfold groups
  rw [← Finset.sum_fiberwise_of_maps_to inside]
  refine Finset.sum_congr rfl fun y _ => ?_
  have keys : ((l.filter fun a => hash (key a) = y).map key).toFinset =
      (l.map key).toFinset.filter fun k => hash k = y := by
    ext k
    simp only [List.mem_toFinset, List.mem_map, List.mem_filter, decide_eq_true_eq, Finset.mem_filter]
    constructor
    · rintro ⟨a, ⟨inList, part⟩, rfl⟩
      exact ⟨⟨a, inList, rfl⟩, part⟩
    · rintro ⟨⟨a, inList, rfl⟩, part⟩
      exact ⟨a, ⟨inList, part⟩, rfl⟩
  rw [keys]
  refine Finset.sum_congr rfl fun k member => ?_
  obtain ⟨_, rfl⟩ := Finset.mem_filter.mp member
  rw [valuesOf_filter]

/-- In a list sorted by key the first run has all the records of its key. -/
theorem key_ne_of_mem_dropWhile {le : κ → κ → Prop} {a b : α}
    (antisymm : ∀ {j k}, le j k → le k j → j = k)
    (sorted : (a :: l).Pairwise fun b c => le (key b) (key c))
    (member : b ∈ l.dropWhile fun b => key b = key a) : key b ≠ key a := by
  obtain ⟨above, rest⟩ := List.pairwise_cons.mp sorted
  cases left : l.dropWhile fun b => key b = key a with
  | nil =>
    rw [left] at member
    cases member
  | cons c tail =>
    have part := List.dropWhile_suffix (fun b => decide (key b = key a)) (l := l)
    have stops : key c ≠ key a := by
      have := List.head?_dropWhile_not (fun b => decide (key b = key a)) l
      rw [left] at this
      simpa using this
    rw [left] at member part
    rcases List.mem_cons.mp member with rfl | later
    · exact stops
    · intro same
      have below := (List.pairwise_cons.mp (rest.sublist part.sublist)).1 b later
      rw [same] at below
      exact stops (antisymm below (above c (part.subset List.mem_cons_self)))

theorem groups_cons {a : α} (apart : ∀ b ∈ l.dropWhile fun b => key b = key a, key b ≠ key a) :
    groups key value (a :: l) =
      (key a, ((value a :: (l.takeWhile fun b => key b = key a).map value : List ν) : Multiset ν)) ::ₘ
        groups key value (l.dropWhile fun b => key b = key a) := by
  have whole : (l.takeWhile fun b => key b = key a) ++ (l.dropWhile fun b => key b = key a) = l :=
    List.takeWhile_append_dropWhile
  have same : ∀ b ∈ l.takeWhile fun b => key b = key a, key b = key a := fun b member =>
    of_decide_eq_true (List.all_eq_true.mp List.all_takeWhile b member)
  generalize l.takeWhile (fun b => decide (key b = key a)) = run at whole same
  generalize l.dropWhile (fun b => decide (key b = key a)) = rest at whole apart
  subst whole
  have keys : ((a :: (run ++ rest)).map key).toFinset = insert (key a) (rest.map key).toFinset := by
    ext k
    simp only [List.map_cons, List.map_append, List.toFinset_cons, Finset.mem_insert,
      List.toFinset_append, Finset.mem_union, List.mem_toFinset, List.mem_map]
    constructor
    · rintro (rfl | ⟨b, member, rfl⟩ | later)
      · exact Or.inl rfl
      · exact Or.inl (same b member)
      · exact Or.inr later
    · exact Or.imp_right Or.inr
  have fresh : key a ∉ (rest.map key).toFinset := by
    intro member
    obtain ⟨b, inRest, is⟩ := List.mem_map.mp (List.mem_toFinset.mp member)
    exact apart b inRest is
  unfold groups
  rw [keys, Finset.sum_insert fresh, Multiset.singleton_add]
  refine congrArg₂ Multiset.cons (congrArg (Prod.mk (key a)) ?_) ?_
  · have none : rest.filter (fun b => decide (key b = key a)) = [] :=
      List.filter_eq_nil_iff.mpr fun b member is => apart b member (of_decide_eq_true is)
    have all : run.filter (fun b => decide (key b = key a)) = run :=
      List.filter_eq_self.mpr fun b member => decide_eq_true (same b member)
    rw [valuesOf, List.filter_cons_of_pos (by simp), List.filter_append, none, all, List.append_nil,
      List.map_cons]
  · refine Finset.sum_congr rfl fun k member => ?_
    have other : key a ≠ k := fun is => fresh (is ▸ member)
    have none : run.filter (fun b => decide (key b = k)) = [] :=
      List.filter_eq_nil_iff.mpr fun b inRun is => other ((same b inRun).symm.trans (of_decide_eq_true is))
    rw [valuesOf, List.filter_cons_of_neg (by simpa using other), List.filter_append, none,
      List.nil_append, valuesOf]

/-- The runs of a sorted list are its groups. -/
theorem runs_eq_groups {le : κ → κ → Prop} (antisymm : ∀ {j k}, le j k → le k j → j = k)
    (sorted : l.Pairwise fun a b => le (key a) (key b)) :
    ((runs key value l).map fun run => (run.1, (run.2 : Multiset ν)) : List (κ × Multiset ν)) =
      groups key value l := by
  induction l using runs.induct key with
  | case1 =>
    rw [runs]
    rfl
  | case2 a rest ih =>
    have apart : ∀ b ∈ rest.dropWhile fun b => key b = key a, key b ≠ key a := fun b member =>
      key_ne_of_mem_dropWhile antisymm sorted member
    have below := (List.pairwise_cons.mp sorted).2.sublist
      (List.dropWhile_suffix fun b => decide (key b = key a)).sublist
    rw [runs, groups_cons apart, ← ih below, List.map_cons, Multiset.cons_coe]

/-- What a function that does not look at the order of the values makes of the
groups. -/
def collect {β : Type*} (f : κ → List ν → Multiset β)
    (depends : ∀ k vs vs', vs.Perm vs' → f k vs = f k vs') (parts : Multiset (κ × Multiset ν)) :
    Multiset β :=
  parts.bind fun part => Quotient.lift (f part.1) (depends part.1) part.2

theorem collect_runs {β : Type*} {f : κ → List ν → Multiset β}
    (depends : ∀ k vs vs', vs.Perm vs' → f k vs = f k vs') {le : κ → κ → Prop}
    (antisymm : ∀ {j k}, le j k → le k j → j = k) (sorted : l.Pairwise fun a b => le (key a) (key b)) :
    ((runs key value l).map fun run => f run.1 run.2).sum = collect f depends (groups key value l) := by
  rw [← runs_eq_groups antisymm sorted, collect, Multiset.bind, Multiset.map_coe, List.map_map]
  rfl

/-- Key by key. -/
theorem collect_groups {β : Type*} {f : κ → List ν → Multiset β}
    (depends : ∀ k vs vs', vs.Perm vs' → f k vs = f k vs') (l : List α) :
    collect f depends (groups key value l) =
      ∑ k ∈ (l.map key).toFinset, f k ((l.filter fun a => key a = k).map value) := by
  unfold groups
  induction (l.map key).toFinset using Finset.induction_on with
  | empty => rfl
  | insert k rest fresh ih =>
    rw [Finset.sum_insert fresh, Finset.sum_insert fresh, ← ih, collect, Multiset.add_bind, Multiset.singleton_bind]
    rfl

omit [DecidableEq κ] in
theorem collect_sum {β : Type*} {f : κ → List ν → Multiset β}
    (depends : ∀ k vs vs', vs.Perm vs' → f k vs = f k vs') (n : Nat)
    (parts : Nat → Multiset (κ × Multiset ν)) :
    ∑ y ∈ Finset.range n, collect f depends (parts y) =
      collect f depends (∑ y ∈ Finset.range n, parts y) := by
  induction n with
  | zero => rfl
  | succ n ih =>
    rw [Finset.sum_range_succ, Finset.sum_range_succ, ih, collect, collect, collect, Multiset.add_bind]

end DistSys.Grouping
