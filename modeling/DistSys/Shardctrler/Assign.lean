import DistSys.Shardctrler.Server
import Mathlib.Algebra.BigOperators.Group.Finset.Basic
import Mathlib.Algebra.Order.BigOperators.Group.List
import Mathlib.Algebra.BigOperators.Ring.Finset

namespace DistSys.Shardctrler

variable {groups : Groups} {targets counts : Int → Nat} {shards : Fin NShards → Int}
variable {gid : Int} {gids : List Int} {donors : List (Fin NShards)} {i : Fin NShards}

/-- Hand out shards one after the other. -/
def assign (shards : Fin NShards → Int) : List (Fin NShards × Int) → Fin NShards → Int
  | [] => shards
  | (shard, gid) :: rest => assign (Function.update shards shard gid) rest

theorem assign_append (shards : Fin NShards → Int) (first rest : List (Fin NShards × Int)) :
    assign shards (first ++ rest) = assign (assign shards first) rest := by
  induction first generalizing shards with
  | nil => rfl
  | cons pair first ih => exact ih _

/-- A shard keeps its owner unless it is handed out. -/
theorem assign_cases (shards : Fin NShards → Int) (pairs : List (Fin NShards × Int)) (i : Fin NShards) :
    i ∉ pairs.map Prod.fst ∧ assign shards pairs i = shards i ∨
      (i, assign shards pairs i) ∈ pairs := by
  induction pairs generalizing shards with
  | nil => exact Or.inl ⟨by simp, rfl⟩
  | cons pair pairs ih =>
    obtain ⟨shard, gid⟩ := pair
    rcases ih (Function.update shards shard gid) with ⟨absent, same⟩ | member
    · by_cases here : i = shard
      · subst here
        rw [Function.update_self] at same
        exact Or.inr (List.mem_cons.mpr (Or.inl (by rw [assign, same])))
      · rw [Function.update_of_ne here] at same
        refine Or.inl ⟨?_, same⟩
        rw [List.map_cons, List.mem_cons]
        exact not_or.mpr ⟨here, absent⟩
    · exact Or.inr (List.mem_cons_of_mem _ member)

/-- What the recipients ask for, in the order in which they are served. -/
def wanted (targets counts : Int → Nat) (gids : List Int) : List Int :=
  gids.flatMap fun gid => List.replicate (targets gid - counts gid) gid

theorem wanted_cons (targets counts : Int → Nat) (gid : Int) (gids : List Int) :
    wanted targets counts (gid :: gids) =
      List.replicate (targets gid - counts gid) gid ++ wanted targets counts gids :=
  List.flatMap_cons

theorem give_eq (gid : Int) (need : Nat) (donors : List (Fin NShards)) (shards : Fin NShards → Int) :
    give gid need donors shards =
      (donors.drop need, assign shards (donors.zip (List.replicate need gid))) := by
  induction donors generalizing need shards with
  | nil => cases need <;> rfl
  | cons shard donors ih =>
    cases need with
    | zero => rfl
    | succ need => exact ih need _

theorem zip_append_right {α β : Type*} (xs : List α) (ys zs : List β) :
    xs.zip (ys ++ zs) = xs.zip ys ++ (xs.drop ys.length).zip zs := by
  induction ys generalizing xs with
  | nil => simp
  | cons y ys ih =>
    cases xs with
    | nil => simp
    | cons x xs => simp [ih]

theorem map_fst_zip_take {α β : Type*} (xs : List α) (ys : List β) :
    (xs.zip ys).map Prod.fst = xs.take ys.length := by
  induction xs generalizing ys with
  | nil => simp
  | cons x xs ih => cases ys <;> simp [ih]

theorem map_snd_zip_take {α β : Type*} (xs : List α) (ys : List β) :
    (xs.zip ys).map Prod.snd = ys.take xs.length := by
  induction xs generalizing ys with
  | nil => simp
  | cons x xs ih => cases ys <;> simp [ih]

/-- The recipient loops serve the donors, first come first served. -/
theorem fill_eq (targets counts : Int → Nat) (gids : List Int) (donors : List (Fin NShards))
    (shards : Fin NShards → Int) :
    fill targets counts gids donors shards =
      assign shards (donors.zip (wanted targets counts gids)) := by
  induction gids generalizing donors shards with
  | nil => simp [fill, wanted, assign]
  | cons gid gids ih =>
    rw [fill, give_eq]
    simp only
    rw [ih, wanted_cons, zip_append_right, List.length_replicate, assign_append]

/-- How many shards a group owns. -/
def owned (shards : Fin NShards → Int) (gid : Int) : Nat :=
  (Finset.univ.filter fun i => shards i = gid).card

/-- Changing a function at one place changes how often a property holds only there. -/
theorem card_filter_update {ι κ : Type*} [Fintype ι] [DecidableEq ι] (p : ι → κ → Prop)
    [∀ i k, Decidable (p i k)] (f : ι → κ) (place : ι) (value : κ) :
    (Finset.univ.filter fun i => p i (Function.update f place value i)).card +
        (if p place (f place) then 1 else 0) =
      (Finset.univ.filter fun i => p i (f i)).card + (if p place value then 1 else 0) := by
  rw [Finset.card_filter, Finset.card_filter, ← Finset.add_sum_erase _ _ (Finset.mem_univ place),
    ← Finset.add_sum_erase Finset.univ (fun i => if p i (f i) then 1 else 0) (Finset.mem_univ place)]
  have away : ∀ i ∈ Finset.univ.erase place,
      (if p i (Function.update f place value i) then 1 else 0) = if p i (f i) then 1 else 0 := by
    intro i member
    rw [Function.update_of_ne (Finset.ne_of_mem_erase member)]
  rw [Finset.sum_congr rfl away, Function.update_self]
  omega

theorem owned_update (shards : Fin NShards → Int) (shard : Fin NShards) (target gid : Int) :
    owned (Function.update shards shard target) gid + (if shards shard = gid then 1 else 0) =
      owned shards gid + (if target = gid then 1 else 0) :=
  card_filter_update (fun _ owner => owner = gid) shards shard target

/-- Handing out distinct shards moves each from its owner to its receiver. -/
theorem owned_assign (shards : Fin NShards → Int) (pairs : List (Fin NShards × Int)) (gid : Int)
    (distinct : (pairs.map Prod.fst).Nodup) :
    owned (assign shards pairs) gid + (pairs.map Prod.fst).countP (shards · = gid) =
      owned shards gid + (pairs.map Prod.snd).count gid := by
  induction pairs generalizing shards with
  | nil => rfl
  | cons pair pairs ih =>
    obtain ⟨shard, target⟩ := pair
    rw [List.map_cons, List.nodup_cons] at distinct
    have rest := ih (Function.update shards shard target) distinct.2
    have step := owned_update shards shard target gid
    have same : (pairs.map Prod.fst).countP (Function.update shards shard target · = gid) =
        (pairs.map Prod.fst).countP (shards · = gid) := by
      refine List.countP_congr fun i member => ?_
      rw [Function.update_of_ne (ne_of_mem_of_not_mem member distinct.1)]
    rw [same] at rest
    rw [assign, List.map_cons, List.map_cons, List.countP_cons, List.count_cons]
    simp only [decide_eq_true_eq, beq_iff_eq]
    omega

theorem count_wanted (distinct : gids.Nodup) (targets counts : Int → Nat) (gid : Int) :
    (wanted targets counts gids).count gid = if gid ∈ gids then targets gid - counts gid else 0 := by
  induction gids with
  | nil => rfl
  | cons first gids ih =>
    rw [List.nodup_cons] at distinct
    rw [wanted_cons, List.count_append, List.count_replicate, ih distinct.2]
    by_cases here : first = gid
    · subst here
      simp [distinct.1]
    · simp [here, Ne.symm here]

theorem length_wanted (targets counts : Int → Nat) (gids : List Int) :
    (wanted targets counts gids).length = (gids.map fun gid => targets gid - counts gid).sum := by
  simp [wanted, List.length_flatMap]

theorem mem_of_mem_wanted (member : gid ∈ wanted targets counts gids) : gid ∈ gids := by
  obtain ⟨first, inside, copy⟩ := List.mem_flatMap.mp member
  rw [List.eq_of_mem_replicate copy]
  exact inside

/-- When only the first `n` wishes are met, a group gets what it lacks as far as the
groups before it have left something. -/
theorem count_take_wanted (distinct : gids.Nodup) (targets counts : Int → Nat) (member : gid ∈ gids)
    (n : Nat) :
    ((wanted targets counts gids).take n).count gid =
      min (targets gid - counts gid)
        (n - ((gids.takeWhile (· ≠ gid)).map fun other => targets other - counts other).sum) := by
  induction gids generalizing n with
  | nil => cases member
  | cons first gids ih =>
    rw [List.nodup_cons] at distinct
    rw [wanted_cons, List.take_append, List.count_append, List.take_replicate, List.count_replicate,
      List.length_replicate]
    by_cases here : first = gid
    · subst here
      have none : ((wanted targets counts gids).take (n - (targets first - counts first))).count first = 0 :=
        List.count_eq_zero.mpr fun copy => distinct.1 (mem_of_mem_wanted (List.mem_of_mem_take copy))
      simp [none, min_comm]
    · have later := (List.mem_cons.mp member).resolve_left (Ne.symm here)
      rw [ih distinct.2 later]
      simp [here, Nat.sub_sub]

end DistSys.Shardctrler
