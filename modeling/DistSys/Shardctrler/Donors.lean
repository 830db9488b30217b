import DistSys.Shardctrler.Assign

namespace DistSys.Shardctrler

variable {groups servers : Groups} {targets counts : Int → Nat} {shards : Fin NShards → Int}
variable {gid : Int} {gids leaving : List Int} {donors l : List (Fin NShards)}

theorem mem_sortedGIDs : gid ∈ sortedGIDs groups ↔ gid ∈ groups := by
  rw [sortedGIDs, List.mem_insertionSort]
  exact Iff.rfl

theorem nodup_sortedGIDs (groups : Groups) : (sortedGIDs groups).Nodup :=
  (List.perm_insertionSort _ _).nodup_iff.mpr groups.nodupKeys

theorem mem_addGroups : gid ∈ addGroups groups servers ↔ gid ∈ groups ∨ gid ∈ servers := by
  have loop : ∀ (entries : List (Sigma fun _ : Int => List GoString)) (groups : Groups),
      gid ∈ entries.foldl (fun groups entry => groups.insert entry.1 entry.2) groups ↔
        gid ∈ groups ∨ gid ∈ entries.keys := by
    intro entries
    induction entries with
    | nil => intro groups; simp
    | cons entry entries ih =>
      intro groups
      rw [List.foldl_cons, ih, AList.mem_insert, List.keys_cons, List.mem_cons]
      tauto
  exact loop servers.entries groups

theorem mem_removeGroups : gid ∈ removeGroups groups gids ↔ gid ∈ groups ∧ gid ∉ gids := by
  unfold removeGroups
  induction gids generalizing groups with
  | nil => simp
  | cons first gids ih =>
    rw [List.foldl_cons, ih, AList.mem_erase, List.mem_cons]
    tauto

/-! How many shards each group should own -/

theorem computeTargets_bounds (present : gid ∈ groups) :
    NShards / (sortedGIDs groups).length ≤ computeTargets groups gid ∧
      computeTargets groups gid ≤ NShards / (sortedGIDs groups).length + 1 := by
  unfold computeTargets
  simp only
  rw [if_pos (mem_sortedGIDs.mpr present)]
  split <;> omega

theorem map_idxOf {α : Type*} (distinct : gids.Nodup) (value : Nat → α) :
    (gids.map fun gid => value (gids.idxOf gid)) = (List.range gids.length).map value := by
  refine List.ext_getElem (by simp) fun k bound _ => ?_
  rw [List.length_map] at bound
  rw [List.getElem_map, List.getElem_map, List.getElem_range, distinct.idxOf_getElem k bound]

theorem sum_even (n q r : Nat) :
    ((List.range n).map fun k => if k < r then q + 1 else q).sum = n * q + min n r := by
  induction n with
  | zero => simp
  | succ n ih =>
    rw [List.range_succ, List.map_append, List.sum_append, ih, Nat.succ_mul]
    simp only [List.map_cons, List.map_nil, List.sum_cons, List.sum_nil]
    split <;> omega

theorem computeTargets_sum (nonempty : sortedGIDs groups ≠ []) :
    ((sortedGIDs groups).map (computeTargets groups)).sum = NShards := by
  have positive := List.length_pos_iff.mpr nonempty
  have loop : (sortedGIDs groups).map (computeTargets groups) = (sortedGIDs groups).map fun gid =>
      if (sortedGIDs groups).idxOf gid < NShards % (sortedGIDs groups).length
        then NShards / (sortedGIDs groups).length + 1 else NShards / (sortedGIDs groups).length := by
    refine List.map_congr_left fun gid member => ?_
    rw [computeTargets, if_pos member]
  rw [loop, map_idxOf (nodup_sortedGIDs groups) fun k =>
    if k < NShards % (sortedGIDs groups).length
      then NShards / (sortedGIDs groups).length + 1 else NShards / (sortedGIDs groups).length, sum_even]
  have small := Nat.mod_lt NShards positive
  have whole := Nat.div_add_mod NShards (sortedGIDs groups).length
  rw [min_eq_right small.le, whole]

/-! Counting shards by owner -/

theorem countP_finRange (shards : Fin NShards → Int) (gid : Int) :
    (List.finRange NShards).countP (shards · = gid) = owned shards gid := by
  rw [owned, List.countP_eq_length_filter]
  rfl

/-- Over distinct owners, the shards of each add up to the shards of all. -/
theorem sum_countP (distinct : gids.Nodup) (shards : Fin NShards → Int) (l : List (Fin NShards)) :
    (gids.map fun gid => l.countP (shards · = gid)).sum = l.countP (shards · ∈ gids) := by
  induction gids with
  | nil => simp
  | cons first gids ih =>
    rw [List.nodup_cons] at distinct
    rw [List.map_cons, List.sum_cons, ih distinct.2]
    have split := List.countP_eq_countP_filter_add l (fun i => decide (shards i ∈ first :: gids))
      (fun i => decide (shards i = first))
    rw [split, List.countP_filter, List.countP_filter]
    congr 1
    · refine List.countP_congr fun i _ => ?_
      simp +contextual
    · refine List.countP_congr fun i _ => ?_
      simp only [List.mem_cons, decide_eq_true_eq, Bool.and_eq_true, Bool.not_eq_true',
        decide_eq_false_iff_not]
      constructor
      · intro later
        exact ⟨Or.inr later, fun same => distinct.1 (same ▸ later)⟩
      · rintro ⟨same | later, other⟩
        · exact absurd same other
        · exact later

theorem foldl_countShard (groups : Groups) (shards : Fin NShards → Int) (counts : Int → Nat)
    (present : gid ∈ groups) :
    l.foldl (countShard groups shards) counts gid = counts gid + l.countP (shards · = gid) := by
  induction l generalizing counts with
  | nil => rfl
  | cons i l ih =>
    rw [List.foldl_cons, ih, List.countP_cons]
    unfold countShard
    by_cases here : shards i = gid
    · subst here
      simp only [present, if_true, Function.update_self, decide_true]
      omega
    · split
      next => rw [Function.update_of_ne (Ne.symm here)]; simp [here]
      next => simp [here]

theorem countShards_eq (shards : Fin NShards → Int) (present : gid ∈ groups) :
    countShards groups shards gid = owned shards gid := by
  rw [countShards, foldl_countShard groups shards _ present, countP_finRange, Nat.zero_add]

/-! The donors of a join -/

/-- The loop only adds shards it visits, each at most once. -/
theorem foldl_joinDonor_sublist (groups : Groups) (targets : Int → Nat) (shards : Fin NShards → Int)
    (l : List (Fin NShards)) (loop : List (Fin NShards) × (Int → Nat)) :
    ∃ more, (l.foldl (joinDonor groups targets shards) loop).1 = loop.1 ++ more ∧ more.Sublist l := by
  induction l generalizing loop with
  | nil => exact ⟨[], (List.append_nil _).symm, List.Sublist.slnil⟩
  | cons i l ih =>
    obtain ⟨more, rest, sub⟩ := ih (joinDonor groups targets shards loop i)
    rw [List.foldl_cons, rest]
    unfold joinDonor
    simp only
    split
    next => exact ⟨i :: more, by simp, sub.cons_cons i⟩
    next => exact ⟨more, rfl, sub.cons i⟩

/-- Visiting the shards of a group takes them away one by one until the group is
at its target. -/
theorem foldl_joinDonor_group (targets : Int → Nat) (shards : Fin NShards → Int)
    (present : gid ∈ groups) (nonzero : gid ≠ 0) (loop : List (Fin NShards) × (Int → Nat)) :
    (l.foldl (joinDonor groups targets shards) loop).2 gid =
        (if loop.2 gid ≤ targets gid then loop.2 gid
          else max (targets gid) (loop.2 gid - l.countP (shards · = gid))) ∧
      (l.foldl (joinDonor groups targets shards) loop).1.countP (shards · = gid) +
          (l.foldl (joinDonor groups targets shards) loop).2 gid =
        loop.1.countP (shards · = gid) + loop.2 gid := by
  induction l generalizing loop with
  | nil =>
    refine ⟨?_, rfl⟩
    rw [List.foldl_nil, List.countP_nil]
    split <;> omega
  | cons i l ih =>
    obtain ⟨level, total⟩ := ih (joinDonor groups targets shards loop i)
    rw [List.foldl_cons, level, List.countP_cons]
    rw [level] at total
    by_cases here : shards i = gid
    · subst here
      by_cases above : loop.2 (shards i) > targets (shards i)
      · have taken : joinDonor groups targets shards loop i =
            (loop.1 ++ [i], Function.update loop.2 (shards i) (loop.2 (shards i) - 1)) := by
          unfold joinDonor
          simp only
          rw [if_pos (Or.inr ⟨present, above⟩), if_pos present]
        rw [taken] at total ⊢
        simp only [Function.update_self, List.countP_append, List.countP_singleton, decide_true,
          if_true] at total ⊢
        refine ⟨?_, by omega⟩
        rw [if_neg (not_le.mpr above)]
        split <;> omega
      · have kept : joinDonor groups targets shards loop i = loop := by
          unfold joinDonor
          simp only
          rw [if_neg]
          rintro (zero | ⟨_, more⟩)
          · exact nonzero zero
          · exact above more
        rw [kept] at total ⊢
        refine ⟨?_, total⟩
        rw [if_pos (not_lt.mp above), if_pos (not_lt.mp above)]
    · have counts : (joinDonor groups targets shards loop i).2 gid = loop.2 gid := by
        unfold joinDonor
        simp only
        split
        next =>
          split
          next => exact Function.update_of_ne (Ne.symm here) _ _
          next => rfl
        next => rfl
      have donors : (joinDonor groups targets shards loop i).1.countP (shards · = gid) =
          loop.1.countP (shards · = gid) := by
        unfold joinDonor
        simp only
        split
        next => simp [here]
        next => rfl
      rw [counts] at total ⊢
      rw [donors] at total
      refine ⟨?_, total⟩
      simp [here]

/-- Every shard without an owner is a donor, and only those and shards of
present groups are. -/
theorem foldl_joinDonor_zero (groups : Groups) (targets : Int → Nat) (shards : Fin NShards → Int)
    (loop : List (Fin NShards) × (Int → Nat)) :
    (l.foldl (joinDonor groups targets shards) loop).1.countP (shards · = 0) =
      loop.1.countP (shards · = 0) + l.countP (shards · = 0) := by
  induction l generalizing loop with
  | nil => rfl
  | cons i l ih =>
    rw [List.foldl_cons, ih, List.countP_cons]
    unfold joinDonor
    simp only
    split
    next =>
      rw [List.countP_append, List.countP_singleton]
      omega
    next out =>
      have other : shards i ≠ 0 := fun zero => out (Or.inl zero)
      simp [other]

theorem joinDonors_zero (groups : Groups) (targets : Int → Nat) (shards : Fin NShards → Int) :
    (joinDonors groups targets shards).1.countP (shards · = 0) = owned shards 0 := by
  have loop := foldl_joinDonor_zero (l := List.finRange NShards) groups targets shards
    ([], countShards groups shards)
  rw [countP_finRange, List.countP_nil, Nat.zero_add] at loop
  exact loop

theorem joinDonors_owner (targets : Int → Nat) (shards : Fin NShards → Int) {i : Fin NShards}
    (member : i ∈ (joinDonors groups targets shards).1) : shards i = 0 ∨ shards i ∈ groups := by
  have loop : ∀ (l : List (Fin NShards)) (start : List (Fin NShards) × (Int → Nat)),
      i ∈ (l.foldl (joinDonor groups targets shards) start).1 →
      i ∈ start.1 ∨ shards i = 0 ∨ shards i ∈ groups := by
    intro l
    induction l with
    | nil => intro start inside; exact Or.inl inside
    | cons j l ih =>
      intro start inside
      rcases ih _ inside with before | owner
      · unfold joinDonor at before
        simp only at before
        split at before
        next donor =>
          rcases List.mem_append.mp before with old | new
          · exact Or.inl old
          · rw [List.mem_singleton.mp new]
            exact Or.inr (donor.imp_right And.left)
        next => exact Or.inl before
      · exact Or.inr owner
  rcases loop _ _ member with none | owner
  · cases none
  · exact owner

/-- What the donor loop of `applyJoin` leaves: each group at its target or
below, and the rest of its shards among the donors. -/
theorem joinDonors_group (targets : Int → Nat) (shards : Fin NShards → Int) (present : gid ∈ groups)
    (nonzero : gid ≠ 0) :
    (joinDonors groups targets shards).2 gid = min (owned shards gid) (targets gid) ∧
      (joinDonors groups targets shards).1.countP (shards · = gid) =
        owned shards gid - targets gid := by
  have spec : (joinDonors groups targets shards).2 gid = _ ∧ _ :=
    foldl_joinDonor_group targets shards present nonzero
      (l := List.finRange NShards) ([], countShards groups shards)
  obtain ⟨level, total⟩ := spec
  simp only [countShards_eq shards present, countP_finRange, List.countP_nil] at level total
  have closed : (joinDonors groups targets shards).2 gid = min (owned shards gid) (targets gid) := by
    rw [level]
    split <;> omega
  refine ⟨closed, ?_⟩
  have sum : (joinDonors groups targets shards).1.countP (shards · = gid) +
      (joinDonors groups targets shards).2 gid = 0 + owned shards gid := total
  omega

theorem nodup_joinDonors (groups : Groups) (targets : Int → Nat) (shards : Fin NShards → Int) :
    (joinDonors groups targets shards).1.Nodup := by
  obtain ⟨more, whole, sub⟩ := foldl_joinDonor_sublist groups targets shards
    (List.finRange NShards) ([], countShards groups shards)
  have same : (joinDonors groups targets shards).1 = more := whole
  rw [same]
  exact sub.nodup (List.nodup_finRange NShards)

/-- How many shards of the same owner come before a shard. -/
def rank (shards : Fin NShards → Int) (i : Fin NShards) : Nat :=
  (List.finRange NShards).countP fun j => j < i ∧ shards j = shards i

/-- The shards that nobody owns, and of each group the first ones, as many as it has
above its target. -/
def spare (targets : Int → Nat) (shards : Fin NShards → Int) : List (Fin NShards) :=
  (List.finRange NShards).filter fun i =>
    shards i = 0 ∨ rank shards i < owned shards (shards i) - targets (shards i)

theorem rank_eq_countP {before after : List (Fin NShards)} {i : Fin NShards}
    (whole : List.finRange NShards = before ++ i :: after) (shards : Fin NShards → Int) :
    rank shards i = before.countP (shards · = shards i) := by
  have sorted := List.pairwise_lt_finRange NShards
  rw [whole, List.pairwise_append] at sorted
  obtain ⟨_, tail, below⟩ := sorted
  have none : (i :: after).countP (fun j => decide (j < i ∧ shards j = shards i)) = 0 := by
    rw [List.countP_eq_zero]
    intro j member
    rcases List.mem_cons.mp member with rfl | later
    · simp
    · have above := (List.pairwise_cons.mp tail).1 j later
      simp [above.not_gt]
  rw [rank, whole, List.countP_append, none, Nat.add_zero]
  refine List.countP_congr fun j member => ?_
  simp [below j member i List.mem_cons_self]

/-- The donor loop of `applyJoin` finds the spare shards, in their order. -/
theorem joinDonors_eq_spare (all : ∀ i, shards i = 0 ∨ shards i ∈ groups) (targets : Int → Nat) :
    (joinDonors groups targets shards).1 = spare targets shards := by
  -- by induction on the part of the shards that the loop has visited
  have loop : ∀ before after, List.finRange NShards = before ++ after →
      (before.foldl (joinDonor groups targets shards) ([], countShards groups shards)).1 =
        before.filter fun i =>
          shards i = 0 ∨ rank shards i < owned shards (shards i) - targets (shards i) := by
    intro before
    induction before using List.reverseRecOn with
    | nil => intro after _; rfl
    | append_singleton before i ih =>
      intro after whole
      rw [List.append_assoc, List.singleton_append] at whole
      rw [List.foldl_append, List.foldl_cons, List.foldl_nil, List.filter_append, joinDonor]
      have donor : (shards i = 0 ∨ shards i ∈ groups ∧
            (before.foldl (joinDonor groups targets shards) ([], countShards groups shards)).2 (shards i) >
              targets (shards i)) ↔
          (shards i = 0 ∨ rank shards i < owned shards (shards i) - targets (shards i)) := by
        refine or_congr_right' fun nonzero => ?_
        have present := (all i).resolve_left nonzero
        rw [(foldl_joinDonor_group targets shards present nonzero _).1, rank_eq_countP whole]
        simp only [countShards_eq shards present, present, true_and]
        split <;> omega
      simp only [donor]
      split
      next found => simp [ih _ whole, found]
      next missed => simp [ih _ whole, missed]
  exact loop (List.finRange NShards) [] (List.append_nil _).symm

/-! The donors of a leave -/

theorem foldl_leaveDonor (groups : Groups) (leaving : List Int) (shards : Fin NShards → Int)
    (loop : List (Fin NShards) × (Int → Nat)) :
    (l.foldl (leaveDonor groups leaving shards) loop).1 =
        loop.1 ++ l.filter (shards · ∈ leaving) ∧
      ∀ gid ∈ groups, gid ∉ leaving →
        (l.foldl (leaveDonor groups leaving shards) loop).2 gid =
          loop.2 gid + l.countP (shards · = gid) := by
  induction l generalizing loop with
  | nil => exact ⟨(List.append_nil _).symm, fun _ _ _ => rfl⟩
  | cons i l ih =>
    obtain ⟨donors, counts⟩ := ih (leaveDonor groups leaving shards loop i)
    rw [List.foldl_cons]
    by_cases leaves : shards i ∈ leaving
    · have taken : leaveDonor groups leaving shards loop i = (loop.1 ++ [i], loop.2) := by
        rw [leaveDonor, if_pos leaves]
      rw [taken] at donors counts ⊢
      refine ⟨by rw [donors]; simp [leaves], fun gid present stays => ?_⟩
      have other : shards i ≠ gid := fun same => stays (same ▸ leaves)
      rw [counts gid present stays, List.countP_cons]
      simp [other]
    · have kept : leaveDonor groups leaving shards loop i =
          (loop.1, countShard groups shards loop.2 i) := by
        rw [leaveDonor, if_neg leaves]
      rw [kept] at donors counts ⊢
      refine ⟨by rw [donors]; simp [leaves], fun gid present stays => ?_⟩
      have one := foldl_countShard groups shards loop.2 present (l := [i])
      rw [List.foldl_cons, List.foldl_nil] at one
      rw [counts gid present stays]
      simp only
      rw [one, List.countP_singleton, List.countP_cons]
      omega

theorem leaveDonors_fst (groups : Groups) (leaving : List Int) (shards : Fin NShards → Int) :
    (leaveDonors groups leaving shards).1 =
      (List.finRange NShards).filter (shards · ∈ leaving) :=
  (foldl_leaveDonor groups leaving shards ([], fun _ => 0)).1

theorem leaveDonors_snd (shards : Fin NShards → Int) (present : gid ∈ groups) (stays : gid ∉ leaving) :
    (leaveDonors groups leaving shards).2 gid = owned shards gid := by
  have counts := (foldl_leaveDonor (l := List.finRange NShards) groups leaving shards
    ([], fun _ => 0)).2 gid present stays
  rw [countP_finRange, Nat.zero_add] at counts
  exact counts

end DistSys.Shardctrler
