import DistSys.Shardctrler.Rebalance

namespace DistSys.Shardctrler

variable {prev next : Config} {groups servers : Groups} {shards other : Fin NShards → Int}
variable {gid : Int} {gids : List Int}

/-- How many shards change their owner. -/
def reassigned (before after : Fin NShards → Int) : Nat :=
  (Finset.univ.filter fun i => after i ≠ before i).card

/-- All shards are divided among the groups, and the counts of any two differ by at
most one. -/
structure EvenDivision (groups : Groups) (shards : Fin NShards → Int) : Prop where
  member : ∀ i, shards i ∈ groups
  evenly : Evenly groups shards

theorem reassigned_update (before after : Fin NShards → Int) (shard : Fin NShards) (target : Int) :
    reassigned before (Function.update after shard target) + (if after shard ≠ before shard then 1 else 0) =
      reassigned before after + (if target ≠ before shard then 1 else 0) :=
  card_filter_update (fun i owner => owner ≠ before i) after shard target

theorem exists_owned (some : 0 < owned shards gid) : ∃ i, shards i = gid := by
  obtain ⟨i, member⟩ := Finset.card_pos.mp some
  exact ⟨i, (Finset.mem_filter.mp member).2⟩

/-- The shards that listed groups own, group by group. -/
theorem sum_owned_sorted (groups : Groups) (shards : Fin NShards → Int) :
    ((sortedGIDs groups).map fun gid => owned shards gid).sum =
      (Finset.univ.filter fun i => shards i ∈ groups).card := by
  have sums := sum_countP (nodup_sortedGIDs groups) shards (List.finRange NShards)
  simp only [countP_finRange] at sums
  rw [sums, List.countP_eq_length_filter]
  simp only [mem_sortedGIDs]
  rfl

/-- Handing a shard from a group with one more than its share to one with its share
leaves an even division. -/
theorem EvenDivision.hand (division : EvenDivision groups shards) (zero : 0 ∉ groups) {i : Fin NShards}
    (more : owned shards (shards i) = share groups + 1) (present : gid ∈ groups)
    (fewer : owned shards gid = share groups) : EvenDivision groups (Function.update shards i gid) := by
  have counts (g : Int) := owned_update shards i gid g
  have bounds {g : Int} (inside : g ∈ groups) := division.evenly.bounds zero division.member inside
  refine ⟨fun k => ?_, evenly_of_share fun g inside => ?_⟩
  · by_cases here : k = i
    · rw [here, Function.update_self]
      exact present
    · rw [Function.update_of_ne here]
      exact division.member k
  · have count := counts g
    have bound := bounds inside
    split at count
    next gives => subst gives; split at count <;> omega
    next =>
      split at count
      next receives => subst receives; omega
      next => omega

/-- A shard that goes back to its owner is one less to move. -/
theorem EvenDivision.give_back (division : EvenDivision groups shards) (zero : 0 ∉ groups) {i : Fin NShards}
    (more : owned shards (shards i) = share groups + 1) (present : prev.shards i ∈ groups)
    (fewer : owned shards (prev.shards i) = share groups) :
    ∃ other, EvenDivision groups other ∧ reassigned prev.shards other < reassigned prev.shards shards := by
  refine ⟨_, division.hand zero more present fewer, ?_⟩
  have count := reassigned_update prev.shards shards i (prev.shards i)
  have away : shards i ≠ prev.shards i := by
    intro same
    rw [same] at more
    omega
  rw [if_pos away, if_neg fun differs => differs rfl] at count
  omega

theorem Housed.evenDivision {config : Config} (housed : Housed config) (level : Level config)
    (nonempty : config.groups ≠ ∅) : EvenDivision config.groups config.shards :=
  ⟨housed.member fun empty => nonempty (sortedGIDs_eq_nil.mp empty), evenly_of_share level⟩

/-- No even division of the shards among the new groups moves fewer shards. -/
def MovesLeast (prev next : Config) : Prop :=
  ∀ other, EvenDivision next.groups other →
    reassigned prev.shards next.shards ≤ reassigned prev.shards other

section join
variable (housed : Housed prev) (zero : 0 ∉ servers) (fresh : ∀ gid ∈ servers, gid ∉ prev.groups)
include housed zero fresh

theorem Housed.owner_not_joining (i : Fin NShards) : prev.shards i ∉ servers := by
  intro joins
  rcases housed.owner i with none | old
  · exact zero (none ▸ joins)
  · exact fresh _ joins old

/-- Whatever the joining groups own in the end has been moved. -/
theorem Housed.sum_joining_le (other : Fin NShards → Int) :
    ((sortedGIDs servers).map fun gid => owned other gid).sum ≤ reassigned prev.shards other := by
  rw [sum_owned_sorted]
  refine Finset.card_le_card (Finset.monotone_filter_right _ fun i _ joins same => ?_)
  exact housed.owner_not_joining zero fresh i (same ▸ joins)

/-- A joining group gets its target. -/
theorem Housed.owned_joining (joins : gid ∈ servers) :
    owned (prev.join servers).shards gid = computeTargets (prev.join servers).groups gid := by
  have present : gid ∈ (prev.join servers).groups := mem_joined.mpr (Or.inr joins)
  obtain ⟨moved, most, total, _⟩ := housed.owned_joined zero present
  have none := housed.owned_absent (fresh gid joins) (ne_of_mem_of_not_mem joins zero)
  rw [if_pos joins] at total
  omega

/-- A join moves what its groups lack, which is all of their targets. -/
theorem Housed.reassigned_join :
    reassigned prev.shards (prev.join servers).shards =
      ((sortedGIDs servers).map (computeTargets (prev.join servers).groups)).sum := by
  have filled : (sortedGIDs servers).map (computeTargets (prev.join servers).groups) =
      (sortedGIDs servers).map fun gid => owned (prev.join servers).shards gid :=
    List.map_congr_left fun gid member => (housed.owned_joining zero fresh (mem_sortedGIDs.mp member)).symm
  rw [filled, sum_owned_sorted, reassigned]
  congr 1
  refine Finset.filter_congr fun i _ => ⟨join_moves housed, fun joins same => ?_⟩
  exact housed.owner_not_joining zero fresh i (same ▸ joins)

omit housed zero in
/-- The groups after a join are the old ones and the joining ones. -/
theorem perm_sortedGIDs_join :
    (sortedGIDs (prev.join servers).groups).Perm (sortedGIDs prev.groups ++ sortedGIDs servers) := by
  have distinct : (sortedGIDs prev.groups ++ sortedGIDs servers).Nodup := by
    refine List.nodup_append.mpr ⟨nodup_sortedGIDs _, nodup_sortedGIDs _, fun g old h joins => ?_⟩
    rintro rfl
    exact fresh g (mem_sortedGIDs.mp joins) (mem_sortedGIDs.mp old)
  refine (List.perm_ext_iff_of_nodup (nodup_sortedGIDs _) distinct).mpr fun gid => ?_
  rw [List.mem_append, mem_sortedGIDs, mem_sortedGIDs, mem_sortedGIDs, mem_joined]

/-- If the joining groups only get their shares, or if all old ones get one more than
theirs, no even division takes less from the old groups. -/
theorem Housed.movesLeast_join
    (cheap : (∀ gid ∈ servers, computeTargets (prev.join servers).groups gid = share (prev.join servers).groups) ∨
      ∀ gid ∈ prev.groups, computeTargets (prev.join servers).groups gid = share (prev.join servers).groups + 1) :
    MovesLeast prev (prev.join servers) := by
  intro other division
  refine le_trans (le_of_eq (housed.reassigned_join zero fresh)) ?_
  refine le_trans ?_ (housed.sum_joining_le zero fresh other)
  have absent := (housed.join zero).zero
  have bounds {gid : Int} (present : gid ∈ (prev.join servers).groups) :=
    division.evenly.bounds absent division.member present
  rcases cheap with shares | more
  · refine List.sum_le_sum fun gid member => ?_
    have joins := mem_sortedGIDs.mp member
    rw [shares gid joins]
    exact (bounds (mem_joined.mpr (Or.inr joins))).1
  · have perm := perm_sortedGIDs_join fresh
    have present : sortedGIDs (prev.join servers).groups ≠ [] :=
      List.ne_nil_of_mem (mem_sortedGIDs.mpr (division.member 0))
    have targets := computeTargets_sum present
    have counts := sum_owned_groups absent division.member
    rw [(perm.map _).sum_eq, List.map_append, List.sum_append] at targets counts
    have old : ((sortedGIDs prev.groups).map fun gid => owned other gid).sum ≤
        ((sortedGIDs prev.groups).map (computeTargets (prev.join servers).groups)).sum := by
      refine List.sum_le_sum fun gid member => ?_
      have old := mem_sortedGIDs.mp member
      rw [more gid old]
      exact (bounds (mem_joined.mpr (Or.inl old))).2
    omega

/-- A join that gives a new group one more than its share, and leaves an old one that has
lost shards at its share, could have moved less. -/
theorem Housed.cheaper_than_join (level : Level prev) {a b : Int} (joins : a ∈ servers) (old : b ∈ prev.groups)
    (more : owned (prev.join servers).shards a = share (prev.join servers).groups + 1)
    (fewer : owned (prev.join servers).shards b = share (prev.join servers).groups)
    (lost : owned (prev.join servers).shards b < owned prev.shards b) :
    ∃ other, EvenDivision (prev.join servers).groups other ∧
      reassigned prev.shards other < reassigned prev.shards (prev.join servers).shards := by
  have present : b ∈ (prev.join servers).groups := mem_joined.mpr (Or.inl old)
  have absent := (housed.join zero).zero
  have division := (housed.join zero).evenDivision (level.join housed zero) (ne_empty_of_mem present)
  obtain ⟨j, mine, gone⟩ : ∃ j, prev.shards j = b ∧ (prev.join servers).shards j ≠ b := by
    by_contra! kept
    exact absurd lost (not_lt.mpr (Finset.card_le_card (Finset.monotone_filter_right _ fun j _ => kept j)))
  subst mine
  have receiver : (prev.join servers).shards j ∈ servers := join_moves housed gone
  have joining : (prev.join servers).shards j ∈ (prev.join servers).groups := mem_joined.mpr (Or.inr receiver)
  have bounds := division.evenly.bounds absent division.member joining
  by_cases full : owned (prev.join servers).shards ((prev.join servers).shards j) =
      share (prev.join servers).groups + 1
  · exact division.give_back absent full present fewer
  · -- the receiver of the shard first gets another one, from the new group that has one more
    obtain ⟨i, rfl⟩ : ∃ i, (prev.join servers).shards i = a := exists_owned (by omega)
    have half : owned (prev.join servers).shards ((prev.join servers).shards j) =
        share (prev.join servers).groups := by omega
    have other : (prev.join servers).shards i ≠ (prev.join servers).shards j := by
      intro same
      rw [same] at more
      omega
    have apart : j ≠ i := fun same => other (by rw [same])
    have swapped := division.hand absent more joining half
    have moves := reassigned_update prev.shards (prev.join servers).shards i ((prev.join servers).shards j)
    have fromNew : (prev.join servers).shards i ≠ prev.shards i := fun same =>
      housed.owner_not_joining zero fresh i (same ▸ joins)
    have toNew : (prev.join servers).shards j ≠ prev.shards i := fun same =>
      housed.owner_not_joining zero fresh i (same ▸ receiver)
    rw [if_pos fromNew, if_pos toNew] at moves
    have receives := owned_update (prev.join servers).shards i ((prev.join servers).shards j)
      ((prev.join servers).shards j)
    rw [if_neg other, if_pos rfl] at receives
    have keeps := owned_update (prev.join servers).shards i ((prev.join servers).shards j) (prev.shards j)
    have notMine : (prev.join servers).shards i ≠ prev.shards j := fun same => fresh _ joins (same ▸ old)
    rw [if_neg notMine, if_neg gone] at keeps
    obtain ⟨better, even, fewerMoves⟩ := swapped.give_back (i := j) absent
      (by rw [Function.update_of_ne apart]; omega) present (by omega)
    exact ⟨better, even, by omega⟩

omit zero in
/-- A group that loses a shard to a joining one has fewer than before. -/
theorem Housed.owned_join_lt {i : Fin NShards} (joins : (prev.join servers).shards i ∈ servers)
    (old : prev.shards i ∈ prev.groups) :
    owned (prev.join servers).shards (prev.shards i) < owned prev.shards (prev.shards i) := by
  have kept : ∀ k, (prev.join servers).shards k = prev.shards i → prev.shards k = prev.shards i := by
    intro k here
    by_contra differs
    have moved : (prev.join servers).shards k ≠ prev.shards k := fun same => differs (same ▸ here)
    exact fresh _ (join_moves housed moved) (here ▸ old)
  have part : (Finset.univ.filter fun k => (prev.join servers).shards k = prev.shards i) ⊆
      Finset.univ.filter fun k => prev.shards k = prev.shards i :=
    Finset.monotone_filter_right _ fun k _ => kept k
  refine Finset.card_lt_card ((Finset.ssubset_iff_of_subset part).mpr ⟨i, by simp, ?_⟩)
  simp only [Finset.mem_filter, Finset.mem_univ, true_and]
  exact fun same => fresh _ joins (same ▸ old)

/-- The other direction: if a new group gets one more than its share and an old one does
not, then some old group has given away one shard too many. -/
theorem Housed.cheap_of_movesLeast (level : Level prev) (least : MovesLeast prev (prev.join servers)) :
    (∀ gid ∈ servers, computeTargets (prev.join servers).groups gid = share (prev.join servers).groups) ∨
      ∀ gid ∈ prev.groups, computeTargets (prev.join servers).groups gid = share (prev.join servers).groups + 1 := by
  by_contra! costly
  obtain ⟨⟨a, joins, more⟩, b, old, fewer⟩ := costly
  have inA : a ∈ (prev.join servers).groups := mem_joined.mpr (Or.inr joins)
  have inB : b ∈ (prev.join servers).groups := mem_joined.mpr (Or.inl old)
  have targetA := share_le_computeTargets inA
  have targetB := share_le_computeTargets inB
  have full : owned (prev.join servers).shards a = share (prev.join servers).groups + 1 := by
    rw [housed.owned_joining zero fresh joins]
    omega
  by_cases rich : ∀ gid ∈ prev.groups, share (prev.join servers).groups + 1 ≤ owned prev.shards gid
  · -- every old group can give down to its target, and so this one is left with its share
    have settled : ∀ gid ∈ prev.groups, gid ∉ servers →
        computeTargets (prev.join servers).groups gid ≤ owned prev.shards gid := by
      intro gid inside _
      have present : gid ∈ (prev.join servers).groups := mem_joined.mpr (Or.inl inside)
      exact (share_le_computeTargets present).2.trans (rich gid inside)
    obtain ⟨moved, _, total, given⟩ := housed.owned_joined zero inB
    rw [if_neg fun joins => fresh b joins old, given settled] at total
    have enough := rich b old
    obtain ⟨other, even, better⟩ := housed.cheaper_than_join zero fresh level joins old full
      (by omega) (by omega)
    exact absurd (least other even) (not_le.mpr better)
  · -- no old group has more than one above the share, and one of them gave a shard to the new one
    push Not at rich
    obtain ⟨poor, inside, few⟩ := rich
    have lowest := (level poor inside).1
    obtain ⟨i, here⟩ : ∃ i, (prev.join servers).shards i = a := exists_owned (by omega)
    have owner : prev.shards i ∈ prev.groups :=
      housed.member (List.ne_nil_of_mem (mem_sortedGIDs.mpr old)) i
    have lost := housed.owned_join_lt fresh (here ▸ joins) owner
    have highest := (level _ owner).2
    have division := (housed.join zero).evenDivision (level.join housed zero) (ne_empty_of_mem inB)
    have present : prev.shards i ∈ (prev.join servers).groups := mem_joined.mpr (Or.inl owner)
    have bounds := division.evenly.bounds (housed.join zero).zero division.member present
    obtain ⟨other, even, better⟩ := housed.cheaper_than_join zero fresh level joins owner full
      (by omega) lost
    exact absurd (least other even) (not_le.mpr better)

end join

/-- A leave moves the shards of the leaving groups and no others, as every division among
the groups that stay has to. -/
theorem Housed.movesLeast_leave (housed : Housed prev) (gids : List Int) :
    MovesLeast prev (prev.leave gids) := by
  intro other division
  refine Finset.card_le_card (Finset.monotone_filter_right _ fun i _ moved => ?_)
  have leaves : prev.shards i ∈ gids := leave_moves housed moved
  have stays := division.member i
  rw [leave_groups, mem_removeGroups] at stays
  exact fun same => stays.2 (same ▸ leaves)

/-- The place of a group among the sorted gids. -/
def position (groups : Groups) (gid : Int) : Nat :=
  (sortedGIDs groups).idxOf gid

/-- The shards that are left over when all groups have their shares. -/
def leftOver (groups : Groups) : Nat :=
  NShards % (sortedGIDs groups).length

theorem computeTargets_eq_position (present : gid ∈ groups) :
    computeTargets groups gid =
      if position groups gid < leftOver groups then share groups + 1 else share groups :=
  if_pos (mem_sortedGIDs.mpr present)

theorem computeTargets_eq_share (present : gid ∈ groups) :
    computeTargets groups gid = share groups ↔ leftOver groups ≤ position groups gid := by
  rw [computeTargets_eq_position present]
  split <;> omega

theorem computeTargets_eq_share_succ (present : gid ∈ groups) :
    computeTargets groups gid = share groups + 1 ↔ position groups gid < leftOver groups := by
  rw [computeTargets_eq_position present]
  split <;> omega

/-- How far joins and leaves move as few shards as an even division allows. A leave
always does. A join of new groups does exactly if all of them come late among the
sorted gids, or all old groups early: `computeTargets` gives the left over shards to
the smallest gids, whoever holds the shards. -/
theorem minimal_movement (requests : List Request) (valid : ∀ r ∈ requests, r.Rebalances) :
    ∃ configs, exec change [defaultConfig] requests = some configs ∧
      (∀ servers next, 0 ∉ servers → (∀ gid ∈ servers, gid ∉ (latest configs).groups) →
        next = latest (applyJoin configs servers) →
        (next.groups ≠ ∅ → EvenDivision next.groups next.shards) ∧
        (MovesLeast (latest configs) next ↔
          (∀ gid ∈ servers, leftOver next.groups ≤ position next.groups gid) ∨
            ∀ gid ∈ (latest configs).groups, position next.groups gid < leftOver next.groups)) ∧
      (∀ gids next, next = latest (applyLeave configs gids) →
        (next.groups ≠ ∅ → EvenDivision next.groups next.shards) ∧ MovesLeast (latest configs) next) := by
  obtain ⟨configs, run, past⟩ := rebalanced_exec valid
  obtain ⟨housed, level⟩ := past.even _ past.latest_mem
  refine ⟨configs, run, ?_, ?_⟩
  · rintro servers _ zero fresh rfl
    rw [latest_applyJoin]
    refine ⟨(housed.join zero).evenDivision (level.join housed zero), ?_⟩
    have places : ((∀ gid ∈ servers,
          computeTargets ((latest configs).join servers).groups gid =
            share ((latest configs).join servers).groups) ∨
        ∀ gid ∈ (latest configs).groups,
          computeTargets ((latest configs).join servers).groups gid =
            share ((latest configs).join servers).groups + 1) ↔ _ :=
      or_congr
        (forall₂_congr fun gid joins => computeTargets_eq_share (mem_joined.mpr (Or.inr joins)))
        (forall₂_congr fun gid old => computeTargets_eq_share_succ (mem_joined.mpr (Or.inl old)))
    rw [← places]
    exact ⟨housed.cheap_of_movesLeast zero fresh level, housed.movesLeast_join zero fresh⟩
  · rintro gids _ rfl
    rw [latest_applyLeave]
    exact ⟨(housed.leave gids).evenDivision (level.leave housed gids), housed.movesLeast_leave gids⟩

/-- Two groups join an empty controller. -/
def firstJoin (g h : Int) : List Config :=
  [defaultConfig, defaultConfig.join (groupsOf [(g, []), (h, [])])]

/-- A third group with the largest gid gets three shards, and three have to move. -/
theorem minimal_movement_third :
    (∀ r ∈ [Request.join (groupsOf [(1, []), (2, [])])], r.Rebalances) ∧
      MovesLeast (latest (firstJoin 1 2)) (latest (applyJoin (firstJoin 1 2) (groupsOf [(3, [])]))) ∧
      reassigned (latest (firstJoin 1 2)).shards
        (latest (applyJoin (firstJoin 1 2) (groupsOf [(3, [])]))).shards = 3 ∧
      MovesLeast (latest (firstJoin 1 2)) (latest (applyLeave (firstJoin 1 2) [2])) := by
  have valid : ∀ r ∈ [Request.join (groupsOf [(1, []), (2, [])])], r.Rebalances := by
    intro r member
    rw [List.mem_singleton.mp member]
    exact of_decide_eq_true (p := 0 ∉ groupsOf [(1, []), (2, [])]) rfl
  obtain ⟨configs, run, joins, leaves⟩ := minimal_movement _ valid
  cases run
  refine ⟨valid, ?_, by decide, (leaves [2] _ rfl).2⟩
  refine (joins (groupsOf [(3, [])]) _ (by decide) ?_ rfl).2.mpr (Or.inl ?_)
  · show ∀ gid ∈ (groupsOf [(3, [])]).keys, _
    decide
  · show ∀ gid ∈ (groupsOf [(3, [])]).keys, _
    decide

/-- Two groups with five shards each are joined by one with a smaller gid. It gets four
shards, where three are enough. -/
theorem joins_move_too_much :
    (∀ r ∈ [Request.join (groupsOf [(2, []), (3, [])])], r.Rebalances) ∧
      exec change [defaultConfig] [.join (groupsOf [(2, []), (3, [])])] = some (firstJoin 2 3) ∧
      0 ∉ groupsOf [(1, [])] ∧ (∀ gid ∈ groupsOf [(1, [])], gid ∉ (latest (firstJoin 2 3)).groups) ∧
      reassigned (latest (firstJoin 2 3)).shards
        (latest (applyJoin (firstJoin 2 3) (groupsOf [(1, [])]))).shards = 4 ∧
      ∃ other, EvenDivision (latest (applyJoin (firstJoin 2 3) (groupsOf [(1, [])]))).groups other ∧
        reassigned (latest (firstJoin 2 3)).shards other = 3 := by
  refine ⟨fun r member => ?_, rfl, by decide, ?_, by decide,
    Function.update (latest (applyJoin (firstJoin 2 3) (groupsOf [(1, [])]))).shards 0 2, ⟨by decide, ?_⟩,
    by decide⟩
  · rw [List.mem_singleton.mp member]
    exact of_decide_eq_true (p := 0 ∉ groupsOf [(2, []), (3, [])]) rfl
  · show ∀ gid ∈ (groupsOf [(1, [])]).keys, _
    decide
  · show ∀ g ∈ (latest (applyJoin (firstJoin 2 3) (groupsOf [(1, [])]))).groups.keys,
      ∀ h ∈ (latest (applyJoin (firstJoin 2 3) (groupsOf [(1, [])]))).groups.keys, _
    decide

end DistSys.Shardctrler
