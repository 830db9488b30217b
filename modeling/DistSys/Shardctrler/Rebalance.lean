import DistSys.Shardctrler.Moves

namespace DistSys.Shardctrler

variable {prev config : Config} {groups servers : Groups} {shards : Fin NShards → Int}
variable {gid : Int} {gids : List Int}

/-- The shard counts of any two groups differ by at most one. -/
def Evenly (groups : Groups) (shards : Fin NShards → Int) : Prop :=
  ∀ g ∈ groups, ∀ h ∈ groups, owned shards g ≤ owned shards h + 1

/-- The number of shards that every group gets at least. -/
def share (groups : Groups) : Nat :=
  NShards / (sortedGIDs groups).length

/-- The spare shards of a group that a join does not need, since the first ones have made
up for what its groups lack. -/
def unneeded (groups servers : Groups) (shards : Fin NShards → Int) (gid : Int) : Nat :=
  ((spare (computeTargets groups) shards).drop (lack groups shards (sortedGIDs servers))).countP
    (shards · = gid)

theorem evenly_of_share
    (bounds : ∀ gid ∈ groups, share groups ≤ owned shards gid ∧ owned shards gid ≤ share groups + 1) :
    Evenly groups shards := by
  intro g inG h inH
  have upper := (bounds g inG).2
  have lower := (bounds h inH).1
  omega

/-- If all shards are in the groups, the counts of the groups add up to all shards. -/
theorem sum_owned_groups (zero : 0 ∉ groups) (all : ∀ i, shards i ∈ groups) :
    ((sortedGIDs groups).map fun gid => owned shards gid).sum = NShards := by
  have absent : 0 ∉ sortedGIDs groups := fun inside => zero (mem_sortedGIDs.mp inside)
  have total := sum_owned (nodup_sortedGIDs groups) absent fun i => Or.inr (mem_sortedGIDs.mpr (all i))
  have none : owned shards 0 = 0 := by
    rw [owned, Finset.card_eq_zero, Finset.filter_eq_empty_iff]
    intro i _ isZero
    exact zero (isZero ▸ all i)
  omega

/-- An even division leaves every group with its share or one more: if one had less,
the others could not make up for it, and if one had more, the shards would not
suffice. -/
theorem Evenly.bounds (even : Evenly groups shards) (zero : 0 ∉ groups) (all : ∀ i, shards i ∈ groups)
    (present : gid ∈ groups) :
    share groups ≤ owned shards gid ∧ owned shards gid ≤ share groups + 1 := by
  have member := mem_sortedGIDs.mpr present
  have positive : 0 < (sortedGIDs groups).length := List.length_pos_of_mem member
  have total := sum_owned_groups zero all
  constructor
  · have below : ((sortedGIDs groups).map fun other => owned shards other).sum <
        ((sortedGIDs groups).map fun _ => owned shards gid + 1).sum :=
      List.sum_lt_sum _ _ (fun other inside => even other (mem_sortedGIDs.mp inside) gid present)
        ⟨gid, member, Nat.lt_succ_self _⟩
    rw [total, List.map_const', List.sum_replicate_nat, mul_comm] at below
    exact Nat.lt_succ_iff.mp ((Nat.div_lt_iff_lt_mul positive).mpr below)
  · have above : ((sortedGIDs groups).map fun _ => owned shards gid).sum <
        ((sortedGIDs groups).map fun other => owned shards other + 1).sum :=
      List.sum_lt_sum _ _ (fun other inside => even gid present other (mem_sortedGIDs.mp inside))
        ⟨gid, member, Nat.lt_succ_self _⟩
    rw [List.sum_map_add, total, List.map_const', List.map_const', List.sum_replicate_nat,
      List.sum_replicate_nat, mul_one] at above
    have enough : (owned shards gid - 1) * (sortedGIDs groups).length ≤ NShards := by
      rw [Nat.sub_mul, one_mul, mul_comm]
      omega
    have most := (Nat.le_div_iff_mul_le positive).mpr enough
    unfold share
    omega

theorem share_le_computeTargets (present : gid ∈ groups) :
    share groups ≤ computeTargets groups gid ∧ computeTargets groups gid ≤ share groups + 1 :=
  computeTargets_bounds present

theorem ne_empty_of_mem (present : gid ∈ groups) : groups ≠ ∅ := by
  rintro rfl
  exact AList.notMem_empty gid present

theorem mem_joined : gid ∈ (prev.join servers).groups ↔ gid ∈ prev.groups ∨ gid ∈ servers := by
  rw [join_groups, mem_addGroups]

section join
variable (housed : Housed prev) (zero : 0 ∉ servers)
include housed zero

theorem Housed.joined_mem {i : Fin NShards} (present : gid ∈ (prev.join servers).groups) :
    (prev.join servers).shards i ∈ (prev.join servers).groups :=
  (housed.join zero).member (List.ne_nil_of_mem (mem_sortedGIDs.mpr present)) i

/-- The shard counts after a join, from those before. -/
theorem Housed.owned_joined (present : gid ∈ (prev.join servers).groups) :
    ∃ moved ≤ owned prev.shards gid - computeTargets (prev.join servers).groups gid,
      owned (prev.join servers).shards gid + moved = owned prev.shards gid +
        (if gid ∈ servers then computeTargets (prev.join servers).groups gid - owned prev.shards gid else 0) ∧
      ((∀ other ∈ prev.groups, other ∉ servers →
          computeTargets (prev.join servers).groups other ≤ owned prev.shards other) →
        moved = owned prev.shards gid - computeTargets (prev.join servers).groups gid) := by
  have nonempty : sortedGIDs (addGroups prev.groups servers) ≠ [] := by
    rw [← join_groups]
    exact List.ne_nil_of_mem (mem_sortedGIDs.mpr present)
  rw [join_groups] at present ⊢
  rw [join_shards prev nonempty]
  obtain ⟨moved, most, total, settled⟩ := owned_join (zero_not_mem_addGroups housed zero)
    (housed.owner_addGroups servers) (fun gid joins => mem_addGroups.mpr (Or.inr joins)) present
  refine ⟨moved, most, total, fun enough => settled fun other inside outside => ?_⟩
  exact enough other ((mem_addGroups.mp inside).resolve_right outside) outside

/-- The shard counts after a join, exactly: a named group is filled up to its target,
another keeps what it has up to its target, and both keep their spare shards that
are not needed. -/
theorem Housed.owned_joined_eq (present : gid ∈ (prev.join servers).groups) :
    owned (prev.join servers).shards gid =
      (if gid ∈ servers then computeTargets (prev.join servers).groups gid
        else min (owned prev.shards gid) (computeTargets (prev.join servers).groups gid)) +
        unneeded (prev.join servers).groups servers prev.shards gid := by
  have nonempty : sortedGIDs (addGroups prev.groups servers) ≠ [] := by
    rw [← join_groups]
    exact List.ne_nil_of_mem (mem_sortedGIDs.mpr present)
  rw [join_groups] at present ⊢
  rw [join_shards prev nonempty]
  have absent := zero_not_mem_addGroups housed zero
  have all := housed.owner_addGroups servers
  have joining : ∀ gid ∈ servers, gid ∈ addGroups prev.groups servers := fun gid joins =>
    mem_addGroups.mpr (Or.inr joins)
  have total := owned_joinShards absent all nonempty joining gid
  have surplus := (joinDonors_group (computeTargets (addGroups prev.groups servers)) prev.shards present
    fun isZero => absent (isZero ▸ present)).2
  rw [length_joinWanted_eq absent joining, joinDonors_eq_spare all] at total
  rw [joinDonors_eq_spare all, ← List.take_append_drop (lack (addGroups prev.groups servers)
    prev.shards (sortedGIDs servers)) (spare _ _), List.countP_append] at surplus
  unfold unneeded
  split at total
  next joins => rw [if_pos joins]; omega
  next stays => rw [if_neg stays]; omega

theorem Housed.unneeded_le (present : gid ∈ (prev.join servers).groups) :
    unneeded (prev.join servers).groups servers prev.shards gid ≤
      owned prev.shards gid - computeTargets (prev.join servers).groups gid := by
  have absent := zero_not_mem_addGroups housed zero
  rw [join_groups] at present ⊢
  rw [← (joinDonors_group (computeTargets (addGroups prev.groups servers)) prev.shards present
    fun isZero => absent (isZero ▸ present)).2,
    joinDonors_eq_spare (housed.owner_addGroups servers)]
  exact (List.drop_sublist _ _).countP_le

/-- When a join divides evenly: the groups that it does not name have their shares, as
they get nothing, and no group keeps too many spare shards. -/
theorem Housed.evenly_join_iff :
    Evenly (prev.join servers).groups (prev.join servers).shards ↔
      (∀ gid ∈ prev.groups, gid ∉ servers → share (prev.join servers).groups ≤ owned prev.shards gid) ∧
      ∀ gid ∈ prev.groups, computeTargets (prev.join servers).groups gid +
        unneeded (prev.join servers).groups servers prev.shards gid ≤ share (prev.join servers).groups + 1 := by
  constructor
  · intro even
    have bounds {gid : Int} (old : gid ∈ prev.groups) :
        share (prev.join servers).groups ≤ owned (prev.join servers).shards gid ∧
          owned (prev.join servers).shards gid ≤ share (prev.join servers).groups + 1 :=
      have present : gid ∈ (prev.join servers).groups := mem_joined.mpr (Or.inl old)
      even.bounds (housed.join zero).zero (fun _ => housed.joined_mem zero present) present
    constructor
    · intro gid old stays
      have present : gid ∈ (prev.join servers).groups := mem_joined.mpr (Or.inl old)
      have kept := housed.unneeded_le zero present
      have within := bounds old
      rw [housed.owned_joined_eq zero present, if_neg stays] at within
      omega
    · intro gid old
      have present : gid ∈ (prev.join servers).groups := mem_joined.mpr (Or.inl old)
      have kept := housed.unneeded_le zero present
      have target := share_le_computeTargets present
      have within := bounds old
      rw [housed.owned_joined_eq zero present] at within
      split at within <;> omega
  · rintro ⟨low, high⟩
    refine evenly_of_share fun gid present => ?_
    have kept := housed.unneeded_le zero present
    have target := share_le_computeTargets present
    rw [housed.owned_joined_eq zero present]
    by_cases old : gid ∈ prev.groups
    · have most := high gid old
      split
      next => omega
      next stays =>
        have enough := low gid old stays
        omega
    · have nonzero : gid ≠ 0 := fun isZero => (housed.join zero).zero (isZero ▸ present)
      rw [housed.owned_absent old nonzero] at kept
      rw [if_pos ((mem_joined.mp present).resolve_left old)]
      omega

end join

section leave
variable (housed : Housed prev)
include housed

theorem Housed.left_mem {i : Fin NShards} (present : gid ∈ (prev.leave gids).groups) :
    (prev.leave gids).shards i ∈ (prev.leave gids).groups :=
  (housed.leave gids).member (List.ne_nil_of_mem (mem_sortedGIDs.mpr present)) i

/-- The shard counts after a leave, exactly: the shards of the leaving groups are served in
the order of the gids, and each group that stays takes what it lacks while there are
some. -/
theorem Housed.owned_left_eq (stays : gid ∈ (prev.leave gids).groups) :
    owned (prev.leave gids).shards gid = owned prev.shards gid +
      min (computeTargets (prev.leave gids).groups gid - owned prev.shards gid)
        (vacated (prev.leave gids).groups prev.shards -
          lackBelow (prev.leave gids).groups prev.shards gid) := by
  have nonempty : sortedGIDs (removeGroups prev.groups gids) ≠ [] := by
    rw [← leave_groups]
    exact List.ne_nil_of_mem (mem_sortedGIDs.mpr stays)
  rw [leave_groups] at stays ⊢
  rw [leave_shards prev nonempty]
  exact owned_leaveShards_eq (housed.owner_removeGroups nonempty)
    (fun gid inside => (mem_removeGroups.mp inside).2) stays

/-- When a leave divides evenly: no group that stays has too many shards, as none is taken
from it, and what the groups before it leave of the shards suffices for its share. -/
theorem Housed.evenly_leave_iff :
    Evenly (prev.leave gids).groups (prev.leave gids).shards ↔
      ∀ gid ∈ (prev.leave gids).groups,
        owned prev.shards gid ≤ share (prev.leave gids).groups + 1 ∧
        share (prev.leave gids).groups ≤ owned prev.shards gid +
          (vacated (prev.leave gids).groups prev.shards -
            lackBelow (prev.leave gids).groups prev.shards gid) := by
  constructor
  · intro even gid stays
    have bounds := even.bounds (housed.leave gids).zero (fun _ => housed.left_mem stays) stays
    rw [housed.owned_left_eq stays] at bounds
    omega
  · intro enough
    refine evenly_of_share fun gid stays => ?_
    have target := share_le_computeTargets stays
    have here := enough gid stays
    rw [housed.owned_left_eq stays]
    omega

end leave

theorem latest_applyJoin (configs : List Config) (servers : Groups) :
    latest (applyJoin configs servers) = (latest configs).join servers :=
  latest_concat configs _

theorem latest_applyLeave (configs : List Config) (gids : List Int) :
    latest (applyLeave configs gids) = (latest configs).leave gids :=
  latest_concat configs _

/-- When a join or a leave makes an even division of what joins, leaves and moves have
left behind. A join does not give to groups that it does not name, so these must
hold their shares. It takes the spare shards in their order until the named groups
have what they lack, so among those that are left there may be none of a group
whose target is above the share, and one of any other. A leave does not take from
the groups that stay, so none of them may have more than one above its share. It
serves them in the order of the gids, so the groups before each of them must leave
enough for its share. -/
theorem join_leave_rebalance (requests : List Request)
    (sensible : Along change [defaultConfig] requests fun configs request => request.Sensible configs) :
    ∃ configs, exec change [defaultConfig] requests = some configs ∧
      (∀ servers next, 0 ∉ servers → next = latest (applyJoin configs servers) →
        (Evenly next.groups next.shards ↔
          (∀ gid ∈ (latest configs).groups, gid ∉ servers →
            share next.groups ≤ owned (latest configs).shards gid) ∧
          ∀ gid ∈ (latest configs).groups, computeTargets next.groups gid +
            unneeded next.groups servers (latest configs).shards gid ≤ share next.groups + 1)) ∧
      (∀ gids next, next = latest (applyLeave configs gids) →
        (Evenly next.groups next.shards ↔
          ∀ gid ∈ next.groups, owned (latest configs).shards gid ≤ share next.groups + 1 ∧
            share next.groups ≤ owned (latest configs).shards gid +
              (vacated next.groups (latest configs).shards -
                lackBelow next.groups (latest configs).shards gid))) := by
  obtain ⟨configs, run, _, housed, _⟩ := housed_exec sensible
  refine ⟨configs, run, ?_, ?_⟩
  · rintro servers _ zero rfl
    rw [latest_applyJoin]
    exact housed.evenly_join_iff zero
  · rintro gids _ rfl
    rw [latest_applyLeave]
    exact housed.evenly_leave_iff

/-- Three groups join, and two shards of the second are moved to the first, so that
they own six, one and three shards. -/
def skewed : List Request :=
  [.join (groupsOf [(1, []), (2, []), (3, [])]), .move 4 1, .move 5 1]

theorem skewed_sensible :
    Along change [defaultConfig] skewed fun configs request => request.Sensible configs := by decide

theorem skewed_runs : (exec change [defaultConfig] skewed).isSome = true := by decide

def skewedConfigs : List Config := (exec change [defaultConfig] skewed).get skewed_runs

theorem exec_skewed : exec change [defaultConfig] skewed = some skewedConfigs :=
  (Option.some_get skewed_runs).symm

/-- A join that names the second group as well, and a leave of the first, divide evenly. -/
theorem join_leave_rebalance_skewed :
    (Along change [defaultConfig] skewed fun configs request => request.Sensible configs) ∧
      ((latest skewedConfigs).groups.keys.map fun gid => owned (latest skewedConfigs).shards gid) = [6, 1, 3] ∧
      Evenly (latest (applyJoin skewedConfigs (groupsOf [(2, []), (4, [])]))).groups
        (latest (applyJoin skewedConfigs (groupsOf [(2, []), (4, [])]))).shards ∧
      Evenly (latest (applyLeave skewedConfigs [1])).groups (latest (applyLeave skewedConfigs [1])).shards := by
  obtain ⟨configs, run, joins, leaves⟩ := join_leave_rebalance skewed skewed_sensible
  cases run.symm.trans exec_skewed
  refine ⟨skewed_sensible, by decide, ?_, ?_⟩
  · refine (joins (groupsOf [(2, []), (4, [])]) _ (by decide) rfl).mpr ⟨?_, ?_⟩
    · show ∀ gid ∈ (latest skewedConfigs).groups.keys, gid ∉ groupsOf [(2, []), (4, [])] → _
      decide
    · show ∀ gid ∈ (latest skewedConfigs).groups.keys, _
      decide
  · refine (leaves [1] _ rfl).mpr ?_
    show ∀ gid ∈ (latest (applyLeave skewedConfigs [1])).groups.keys, _
    decide

/-- A join of a fourth group leaves the second with one shard and the first with
four. A leave of the third leaves them with four and six. -/
theorem uneven_after_moves :
    (Along change [defaultConfig] skewed fun configs request => request.Sensible configs) ∧
      exec change [defaultConfig] skewed = some skewedConfigs ∧
      0 ∉ groupsOf [(4, [])] ∧
      ¬ Evenly (latest (applyJoin skewedConfigs (groupsOf [(4, [])]))).groups
        (latest (applyJoin skewedConfigs (groupsOf [(4, [])]))).shards ∧
      (latest (applyLeave skewedConfigs [3])).groups ≠ ∅ ∧
      ¬ Evenly (latest (applyLeave skewedConfigs [3])).groups (latest (applyLeave skewedConfigs [3])).shards := by
  have stays : (1 : Int) ∈ (latest (applyLeave skewedConfigs [3])).groups := by decide
  refine ⟨skewed_sensible, exec_skewed, by decide, fun even => ?_, ne_empty_of_mem stays, fun even => ?_⟩
  · have close := even 1 (by decide) 2 (by decide)
    revert close
    decide
  · have close := even 1 (by decide) 2 (by decide)
    revert close
    decide

end DistSys.Shardctrler
