import DistSys.Shardctrler.Donors
import Mathlib.Algebra.Order.BigOperators.Group.Finset

namespace DistSys.Shardctrler

variable {prev config : Config} {servers groups : Groups} {gid : Int} {gids : List Int}
variable {targets counts : Int → Nat} {shards : Fin NShards → Int}

/-- The group whose turn it is never matters for the sum of two truncated
differences: surpluses and deficits balance. -/
theorem sum_surplus (counts targets : Int → Nat) (gids : List Int) :
    (gids.map fun gid => counts gid - targets gid).sum + (gids.map targets).sum =
      (gids.map fun gid => targets gid - counts gid).sum + (gids.map counts).sum := by
  induction gids with
  | nil => rfl
  | cons gid gids ih =>
    simp only [List.map_cons, List.sum_cons]
    omega

/-- Every shard belongs to a group of the configuration, or to nobody when
there is none. -/
structure Housed (config : Config) : Prop where
  zero : 0 ∉ config.groups
  empty : sortedGIDs config.groups = [] → ∀ i, config.shards i = 0
  member : sortedGIDs config.groups ≠ [] → ∀ i, config.shards i ∈ config.groups

/-- Shard counts within one of each other. -/
def Level (config : Config) : Prop :=
  ∀ gid ∈ config.groups, NShards / (sortedGIDs config.groups).length ≤ owned config.shards gid ∧
    owned config.shards gid ≤ NShards / (sortedGIDs config.groups).length + 1

theorem Housed.owner (housed : Housed prev) (i : Fin NShards) :
    prev.shards i = 0 ∨ prev.shards i ∈ prev.groups := by
  by_cases empty : sortedGIDs prev.groups = []
  · exact Or.inl (housed.empty empty i)
  · exact Or.inr (housed.member empty i)

theorem Housed.owned_absent (housed : Housed prev) (absent : gid ∉ prev.groups) (nonzero : gid ≠ 0) :
    owned prev.shards gid = 0 := by
  rw [owned, Finset.card_eq_zero, Finset.filter_eq_empty_iff]
  intro i _ mine
  rcases housed.owner i with none | present
  · exact nonzero (mine.symm.trans none)
  · exact absent (mine ▸ present)

/-- The shards of the listed groups, and those of nobody, are all shards. -/
theorem sum_countP_owners (distinct : gids.Nodup) (zero : 0 ∉ gids) {l : List (Fin NShards)}
    (all : ∀ i ∈ l, shards i = 0 ∨ shards i ∈ gids) :
    (gids.map fun gid => l.countP (shards · = gid)).sum + l.countP (shards · = 0) = l.length := by
  rw [sum_countP distinct, List.length_eq_countP_add_countP (fun i => decide (shards i ∈ gids))]
  congr 1
  refine List.countP_congr fun i member => ?_
  simp only [decide_eq_true_eq]
  constructor
  · intro none inside
    exact zero (none ▸ inside)
  · intro outside
    exact (all i member).resolve_right outside

theorem sum_owned (distinct : gids.Nodup) (zero : 0 ∉ gids)
    (all : ∀ i, shards i = 0 ∨ shards i ∈ gids) :
    (gids.map fun gid => owned shards gid).sum + owned shards 0 = NShards := by
  have sums := sum_countP_owners distinct zero (l := List.finRange NShards) fun i _ => all i
  simpa only [countP_finRange, List.length_finRange] using sums

theorem sum_le_of_subset {xs ys : List Int} (distinctX : xs.Nodup) (distinctY : ys.Nodup)
    (part : ∀ x ∈ xs, x ∈ ys) (value : Int → Nat) : (xs.map value).sum ≤ (ys.map value).sum := by
  rw [← List.sum_toFinset value distinctX, ← List.sum_toFinset value distinctY]
  refine Finset.sum_le_sum_of_subset fun x member => ?_
  rw [List.mem_toFinset] at member ⊢
  exact part x member

theorem sum_eq_of_subset {xs ys : List Int} (distinctX : xs.Nodup) (distinctY : ys.Nodup)
    (part : ∀ x ∈ xs, x ∈ ys) (value : Int → Nat) (rest : ∀ y ∈ ys, y ∉ xs → value y = 0) :
    (xs.map value).sum = (ys.map value).sum := by
  rw [← List.sum_toFinset value distinctX, ← List.sum_toFinset value distinctY]
  refine Finset.sum_subset (fun x member => ?_) fun y member outside => ?_
  · rw [List.mem_toFinset] at member ⊢
    exact part x member
  · rw [List.mem_toFinset] at member outside
    exact rest y member outside

/-- The donors of a join are as many as its groups lack. -/
theorem length_joinDonors (zero : 0 ∉ groups) (all : ∀ i, shards i = 0 ∨ shards i ∈ groups)
    (nonempty : sortedGIDs groups ≠ []) :
    (joinDonors groups (computeTargets groups) shards).1.length =
      ((sortedGIDs groups).map fun gid => computeTargets groups gid - owned shards gid).sum := by
  have distinct := nodup_sortedGIDs groups
  have absent : 0 ∉ sortedGIDs groups := fun inside => zero (mem_sortedGIDs.mp inside)
  have donors := sum_countP_owners distinct absent
    (l := (joinDonors groups (computeTargets groups) shards).1) fun i member =>
      (joinDonors_owner _ shards member).imp_right mem_sortedGIDs.mpr
  have taken : ((sortedGIDs groups).map fun gid =>
      (joinDonors groups (computeTargets groups) shards).1.countP (shards · = gid)) =
      (sortedGIDs groups).map fun gid => owned shards gid - computeTargets groups gid := by
    refine List.map_congr_left fun gid member => ?_
    exact (joinDonors_group _ shards (mem_sortedGIDs.mp member)
      (ne_of_mem_of_not_mem member absent)).2
  have shardsSum := sum_owned distinct absent fun i => (all i).imp_right mem_sortedGIDs.mpr
  have targetsSum := computeTargets_sum nonempty
  have balance := sum_surplus (fun gid => owned shards gid) (computeTargets groups) (sortedGIDs groups)
  rw [taken, joinDonors_zero] at donors
  omega

/-- What the joining groups ask for. -/
def joinWanted (groups servers : Groups) (shards : Fin NShards → Int) : List Int :=
  wanted (computeTargets groups) (joinDonors groups (computeTargets groups) shards).2
    (sortedGIDs servers)

theorem joinDonors_lacking (zero : 0 ∉ groups) (present : gid ∈ groups) :
    computeTargets groups gid - (joinDonors groups (computeTargets groups) shards).2 gid =
      computeTargets groups gid - owned shards gid := by
  have nonzero : gid ≠ 0 := fun none => zero (none ▸ present)
  rw [(joinDonors_group (computeTargets groups) shards present nonzero).1]
  omega

/-- What the listed groups lack to their targets. -/
def lack (groups : Groups) (shards : Fin NShards → Int) (gids : List Int) : Nat :=
  (gids.map fun gid => computeTargets groups gid - owned shards gid).sum

theorem length_joinWanted_eq (zero : 0 ∉ groups) (joining : ∀ gid ∈ servers, gid ∈ groups) :
    (joinWanted groups servers shards).length = lack groups shards (sortedGIDs servers) := by
  rw [joinWanted, length_wanted, lack]
  congr 1
  exact List.map_congr_left fun other member =>
    joinDonors_lacking zero (joining other (mem_sortedGIDs.mp member))

/-- The donors suffice for the joining groups, and are used up if no other
group lacks shards. -/
theorem length_joinWanted (zero : 0 ∉ groups) (all : ∀ i, shards i = 0 ∨ shards i ∈ groups)
    (nonempty : sortedGIDs groups ≠ []) (joining : ∀ gid ∈ servers, gid ∈ groups) :
    (joinWanted groups servers shards).length ≤
        (joinDonors groups (computeTargets groups) shards).1.length ∧
      ((∀ other ∈ groups, other ∉ servers → computeTargets groups other ≤ owned shards other) →
        (joinWanted groups servers shards).length =
          (joinDonors groups (computeTargets groups) shards).1.length) := by
  have part : ∀ other ∈ sortedGIDs servers, other ∈ sortedGIDs groups := fun other member =>
    mem_sortedGIDs.mpr (joining other (mem_sortedGIDs.mp member))
  rw [length_joinDonors zero all nonempty, length_joinWanted_eq zero joining]
  refine ⟨sum_le_of_subset (nodup_sortedGIDs servers) (nodup_sortedGIDs groups) part _, ?_⟩
  intro settled
  refine sum_eq_of_subset (nodup_sortedGIDs servers) (nodup_sortedGIDs groups) part _ ?_
  intro other inside outside
  refine Nat.sub_eq_zero_of_le (settled other (mem_sortedGIDs.mp inside) fun joins => ?_)
  exact outside (mem_sortedGIDs.mpr joins)

theorem joinShards_eq (groups servers : Groups) (shards : Fin NShards → Int) :
    joinShards groups servers shards = assign shards
      ((joinDonors groups (computeTargets groups) shards).1.zip (joinWanted groups servers shards)) :=
  fill_eq _ _ _ _ _

theorem owned_joinShards (zero : 0 ∉ groups) (all : ∀ i, shards i = 0 ∨ shards i ∈ groups)
    (nonempty : sortedGIDs groups ≠ []) (joining : ∀ gid ∈ servers, gid ∈ groups) (gid : Int) :
    owned (joinShards groups servers shards) gid +
        ((joinDonors groups (computeTargets groups) shards).1.take
          (joinWanted groups servers shards).length).countP (shards · = gid) =
      owned shards gid +
        if gid ∈ servers then computeTargets groups gid - owned shards gid else 0 := by
  have fits := (length_joinWanted zero all nonempty joining).1
  have distinct := nodup_joinDonors groups (computeTargets groups) shards
  have total := owned_assign shards ((joinDonors groups (computeTargets groups) shards).1.zip
    (joinWanted groups servers shards)) gid
    (by rw [map_fst_zip_take]; exact (List.take_sublist _ _).nodup distinct)
  rw [map_fst_zip_take, map_snd_zip_take, List.take_of_length_le fits, ← joinShards_eq, joinWanted,
    count_wanted (nodup_sortedGIDs servers)] at total
  simp only [mem_sortedGIDs] at total
  by_cases joins : gid ∈ servers
  · rw [if_pos joins, joinDonors_lacking zero (joining gid joins)] at total
    rw [if_pos joins]
    exact total
  · rw [if_neg joins] at total ⊢
    exact total

/-- The shard counts after a join: each group gives away at most its surplus,
and the joining ones receive what they lack. If only joining groups lack
shards, every surplus is given away. -/
theorem owned_join (zero : 0 ∉ groups) (all : ∀ i, shards i = 0 ∨ shards i ∈ groups)
    (joining : ∀ gid ∈ servers, gid ∈ groups) (present : gid ∈ groups) :
    ∃ moved ≤ owned shards gid - computeTargets groups gid,
      owned (joinShards groups servers shards) gid + moved =
        owned shards gid +
          (if gid ∈ servers then computeTargets groups gid - owned shards gid else 0) ∧
      ((∀ other ∈ groups, other ∉ servers → computeTargets groups other ≤ owned shards other) →
        moved = owned shards gid - computeTargets groups gid) := by
  have nonempty : sortedGIDs groups ≠ [] := List.ne_nil_of_mem (mem_sortedGIDs.mpr present)
  have nonzero : gid ≠ 0 := fun none => zero (none ▸ present)
  obtain ⟨_, surplus⟩ := joinDonors_group (computeTargets groups) shards present nonzero
  refine ⟨_, ?_, owned_joinShards zero all nonempty joining gid, fun settled => ?_⟩
  · rw [← surplus]
    exact (List.take_sublist _ _).countP_le
  · rw [(length_joinWanted zero all nonempty joining).2 settled, List.take_length, surplus]

/-- Once only joining groups lack shards, nothing is left without an owner. -/
theorem owned_join_zero (zero : 0 ∉ groups) (all : ∀ i, shards i = 0 ∨ shards i ∈ groups)
    (nonempty : sortedGIDs groups ≠ []) (joining : ∀ gid ∈ servers, gid ∈ groups)
    (settled : ∀ other ∈ groups, other ∉ servers → computeTargets groups other ≤ owned shards other) :
    owned (joinShards groups servers shards) 0 = 0 := by
  have total := owned_joinShards zero all nonempty joining 0
  rw [(length_joinWanted zero all nonempty joining).2 settled, List.take_length, joinDonors_zero,
    if_neg fun joins => zero (joining 0 joins)] at total
  omega

/-- What the groups that stay ask for. -/
def leaveWanted (groups : Groups) (leaving : List Int) (shards : Fin NShards → Int) : List Int :=
  wanted (computeTargets groups) (leaveDonors groups leaving shards).2 (sortedGIDs groups)

theorem leaveShards_eq (groups : Groups) (leaving : List Int) (shards : Fin NShards → Int) :
    leaveShards groups leaving shards = assign shards
      ((leaveDonors groups leaving shards).1.zip (leaveWanted groups leaving shards)) :=
  fill_eq _ _ _ _ _

/-- The shards of the groups that stay and the donors are all shards. -/
theorem length_leaveDonors (all : ∀ i, shards i ∈ gids ∨ shards i ∈ groups)
    (staying : ∀ gid ∈ groups, gid ∉ gids) :
    ((sortedGIDs groups).map fun gid => owned shards gid).sum +
      (leaveDonors groups gids shards).1.length = NShards := by
  have sums := sum_countP (nodup_sortedGIDs groups) shards (List.finRange NShards)
  have rest := List.length_eq_countP_add_countP (fun i => decide (shards i ∈ sortedGIDs groups))
    (l := List.finRange NShards)
  simp only [countP_finRange, List.length_finRange] at sums rest
  rw [leaveDonors_fst, ← List.countP_eq_length_filter, sums]
  refine Eq.trans ?_ rest.symm
  congr 1
  refine List.countP_congr fun i _ => ?_
  simp only [decide_eq_true_eq, mem_sortedGIDs]
  exact ⟨fun leaves stays => staying _ stays leaves, fun outside => (all i).resolve_right outside⟩

/-- The groups that stay can take all donors, and lack no more than these if
none of them has a surplus. -/
theorem length_leaveWanted (all : ∀ i, shards i ∈ gids ∨ shards i ∈ groups)
    (staying : ∀ gid ∈ groups, gid ∉ gids) (nonempty : sortedGIDs groups ≠ []) :
    (leaveDonors groups gids shards).1.length ≤ (leaveWanted groups gids shards).length ∧
      ((∀ other ∈ groups, owned shards other ≤ computeTargets groups other) →
        (leaveWanted groups gids shards).length = (leaveDonors groups gids shards).1.length) := by
  have size := length_wanted (computeTargets groups) (leaveDonors groups gids shards).2
    (sortedGIDs groups)
  rw [List.map_congr_left (g := fun other => computeTargets groups other - owned shards other)
    fun other member => by
      have inside := mem_sortedGIDs.mp member
      rw [leaveDonors_snd shards inside (staying other inside)]] at size
  have stay := length_leaveDonors all staying
  have targetsSum := computeTargets_sum nonempty
  have balance := sum_surplus (fun gid => owned shards gid) (computeTargets groups) (sortedGIDs groups)
  rw [leaveWanted, size]
  refine ⟨by omega, fun settled => ?_⟩
  have level : ((sortedGIDs groups).map fun gid =>
      owned shards gid - computeTargets groups gid).sum = 0 := by
    rw [List.sum_eq_zero_iff]
    intro surplus member
    obtain ⟨other, inside, rfl⟩ := List.mem_map.mp member
    exact Nat.sub_eq_zero_of_le (settled other (mem_sortedGIDs.mp inside))
  omega

/-- A group that stays receives as many shards as there are wishes of it among those
that the donors suffice for. -/
theorem owned_leaveShards (all : ∀ i, shards i ∈ gids ∨ shards i ∈ groups)
    (staying : ∀ gid ∈ groups, gid ∉ gids) (present : gid ∈ groups) :
    owned (leaveShards groups gids shards) gid = owned shards gid +
      ((leaveWanted groups gids shards).take (leaveDonors groups gids shards).1.length).count gid := by
  have nonempty : sortedGIDs groups ≠ [] := List.ne_nil_of_mem (mem_sortedGIDs.mpr present)
  have fits := (length_leaveWanted all staying nonempty).1
  have none : (leaveDonors groups gids shards).1.countP (shards · = gid) = 0 := by
    rw [leaveDonors_fst, List.countP_eq_zero]
    intro i member
    rw [List.mem_filter, decide_eq_true_eq] at member
    rw [decide_eq_true_eq]
    exact fun mine => staying gid present (mine ▸ member.2)
  have once : (leaveDonors groups gids shards).1.Nodup := by
    rw [leaveDonors_fst]
    exact (List.nodup_finRange NShards).filter _
  have total := owned_assign shards ((leaveDonors groups gids shards).1.zip
    (leaveWanted groups gids shards)) gid
    (by rw [map_fst_zip_take]; exact (List.take_sublist _ _).nodup once)
  rw [map_fst_zip_take, map_snd_zip_take, List.take_of_length_le fits, none, ← leaveShards_eq] at total
  exact total

/-- The shard counts after a leave: the groups that stay receive at most what
they lack, and exactly that if none of them has a surplus. -/
theorem owned_leave (all : ∀ i, shards i ∈ gids ∨ shards i ∈ groups)
    (staying : ∀ gid ∈ groups, gid ∉ gids) (present : gid ∈ groups) :
    ∃ received ≤ computeTargets groups gid - owned shards gid,
      owned (leaveShards groups gids shards) gid = owned shards gid + received ∧
      ((∀ other ∈ groups, owned shards other ≤ computeTargets groups other) →
        received = computeTargets groups gid - owned shards gid) := by
  have nonempty : sortedGIDs groups ≠ [] := List.ne_nil_of_mem (mem_sortedGIDs.mpr present)
  have wishes : (leaveWanted groups gids shards).count gid =
      computeTargets groups gid - owned shards gid := by
    rw [leaveWanted, count_wanted (nodup_sortedGIDs groups), if_pos (mem_sortedGIDs.mpr present),
      leaveDonors_snd shards present (staying gid present)]
  refine ⟨_, ?_, owned_leaveShards all staying present, fun settled => ?_⟩
  · rw [← wishes]
    exact (List.take_sublist _ _).count_le gid
  · rw [← (length_leaveWanted all staying nonempty).2 settled, List.take_length, wishes]

/-- The shards that the groups of a new configuration do not own yet. -/
def vacated (groups : Groups) (shards : Fin NShards → Int) : Nat :=
  NShards - ((sortedGIDs groups).map fun gid => owned shards gid).sum

/-- What the groups with smaller gids lack. -/
def lackBelow (groups : Groups) (shards : Fin NShards → Int) (gid : Int) : Nat :=
  lack groups shards ((sortedGIDs groups).takeWhile (· ≠ gid))

/-- The shard counts after a leave, exactly: each group that stays takes what it lacks
from what those with smaller gids have left of the vacated shards. -/
theorem owned_leaveShards_eq (all : ∀ i, shards i ∈ gids ∨ shards i ∈ groups)
    (staying : ∀ gid ∈ groups, gid ∉ gids) (present : gid ∈ groups) :
    owned (leaveShards groups gids shards) gid = owned shards gid +
      min (computeTargets groups gid - owned shards gid)
        (vacated groups shards - lackBelow groups shards gid) := by
  have counts {other : Int} (inside : other ∈ sortedGIDs groups) :
      (leaveDonors groups gids shards).2 other = owned shards other :=
    leaveDonors_snd shards (mem_sortedGIDs.mp inside) (staying other (mem_sortedGIDs.mp inside))
  have member := mem_sortedGIDs.mpr present
  have handed := length_leaveDonors all staying
  have size : (leaveDonors groups gids shards).1.length = vacated groups shards := by
    unfold vacated
    omega
  have below : (((sortedGIDs groups).takeWhile (· ≠ gid)).map fun other =>
      computeTargets groups other - (leaveDonors groups gids shards).2 other).sum =
      lackBelow groups shards gid := by
    unfold lackBelow lack
    congr 1
    exact List.map_congr_left fun other inside => by
      rw [counts ((List.takeWhile_sublist _).subset inside)]
  rw [owned_leaveShards all staying present, leaveWanted,
    count_take_wanted (nodup_sortedGIDs groups) _ _ member, counts member, size, below]

/-! The configurations a join and a leave append -/

theorem join_groups (prev : Config) (servers : Groups) :
    (prev.join servers).groups = addGroups prev.groups servers := by
  unfold Config.join
  simp only
  split <;> rfl

theorem join_shards (prev : Config) (nonempty : sortedGIDs (addGroups prev.groups servers) ≠ []) :
    (prev.join servers).shards = joinShards (addGroups prev.groups servers) servers prev.shards := by
  unfold Config.join
  simp only
  rw [if_neg nonempty]

theorem join_shards_empty (prev : Config) (empty : sortedGIDs (addGroups prev.groups servers) = []) :
    (prev.join servers).shards = fun _ => 0 := by
  unfold Config.join
  simp only
  rw [if_pos empty]

theorem leave_groups (prev : Config) (gids : List Int) :
    (prev.leave gids).groups = removeGroups prev.groups gids := by
  unfold Config.leave
  simp only
  split <;> rfl

theorem leave_shards (prev : Config) (nonempty : sortedGIDs (removeGroups prev.groups gids) ≠ []) :
    (prev.leave gids).shards = leaveShards (removeGroups prev.groups gids) gids prev.shards := by
  unfold Config.leave
  simp only
  rw [if_neg nonempty]

theorem leave_shards_empty (prev : Config) (empty : sortedGIDs (removeGroups prev.groups gids) = []) :
    (prev.leave gids).shards = fun _ => 0 := by
  unfold Config.leave
  simp only
  rw [if_pos empty]

theorem not_mem_of_empty (empty : sortedGIDs groups = []) (gid : Int) : gid ∉ groups := by
  rw [← mem_sortedGIDs, empty]
  exact List.not_mem_nil

theorem length_sortedGIDs_le {groups' : Groups} (part : ∀ gid ∈ groups, gid ∈ groups') :
    (sortedGIDs groups).length ≤ (sortedGIDs groups').length :=
  ((nodup_sortedGIDs groups).subperm fun gid member =>
    mem_sortedGIDs.mpr (part gid (mem_sortedGIDs.mp member))).length_le

/-- A shard keeps its owner or is a donor that goes to one of the recipients. -/
theorem fill_owner (targets counts : Int → Nat) (gids : List Int) (donors : List (Fin NShards))
    (shards : Fin NShards → Int) (i : Fin NShards) :
    fill targets counts gids donors shards i = shards i ∨
      i ∈ donors ∧ fill targets counts gids donors shards i ∈ gids := by
  rw [fill_eq]
  rcases assign_cases shards (donors.zip (wanted targets counts gids)) i with ⟨_, same⟩ | member
  · exact Or.inl same
  · obtain ⟨donor, wish⟩ := List.of_mem_zip member
    exact Or.inr ⟨donor, mem_of_mem_wanted wish⟩

theorem joinShards_owner (groups servers : Groups) (shards : Fin NShards → Int) (i : Fin NShards) :
    joinShards groups servers shards i = shards i ∨ joinShards groups servers shards i ∈ servers :=
  (fill_owner _ _ _ _ shards i).imp_right fun moved => mem_sortedGIDs.mp moved.2

theorem leaveShards_owner (groups : Groups) (leaving : List Int) (shards : Fin NShards → Int)
    (i : Fin NShards) :
    leaveShards groups leaving shards i = shards i ∨
      shards i ∈ leaving ∧ leaveShards groups leaving shards i ∈ groups := by
  refine (fill_owner _ _ _ _ shards i).imp_right fun moved => ⟨?_, mem_sortedGIDs.mp moved.2⟩
  have donor := moved.1
  rw [leaveDonors_fst, List.mem_filter, decide_eq_true_eq] at donor
  exact donor.2

/-- Every shard of a leaving group finds a new owner. -/
theorem leaveShards_donor (all : ∀ i, shards i ∈ gids ∨ shards i ∈ groups)
    (staying : ∀ gid ∈ groups, gid ∉ gids) (nonempty : sortedGIDs groups ≠ []) {i : Fin NShards}
    (leaves : shards i ∈ gids) : leaveShards groups gids shards i ∈ groups := by
  have fits := (length_leaveWanted all staying nonempty).1
  rw [leaveShards_eq]
  rcases assign_cases shards ((leaveDonors groups gids shards).1.zip
    (leaveWanted groups gids shards)) i with ⟨unmoved, _⟩ | member
  · rw [map_fst_zip_take, List.take_of_length_le fits, leaveDonors_fst, List.mem_filter] at unmoved
    exact absurd ⟨List.mem_finRange i, decide_eq_true leaves⟩ unmoved
  · exact mem_sortedGIDs.mp (mem_of_mem_wanted (List.of_mem_zip member).2)

section join
variable (housed : Housed prev) (zero : 0 ∉ servers)
include housed zero

theorem zero_not_mem_addGroups : 0 ∉ addGroups prev.groups servers := by
  rw [mem_addGroups]
  exact not_or.mpr ⟨housed.zero, zero⟩

omit zero in
theorem Housed.owner_addGroups (servers : Groups) (i : Fin NShards) :
    prev.shards i = 0 ∨ prev.shards i ∈ addGroups prev.groups servers :=
  (housed.owner i).imp_right fun old => mem_addGroups.mpr (Or.inl old)

theorem Housed.join : Housed (prev.join servers) := by
  have absent := zero_not_mem_addGroups housed zero
  have joining : ∀ gid ∈ servers, gid ∈ addGroups prev.groups servers := fun gid joins =>
    mem_addGroups.mpr (Or.inr joins)
  constructor
  case zero => rwa [join_groups]
  case empty =>
    intro empty i
    rw [join_groups] at empty
    rw [join_shards_empty prev empty]
  case member =>
    intro nonempty i
    rw [join_groups] at nonempty ⊢
    rw [join_shards prev nonempty]
    rcases joinShards_owner (addGroups prev.groups servers) servers prev.shards i with same | moved
    · rcases housed.owner_addGroups servers i with none | present
      · -- nobody owned anything, so every group of the new configuration joins
        have first : sortedGIDs prev.groups = [] := by
          by_contra nonempty
          exact housed.zero (none ▸ housed.member nonempty i)
        have left := owned_join_zero absent (housed.owner_addGroups servers) nonempty joining
          fun other inside outside => by
            rcases mem_addGroups.mp inside with old | joins
            · exact absurd old (not_mem_of_empty first other)
            · exact absurd joins outside
        rw [owned, Finset.card_eq_zero, Finset.filter_eq_empty_iff] at left
        exact absurd (same.trans none) (left (Finset.mem_univ i))
      · rw [same]
        exact present
    · exact joining _ moved

theorem Level.join (level : Level prev) : Level (prev.join servers) := by
  intro gid present
  rw [join_groups] at present ⊢
  have nonempty : sortedGIDs (addGroups prev.groups servers) ≠ [] :=
    List.ne_nil_of_mem (mem_sortedGIDs.mpr present)
  rw [join_shards prev nonempty]
  have absent := zero_not_mem_addGroups housed zero
  have joining : ∀ gid ∈ servers, gid ∈ addGroups prev.groups servers := fun gid joins =>
    mem_addGroups.mpr (Or.inr joins)
  have target := computeTargets_bounds present
  obtain ⟨moved, most, total, settled⟩ := owned_join absent (housed.owner_addGroups servers) joining present
  by_cases old : gid ∈ prev.groups
  · have count := level gid old
    have more : (sortedGIDs prev.groups).length ≤
        (sortedGIDs (addGroups prev.groups servers)).length :=
      length_sortedGIDs_le fun gid old => mem_addGroups.mpr (Or.inl old)
    have positive : 0 < (sortedGIDs prev.groups).length :=
      List.length_pos_of_mem (mem_sortedGIDs.mpr old)
    have fewer := Nat.div_le_div_left more positive (a := NShards)
    by_cases far : NShards / (sortedGIDs prev.groups).length =
        NShards / (sortedGIDs (addGroups prev.groups servers)).length
    · split at total <;> omega
    · -- every old group already has its target, so all surpluses are given away
      have given := settled fun other inside outside => by
        have bounds := computeTargets_bounds inside
        have held := level other ((mem_addGroups.mp inside).resolve_right outside)
        omega
      split at total <;> omega
  · have joins : gid ∈ servers := (mem_addGroups.mp present).resolve_left old
    have none := housed.owned_absent old fun isZero => absent (isZero ▸ present)
    rw [if_pos joins] at total
    omega

end join

section leave
variable (housed : Housed prev)
include housed

theorem Housed.owner_removeGroups (nonempty : sortedGIDs (removeGroups prev.groups gids) ≠ [])
    (i : Fin NShards) : prev.shards i ∈ gids ∨ prev.shards i ∈ removeGroups prev.groups gids := by
  have before : sortedGIDs prev.groups ≠ [] := by
    intro empty
    obtain ⟨gid, member⟩ := List.exists_mem_of_ne_nil _ nonempty
    exact not_mem_of_empty empty gid (mem_removeGroups.mp (mem_sortedGIDs.mp member)).1
  by_cases leaves : prev.shards i ∈ gids
  · exact Or.inl leaves
  · exact Or.inr (mem_removeGroups.mpr ⟨housed.member before i, leaves⟩)

theorem Housed.leave (gids : List Int) : Housed (prev.leave gids) := by
  constructor
  case zero =>
    rw [leave_groups, mem_removeGroups]
    exact fun present => housed.zero present.1
  case empty =>
    intro empty i
    rw [leave_groups] at empty
    rw [leave_shards_empty prev empty]
  case member =>
    intro nonempty i
    rw [leave_groups] at nonempty ⊢
    rw [leave_shards prev nonempty]
    have all := housed.owner_removeGroups nonempty
    rcases all i with leaves | stays
    · exact leaveShards_donor all (fun gid inside => (mem_removeGroups.mp inside).2) nonempty leaves
    · rcases leaveShards_owner (removeGroups prev.groups gids) gids prev.shards i with same | moved
      · rw [same]
        exact stays
      · exact moved.2

theorem Level.leave (level : Level prev) (gids : List Int) : Level (prev.leave gids) := by
  intro gid present
  rw [leave_groups] at present ⊢
  have nonempty : sortedGIDs (removeGroups prev.groups gids) ≠ [] :=
    List.ne_nil_of_mem (mem_sortedGIDs.mpr present)
  rw [leave_shards prev nonempty]
  have stays : ∀ gid ∈ removeGroups prev.groups gids, gid ∉ gids := fun gid inside =>
    (mem_removeGroups.mp inside).2
  have target := computeTargets_bounds present
  have count := level gid (mem_removeGroups.mp present).1
  have fewer : (sortedGIDs (removeGroups prev.groups gids)).length ≤
      (sortedGIDs prev.groups).length :=
    length_sortedGIDs_le fun gid inside => (mem_removeGroups.mp inside).1
  have more := Nat.div_le_div_left fewer (List.length_pos_iff.mpr nonempty) (a := NShards)
  obtain ⟨received, most, total, settled⟩ :=
    owned_leave (housed.owner_removeGroups nonempty) stays present
  by_cases surplus : ∀ other ∈ removeGroups prev.groups gids,
      owned prev.shards other ≤ computeTargets (removeGroups prev.groups gids) other
  · have given := settled surplus
    have below := surplus gid present
    omega
  · -- a surplus in a staying group means that the average has not grown
    push Not at surplus
    obtain ⟨other, inside, above⟩ := surplus
    have bounds := computeTargets_bounds inside
    have held := level other (mem_removeGroups.mp inside).1
    omega

end leave

theorem join_moves (housed : Housed prev) {i : Fin NShards}
    (moved : (prev.join servers).shards i ≠ prev.shards i) : (prev.join servers).shards i ∈ servers := by
  by_cases empty : sortedGIDs (addGroups prev.groups servers) = []
  · have before : sortedGIDs prev.groups = [] := by
      by_contra nonempty
      exact not_mem_of_empty empty _ (mem_addGroups.mpr (Or.inl (housed.member nonempty i)))
    rw [join_shards_empty prev empty, housed.empty before i] at moved
    exact absurd rfl moved
  · rw [join_shards prev empty] at moved ⊢
    exact (joinShards_owner _ servers prev.shards i).resolve_left moved

theorem leave_moves (housed : Housed prev) {i : Fin NShards}
    (moved : (prev.leave gids).shards i ≠ prev.shards i) : prev.shards i ∈ gids := by
  by_cases empty : sortedGIDs (removeGroups prev.groups gids) = []
  · rw [leave_shards_empty prev empty] at moved
    by_contra stays
    exact not_mem_of_empty empty _ (mem_removeGroups.mpr
      ⟨(housed.owner i).resolve_left (Ne.symm moved), stays⟩)
  · rw [leave_shards prev empty] at moved
    exact ((leaveShards_owner _ gids prev.shards i).resolve_left moved).1

/-- A join or a leave; joining gids are not the reserved gid 0. -/
def Request.Rebalances : Request → Prop
  | .join servers => 0 ∉ servers
  | .leave _ => True
  | .move _ _ => False
  | .query _ => False

/-- Only shards that a join brings to the joining groups, or that a leave takes
from the leaving ones, change their owner. -/
def Request.MovesOnly (request : Request) (prev next : Config) : Prop :=
  ∀ i, next.shards i ≠ prev.shards i →
    match request with
    | .join servers => next.shards i ∈ servers
    | .leave gids => prev.shards i ∈ gids
    | .move shard gid => (i.val : Int) = shard ∧ next.shards i = gid
    | .query _ => False

/-- One join or leave appends one even configuration. -/
theorem change_rebalances {request : Request} {configs : List Config} (valid : request.Rebalances)
    (housed : Housed (latest configs)) (level : Level (latest configs)) :
    ∃ next, change configs request = some (configs ++ [next]) ∧ Housed next ∧ Level next ∧
      request.MovesOnly (latest configs) next := by
  cases request with
  | join servers =>
    exact ⟨_, rfl, housed.join valid, level.join housed valid, fun i moved => join_moves housed moved⟩
  | leave gids =>
    exact ⟨_, rfl, housed.leave gids, level.leave housed gids, fun i moved => leave_moves housed moved⟩
  | move shard gid => exact absurd valid id
  | query num => exact absurd valid id

theorem housed_default : Housed defaultConfig where
  zero := AList.notMem_empty 0
  empty _ _ := rfl
  member nonempty := absurd rfl nonempty

theorem level_default : Level defaultConfig :=
  fun gid present => absurd present (AList.notMem_empty gid)

/-- The history that joins and leaves produce: one configuration for each call,
all of them even, and shards only move where the call says. -/
structure Rebalanced (requests : List Request) (configs : List Config) : Prop where
  length : configs.length = requests.length + 1
  even : ∀ config ∈ configs, Housed config ∧ Level config
  moves : ∀ k request prev next, requests[k]? = some request → configs[k]? = some prev →
    configs[k + 1]? = some next → request.MovesOnly prev next

theorem Rebalanced.concat {requests : List Request} {configs : List Config} {request : Request}
    {next : Config} (past : Rebalanced requests configs) (housed : Housed next) (level : Level next)
    (moves : request.MovesOnly (latest configs) next) :
    Rebalanced (requests ++ [request]) (configs ++ [next]) := by
  constructor
  case length => simp [past.length]
  case even =>
    intro config member
    rcases List.mem_append.mp member with old | new
    · exact past.even config old
    · rw [List.mem_singleton.mp new]
      exact ⟨housed, level⟩
  case moves =>
    intro k request' prev next' atRequest atPrev atNext
    have size := past.length
    rcases getElem?_concat_cases atRequest with old | ⟨rfl, rfl⟩
    · have inside := (List.getElem?_eq_some_iff.mp old).1
      rw [List.getElem?_append_left (by omega)] at atPrev atNext
      exact past.moves k request' prev next' old atPrev atNext
    · rw [← size, List.getElem?_concat_length] at atNext
      rw [List.getElem?_append_left (by omega)] at atPrev
      cases atNext
      have final : latest configs = prev := by
        rw [latest, List.getLast?_eq_getElem?, size, Nat.add_sub_cancel, atPrev, Option.getD_some]
      rwa [final] at moves

theorem Rebalanced.latest_mem {requests : List Request} {configs : List Config}
    (past : Rebalanced requests configs) : latest configs ∈ configs := by
  have nonempty : configs ≠ [] := List.ne_nil_of_length_pos (by rw [past.length]; omega)
  rw [latest, List.getLast?_eq_some_getLast nonempty, Option.getD_some]
  exact List.getLast_mem nonempty

theorem rebalanced_exec {requests : List Request} (valid : ∀ r ∈ requests, r.Rebalances) :
    ∃ configs, exec change [defaultConfig] requests = some configs ∧ Rebalanced requests configs := by
  induction requests using List.reverseRecOn with
  | nil =>
    refine ⟨[defaultConfig], rfl, rfl, ?_, by simp⟩
    intro config member
    rw [List.mem_singleton.mp member]
    exact ⟨housed_default, level_default⟩
  | append_singleton requests request ih =>
    obtain ⟨configs, run, past⟩ := ih fun r member => valid r (List.mem_append_left _ member)
    obtain ⟨housed, level⟩ := past.even _ past.latest_mem
    obtain ⟨next, step, housed', level', moves⟩ :=
      change_rebalances (valid request (by simp)) housed level
    exact ⟨configs ++ [next], exec_concat run step, past.concat housed' level' moves⟩

/-- Joins and leaves in any order never fail, keep the shard counts of any two
groups within one of each other, and move shards only to joining groups and
from leaving ones. -/
theorem controller_balance (requests : List Request) (valid : ∀ r ∈ requests, r.Rebalances) :
    ∃ configs, exec change [defaultConfig] requests = some configs ∧
      configs.length = requests.length + 1 ∧
      (∀ config ∈ configs, ∀ g ∈ config.groups, ∀ h ∈ config.groups,
        owned config.shards g ≤ owned config.shards h + 1) ∧
      ∀ k request prev next, requests[k]? = some request → configs[k]? = some prev →
        configs[k + 1]? = some next → request.MovesOnly prev next := by
  obtain ⟨configs, run, past⟩ := rebalanced_exec valid
  refine ⟨configs, run, past.length, ?_, past.moves⟩
  intro config member g inG h inH
  have level := (past.even config member).2
  have upper := (level g inG).2
  have lower := (level h inH).1
  omega

/-- Two groups join, a third joins with one that is present, and the first
leaves together with an absent one. -/
def joinLeaveHistory : List Request :=
  [.join (groupsOf [(1, []), (2, [])]), .join (groupsOf [(3, []), (2, [])]), .leave [1, 9]]

theorem controller_balance_three :
    (∀ r ∈ joinLeaveHistory, r.Rebalances) ∧
      ∃ configs, exec change [defaultConfig] joinLeaveHistory = some configs ∧ configs.length = 4 := by
  have valid : ∀ r ∈ joinLeaveHistory, r.Rebalances := by
    intro r member
    simp only [joinLeaveHistory, List.mem_cons, List.not_mem_nil, or_false] at member
    rcases member with rfl | rfl | rfl
    · exact of_decide_eq_true (p := 0 ∉ groupsOf [(1, []), (2, [])]) rfl
    · exact of_decide_eq_true (p := 0 ∉ groupsOf [(3, []), (2, [])]) rfl
    · exact trivial
  obtain ⟨configs, run, length, _⟩ := controller_balance joinLeaveHistory valid
  exact ⟨valid, configs, run, length⟩

end DistSys.Shardctrler
