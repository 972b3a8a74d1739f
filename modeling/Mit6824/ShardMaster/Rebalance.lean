import Mit6824.Runs
import Mit6824.ShardMaster.Server

/-!
# Which shards a group gets

`rebalance` gives each group `NShards / groupCount` shards, in the order of the gids. The
shards of the remainder are meant to go to the first groups, but they are assigned at a
position that does not move on: the next group writes over them, and the last
`NShards % groupCount` shards keep the owner they had (`toList_fillGroups`). So a join of three
groups leaves a shard with group `0` (`ShardMaster.shard_without_group`).

Under `ShardMaster.keepsBalance` every configuration with a group is valid and balanced
(`ShardMaster.valid_and_balanced`). The condition is on the last configuration and
the command: the shards that `rebalance` leaves alone belong to different groups of the new
configuration.
-/

namespace Mit6824.Shards

/-! ## The loops of rebalance -/

section Loops

variable {gid : Int}

theorem exists_assign {ind : Nat} (inside : ind < nShards) (shards : Vector Int nShards)
    (gid : Int) : ∃ shards', assign shards ind gid = some shards' ∧
      shards'.toList = shards.toList.set ind gid :=
  ⟨shards.set ind gid inside, dif_pos inside, Vector.toList_set inside⟩

/-- The inner loop writes a block. -/
theorem toList_fillGroup (gid : Int) (count : Nat) (shards : Vector Int nShards) (shardInd : Nat)
    (fits : shardInd + count ≤ nShards) :
    ∃ shards', fillGroup gid count shards shardInd = some (shards', shardInd + count) ∧
      shards'.toList = shards.toList.take shardInd ++ List.replicate count gid ++
        shards.toList.drop (shardInd + count) := by
  induction count generalizing shards shardInd with
  | zero => exact ⟨shards, rfl, by simp⟩
  | succ count ih =>
      have inside : shardInd < nShards := by omega
      obtain ⟨shards₁, assigned, written⟩ := exists_assign inside shards gid
      obtain ⟨shards', filled, block⟩ := ih shards₁ (shardInd + 1) (by omega)
      refine ⟨shards', ?_, ?_⟩
      · rw [fillGroup, assigned]
        dsimp only
        rw [filled, Nat.add_right_comm shardInd 1 count, Nat.add_assoc]
      · have long : shardInd < shards.toList.length := by
          rw [Vector.length_toList]
          omega
        have front : shards₁.toList.take (shardInd + 1) = shards.toList.take shardInd ++ [gid] := by
          rw [written, List.take_add_one, List.take_set_of_le le_rfl, List.getElem?_set_self long]
          rfl
        rw [block, front, written, List.drop_set_of_lt (by omega)]
        simp [List.replicate_succ, Nat.add_comm 1 count, Nat.add_assoc]

/-- The loop over the groups writes one block for each group. The shards of the remainder are
written over, since there are fewer of them than groups. -/
theorem toList_fillGroups {shardPerGroup : Nat} (positive : 0 < shardPerGroup) (gids : List Int)
    (shards : Vector Int nShards) (shardInd remainShards : Nat)
    (few : remainShards ≤ gids.length - 1)
    (fits : shardInd + shardPerGroup * gids.length ≤ nShards) :
    ∃ shards', fillGroups shardPerGroup gids shards shardInd remainShards = some shards' ∧
      shards'.toList = shards.toList.take shardInd ++
        gids.flatMap (List.replicate shardPerGroup) ++
        shards.toList.drop (shardInd + shardPerGroup * gids.length) := by
  induction gids generalizing shards shardInd remainShards with
  | nil => exact ⟨shards, rfl, by simp⟩
  | cons gid rest ih =>
      rw [List.length_cons] at few fits
      rw [Nat.mul_add, Nat.mul_one] at fits
      set next := shardInd + shardPerGroup with next_def
      obtain ⟨shards₁, filled, block⟩ :=
        toList_fillGroup gid shardPerGroup shards shardInd (by omega)
      rw [← next_def] at filled block
      have long : shards.toList.length = nShards := Vector.length_toList
      have size : (shards.toList.take shardInd ++ List.replicate shardPerGroup gid).length =
          next := by
        rw [List.length_append, List.length_take, List.length_replicate]
        omega
      have front : shards₁.toList.take next =
          shards.toList.take shardInd ++ List.replicate shardPerGroup gid := by
        rw [block, List.take_left' size]
      have back : ∀ k, next ≤ k → shards₁.toList.drop k = shards.toList.drop k := by
        intro k above
        rw [block, List.drop_append, List.drop_eq_nil_of_le (by omega), List.nil_append, size,
          List.drop_drop]
        congr 1
        omega
      -- What follows needs the shards before `next` and behind the last block only.
      have finish : ∀ (shards₂ : Vector Int nShards) (remain : Nat), remain ≤ rest.length - 1 →
          shards₂.toList.take next = shards₁.toList.take next →
          shards₂.toList.drop (next + shardPerGroup * rest.length) =
            shards₁.toList.drop (next + shardPerGroup * rest.length) →
          ∃ shards', fillGroups shardPerGroup rest shards₂ next remain = some shards' ∧
            shards'.toList = shards.toList.take shardInd ++
              (gid :: rest).flatMap (List.replicate shardPerGroup) ++
              shards.toList.drop (shardInd + shardPerGroup * (rest.length + 1)) := by
        intro shards₂ remain few' sameFront sameBack
        obtain ⟨shards', filled', blocks⟩ := ih shards₂ next remain few' (by omega)
        refine ⟨shards', filled', ?_⟩
        rw [blocks, sameFront, front, sameBack, back _ (Nat.le_add_right _ _), List.flatMap_cons,
          next_def, Nat.mul_add, Nat.mul_one, Nat.add_assoc, Nat.add_comm shardPerGroup]
        simp only [List.append_assoc]
      rw [fillGroups, filled]
      dsimp only
      split_ifs with left
      · have more : shardPerGroup * 1 ≤ shardPerGroup * rest.length :=
          Nat.mul_le_mul_left _ (by omega)
        have inside : next < nShards := by omega
        obtain ⟨shards₂, assigned, written⟩ := exists_assign inside shards₁ gid
        rw [assigned]
        refine finish shards₂ (remainShards - 1) (by omega) ?_ ?_
        · rw [written, List.take_set_of_le le_rfl]
        · rw [written, List.drop_set_of_lt (by omega)]
      · exact finish shards₁ remainShards (by omega) rfl rfl

end Loops

/-- The number of shards of a group. -/
def Config.load (config : Config) (gid : Int) : Nat := config.shards.toList.count gid

/-- Every shard belongs to a group of the configuration, and no group has two shards more than
another. -/
structure Config.Balanced (config : Config) : Prop where
  valid : ∀ owner ∈ config.shards.toList, owner ∈ config.groups
  even : ∀ gid ∈ config.groups, ∀ gid' ∈ config.groups, config.load gid ≤ config.load gid' + 1

section Balance

variable {config config' : Config} {order : List Int}

/-- `rebalance` gives every group its block and leaves the shards of the remainder alone. -/
theorem rebalance_spec (visits : GoMap.Visits order config.groups)
    (someGroup : 0 < config.groups.keys.card) (few : config.groups.keys.card ≤ nShards) :
    ∃ shards, rebalance order config = some { config with shards := shards } ∧
      shards.toList =
        (order.insertionSort (· ≤ ·)).flatMap
            (List.replicate (nShards / config.groups.keys.card)) ++
          config.shards.toList.drop
            (nShards / config.groups.keys.card * config.groups.keys.card) := by
  set groupCount := config.groups.keys.card with groupCount_def
  have count : (order.insertionSort (· ≤ ·)).length = groupCount := by
    rw [List.length_insertionSort, visits.length]
  have positive : 0 < nShards / groupCount := Nat.div_pos few someGroup
  have remainder : nShards - nShards / groupCount * groupCount = nShards % groupCount := by
    have split := Nat.div_add_mod' nShards groupCount
    omega
  have below : nShards % groupCount < groupCount := Nat.mod_lt _ someGroup
  obtain ⟨shards, filled, blocks⟩ := toList_fillGroups positive
    (order.insertionSort (· ≤ ·)) config.shards 0 (nShards % groupCount) (by omega)
    (by rw [count, Nat.zero_add]; exact Nat.div_mul_le_self _ _)
  refine ⟨shards, ?_, ?_⟩
  · rw [rebalance, ← groupCount_def]
    dsimp only
    rw [if_neg (Nat.pos_iff_ne_zero.1 someGroup), remainder, filled]
    rfl
  · rw [blocks, count, Nat.zero_add]
    rfl

theorem rebalance_groups (balanced : rebalance order config = some config') :
    config'.groups = config.groups := by
  unfold rebalance at balanced
  dsimp only at balanced
  split_ifs at balanced
  · cases balanced
    rfl
  · obtain ⟨shards, _, rfl⟩ := Option.map_eq_some_iff.1 balanced
    rfl

theorem count_blocks (gids : List Int) (size : Nat) (gid : Int) :
    (gids.flatMap (List.replicate size)).count gid = size * gids.count gid := by
  induction gids with
  | nil => simp
  | cons head rest ih =>
      rw [List.flatMap_cons, List.count_append, ih, List.count_cons, List.count_replicate]
      by_cases same : head = gid
      · simp [same, Nat.mul_add, Nat.add_comm]
      · simp [same]

/-- Blocks of one size for all groups, and single shards of different groups. -/
theorem balanced_of_blocks {gids rest : List Int} {size : Nat}
    (shards : config.shards.toList = gids.flatMap (List.replicate size) ++ rest)
    (distinct : gids.Nodup) (all : ∀ gid, gid ∈ gids ↔ gid ∈ config.groups)
    (single : rest.Nodup) (owned : ∀ gid ∈ rest, gid ∈ config.groups) : config.Balanced := by
  have load : ∀ gid ∈ config.groups, config.load gid = size + rest.count gid := by
    intro gid member
    rw [Config.load, shards, List.count_append, count_blocks,
      List.count_eq_one_of_mem distinct ((all gid).2 member), Nat.mul_one]
  refine ⟨fun owner member => ?_, fun gid member gid' member' => ?_⟩
  · rw [shards, List.mem_append, List.mem_flatMap] at member
    rcases member with ⟨gid, listed, block⟩ | left
    · rw [List.eq_of_mem_replicate block]
      exact (all gid).1 listed
    · exact owned owner left
  · have once := List.nodup_iff_count_le_one.1 single gid
    rw [load gid member, load gid' member']
    omega

end Balance

/-! ## Every configuration -/

/-- The gids of the configuration that a command makes. -/
def Op.gidsAfter (op : Op) (groups : GoMap Int (List String)) : Finset Int :=
  match op.optype with
  | .joinType => groups.keys ∪ op.servers.keys
  | .leaveType => groups.keys \ op.gids.toFinset
  | _ => groups.keys

/-- The owners of the shards when a command has been obeyed and nothing is balanced yet. -/
def Op.ownersAfter (op : Op) (shards : Vector Int nShards) : List Int :=
  match op.optype with
  | .leaveType => shards.toList.map fun owner => if owner ∈ op.gids then -1 else owner
  | .moveType => shards.toList.set op.shard.toNat op.gid
  | _ => shards.toList

/-- The loops of a step visit the keys of the maps they range over. -/
def Ranges.Visit (ranges : Ranges) (op : Op) (last : Config) : Prop :=
  GoMap.Visits ranges.copied last.groups ∧ GoMap.Visits ranges.joined op.servers ∧
    ranges.balanced.Nodup ∧ ranges.balanced.toFinset = op.gidsAfter last.groups

instance (ranges : Ranges) (op : Op) (last : Config) : Decidable (ranges.Visit op last) :=
  inferInstanceAs (Decidable (_ ∧ _ ∧ _ ∧ _))

theorem change_spec {ranges : Ranges} {op : Op} {config config' : Config}
    (joined : GoMap.Visits ranges.joined op.servers)
    (changed : change ranges op config = some config') :
    config'.groups.keys = op.gidsAfter config.groups ∧
      config'.shards.toList = op.ownersAfter config.shards := by
  unfold change at changed
  unfold Op.gidsAfter Op.ownersAfter
  cases type : op.optype with
  | joinType =>
      simp only [type, Option.some.injEq] at changed
      subst changed
      refine ⟨?_, rfl⟩
      ext key
      rw [Finset.mem_union, Finmap.mem_keys, Finmap.mem_keys, Finmap.mem_keys, mem_joinGroups,
        joined.mem_iff, and_self]
  | leaveType =>
      simp only [type, Option.some.injEq] at changed
      subst changed
      refine ⟨?_, ?_⟩
      · ext key
        rw [Finset.mem_sdiff, Finmap.mem_keys, Finmap.mem_keys, List.mem_toFinset,
          leaveGroups_groups]
      · rw [leaveGroups_shards, Vector.toList_map]
  | moveType =>
      simp only [type] at changed
      split_ifs at changed
      obtain ⟨shards, assigned, rfl⟩ := Option.map_eq_some_iff.1 changed
      refine ⟨rfl, ?_⟩
      unfold assign at assigned
      split_ifs at assigned with inside
      cases assigned
      exact Vector.toList_set inside
  | queryType =>
      simp only [type, Option.some.injEq] at changed
      subst changed
      exact ⟨rfl, rfl⟩

namespace ShardMaster

variable {sm sm' : ShardMaster} {action : Ranges × ApplyMsg Op Unit}

/-- The loops visit the keys of their maps. -/
def ranged (sm : ShardMaster) (action : Ranges × ApplyMsg Op Unit) : Bool :=
  (sm.changes action.2).all fun (op, last) => decide (action.1.Visit op last)

/-- There are at most as many groups as shards, and the shards that are left over when every group
has its block belong to different groups. -/
def keepsBalance (sm : ShardMaster) (action : Ranges × ApplyMsg Op Unit) : Bool :=
  (sm.changes action.2).all fun (op, last) =>
    let gids := op.gidsAfter last.groups
    let rest := (op.ownersAfter last.shards).drop (nShards / gids.card * gids.card)
    gids.card == 0 ||
      decide (gids.card ≤ nShards ∧ rest.Nodup ∧ ∀ owner ∈ rest, owner ∈ gids)

/-- The new configuration of one step. -/
theorem nextConfig_balanced {ranges : Ranges} {op : Op} {last config : Config}
    (visit : ranges.Visit op last) (made : nextConfig ranges op last = some config)
    {gids : Finset Int} (after : op.gidsAfter last.groups = gids) (someGroup : 0 < gids.card)
    (few : gids.card ≤ nShards)
    (single : ((op.ownersAfter last.shards).drop (nShards / gids.card * gids.card)).Nodup)
    (owned : ∀ owner ∈ (op.ownersAfter last.shards).drop (nShards / gids.card * gids.card),
      owner ∈ gids) : config.Balanced := by
  obtain ⟨copied, joined, distinct, visited⟩ := visit
  simp only [nextConfig, copyGroups_eq copied] at made
  split at made
  · cases made
  rename_i changed changes
  obtain ⟨groups, shards⟩ := change_spec joined changes
  rw [after] at groups visited
  have visits : GoMap.Visits ranges.balanced changed.groups := ⟨distinct, visited.trans groups.symm⟩
  obtain ⟨shards', balanced, blocks⟩ := rebalance_spec visits
    (by rwa [groups]) (by rwa [groups])
  obtain rfl := Option.some.inj (balanced.symm.trans made)
  rw [groups, shards] at blocks
  refine balanced_of_blocks blocks ?_ (fun gid => ?_) single fun gid member => ?_
  · exact (List.perm_insertionSort _ _).nodup_iff.2 distinct
  · rw [List.mem_insertionSort]
    exact visits.mem_iff
  · rw [← Finmap.mem_keys, groups]
    exact owned gid member

/-- The groups of the new configuration. -/
theorem nextConfig_groups {ranges : Ranges} {op : Op} {last config : Config}
    (visit : ranges.Visit op last) (made : nextConfig ranges op last = some config) :
    config.groups.keys = op.gidsAfter last.groups := by
  obtain ⟨copied, joined, _⟩ := visit
  simp only [nextConfig, copyGroups_eq copied] at made
  split at made
  · cases made
  rename_i changed changes
  rw [rebalance_groups made, (change_spec joined changes).1]

/-- In every run of commands that meet the condition, every configuration with at least one group
gives every shard to a group it has, and no group has two shards more than another. -/
theorem valid_and_balanced
    (run : Reaches apply (fun sm action => sm.ranged action = true ∧ sm.keepsBalance action = true)
      start sm) {config : Config} (member : config ∈ sm.configs)
    (someGroup : config.groups.keys.Nonempty) : config.Balanced := by
  refine run.invariant
    (fun sm => ∀ config ∈ sm.configs, config.groups.keys.Nonempty → config.Balanced)
    ?_ ?_ config member someGroup
  · intro config member someGroup
    rw [List.mem_singleton.1 member] at someGroup
    exact absurd rfl someGroup.ne_empty
  · intro sm sm' action old allowed applied config member someGroup
    rcases apply_configs applied with same | ⟨op, last, new, changes, made, grown⟩
    · exact old config (same ▸ member) someGroup
    · rw [grown, List.mem_append, List.mem_singleton] at member
      rcases member with before | rfl
      · exact old config before someGroup
      · simp only [ranged, keepsBalance, changes, Option.all_some, decide_eq_true_eq,
          Bool.or_eq_true, beq_iff_eq] at allowed
        obtain ⟨visit, condition⟩ := allowed
        have nonempty : 0 < (op.gidsAfter last.groups).card := by
          rw [← nextConfig_groups visit made, Finset.card_pos]
          exact someGroup
        obtain ⟨few, single, owned⟩ := condition.resolve_left (Nat.pos_iff_ne_zero.1 nonempty)
        exact nextConfig_balanced visit made rfl nonempty few single owned

/-- Client `7` joins a group. -/
def joinFirst : Ranges × ApplyMsg Op Unit :=
  (⟨[], [4], [4]⟩,
    ⟨true, some
      { clientID := 7, proposalID := 1, optype := .joinType
        servers := GoMap.ofList [(4, ["a"])] }, 1, none⟩)

/-- Two more groups join; the loops visit the groups as they like. -/
def joinTwoMore : Ranges × ApplyMsg Op Unit :=
  (⟨[4], [6, 5], [5, 6, 4]⟩,
    ⟨true, some
      { clientID := 7, proposalID := 2, optype := .joinType
        servers := GoMap.ofList [(5, ["b"]), (6, ["c"])] }, 2, none⟩)

theorem valid_and_balanced_joined :
    ∃ (sm : ShardMaster) (config : Config), config ∈ sm.configs ∧ config.groups.keys.card = 3 ∧
      config.Balanced := by
  have joined : ∃ sm, Reaches apply
      (fun sm action => sm.ranged action = true ∧ sm.keepsBalance action = true) start sm ∧
        ∃ config ∈ sm.configs, config.groups.keys.card = 3 :=
    exists_reaches [joinFirst, joinTwoMore] (by decide +kernel)
  obtain ⟨sm, run, config, member, three⟩ := joined
  have someGroup : config.groups.keys.Nonempty := Finset.card_pos.1 (by omega)
  exact ⟨sm, config, member, three, valid_and_balanced run member someGroup⟩

/-- The first command joins three groups. -/
def joinThree : Ranges × ApplyMsg Op Unit :=
  (⟨[], [4, 5, 6], [4, 5, 6]⟩,
    ⟨true, some
      { clientID := 7, proposalID := 1, optype := .joinType
        servers := GoMap.ofList [(4, ["a"]), (5, ["b"]), (6, ["c"])] },
      1, none⟩)

theorem shard_without_group :
    ∃ sm : ShardMaster, Reaches apply (fun sm action => sm.ranged action = true) start sm ∧
      ∃ config ∈ sm.configs, config.groups.keys.card = 3 ∧
        config.shards.toList = [4, 4, 4, 5, 5, 5, 6, 6, 6, 0] ∧ 0 ∉ config.groups :=
  exists_reaches [joinThree] (by decide +kernel)

end ShardMaster

end Mit6824.Shards
