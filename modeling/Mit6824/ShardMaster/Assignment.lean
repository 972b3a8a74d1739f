import Mit6824.Grouping
import Mit6824.ShardMaster.History
import Mit6824.ShardMaster.Rebalance

/-!
# Which group owns a shard

`rebalance` runs after every command, so the owner of a shard is decided by the gids of the
configuration and the position of the shard (`blockOwner`), except for the few shards that
`rebalance` leaves alone. With more groups than shards it leaves all shards alone but the first,
which the groups take one after the other; the tenth of them keeps it.

So a `Move` hands off its shard only where `rebalance` does not give it back
(`ShardMaster.move_hands_off_iff`), and a `Join` or a `Leave` moves shards between
groups that are there before and after, unless the blocks of these groups happen to stay
where they were (`ShardMaster.minimal_transfers_iff`).
-/

namespace Mit6824.Shards

/-- The group to which `rebalance` gives a shard, if it does not leave the shard alone. -/
def blockOwner (gids : Finset Int) (shard : Nat) : Option Int :=
  if gids.card ≤ nShards then (gids.sort (· ≤ ·))[shard / (nShards / gids.card)]?
  else if shard = 0 then (gids.sort (· ≤ ·))[nShards - 1]?
  else none

theorem blockOwner_empty (shard : Nat) : blockOwner ∅ shard = none := by
  simp [blockOwner]

/-- `rebalance` leaves a shard alone that is behind the last block, or is not the first one if the
groups are too many. -/
theorem blockOwner_eq_none_iff {gids : Finset Int} {shard : Nat} :
    blockOwner gids shard = none ↔
      if gids.card ≤ nShards then nShards / gids.card * gids.card ≤ shard else shard ≠ 0 := by
  unfold blockOwner
  split_ifs with few first
  · rw [List.getElem?_eq_none_iff, Finset.length_sort]
    rcases Nat.eq_zero_or_pos gids.card with none | someGroup
    · simp [none]
    · rw [Nat.le_div_iff_mul_le (Nat.div_pos few someGroup), Nat.mul_comm]
  · rw [List.getElem?_eq_none_iff, Finset.length_sort]
    omega
  · simp [first]

/-! ## rebalance -/

section Rebalance

variable {order : List Int} {config : Config}

theorem getElem?_blocks {size : Nat} (positive : 0 < size) (gids : List Int) (i : Nat) :
    (gids.flatMap (List.replicate size))[i]? = gids[i / size]? := by
  induction gids generalizing i with
  | nil => rfl
  | cons gid rest ih =>
      rw [List.flatMap_cons]
      rcases lt_or_ge i size with here | later
      · rw [List.getElem?_append_left (by simpa using here), Nat.div_eq_of_lt here,
          List.getElem?_replicate_of_lt here]
        rfl
      · rw [List.getElem?_append_right (by simpa using later), List.length_replicate, ih,
          Nat.div_eq_sub_div positive later, List.getElem?_cons_succ]

/-- With more groups than shards every group gets a block of no shard, and the first groups take
the first shard one after the other. -/
theorem fillGroups_zero (gids : List Int) (shards : Vector Int nShards) (remainShards : Nat)
    (few : remainShards ≤ gids.length) :
    ∃ shards', fillGroups 0 gids shards 0 remainShards = some shards' ∧
      ∀ i, shards'.toList[i]? =
        (if i = 0 ∧ 0 < remainShards then gids[remainShards - 1]? else none).or
          shards.toList[i]? := by
  induction gids generalizing shards remainShards with
  | nil =>
      obtain rfl : remainShards = 0 := Nat.le_zero.1 few
      exact ⟨shards, rfl, by simp⟩
  | cons gid rest ih =>
      rw [fillGroups, fillGroup]
      dsimp only
      cases remainShards with
      | zero =>
          obtain ⟨shards', filled, owners⟩ := ih shards 0 (Nat.zero_le _)
          exact ⟨shards', filled, by simpa using owners⟩
      | succ remain =>
          have inside : 0 < nShards := by decide
          obtain ⟨shards₁, assigned, written⟩ := exists_assign inside shards gid
          obtain ⟨shards', filled, owners⟩ := ih shards₁ remain (by simpa using few)
          rw [if_pos (Nat.succ_pos remain), assigned]
          refine ⟨shards', filled, fun i => ?_⟩
          rw [owners, written]
          rcases Nat.eq_zero_or_pos i with rfl | behind
          · cases remain with
            | zero =>
                have first : 0 < shards.toList.length := by
                  rw [Vector.length_toList]
                  decide
                simp [List.getElem?_set_self first]
            | succ remain =>
                have listed : remain < rest.length := Nat.le_of_succ_le_succ few
                simp [List.getElem?_eq_getElem listed]
          · simp [behind.ne', List.getElem?_set_ne behind.ne]

/-- `rebalance` never fails, whatever the number of groups, and decides the owner of each shard or
leaves it alone. -/
theorem rebalance_owners (visits : GoMap.Visits order config.groups) :
    ∃ shards, rebalance order config = some { config with shards := shards } ∧
      ∀ i, shards.toList[i]? =
        (blockOwner config.groups.keys i).or config.shards.toList[i]? := by
  have sorted := Grouping.insertionSort_of_visits visits
  rcases Nat.eq_zero_or_pos config.groups.keys.card with none | someGroup
  · refine ⟨config.shards, ?_, fun i => ?_⟩
    · rw [rebalance]
      exact if_pos none
    · rw [Finset.card_eq_zero.1 none, blockOwner_empty, Option.none_or]
  rcases le_or_gt config.groups.keys.card nShards with few | many
  · obtain ⟨shards, balanced, blocks⟩ := rebalance_spec visits someGroup few
    refine ⟨shards, balanced, fun i => ?_⟩
    have positive := Nat.div_pos few someGroup
    have size : ((config.groups.keys.sort (· ≤ ·)).flatMap
        (List.replicate (nShards / config.groups.keys.card))).length =
          nShards / config.groups.keys.card * config.groups.keys.card := by
      simp [List.length_flatMap, Nat.mul_comm]
    rw [sorted] at blocks
    rw [blocks, blockOwner, if_pos few]
    rcases lt_or_ge i (nShards / config.groups.keys.card * config.groups.keys.card) with
      inside | behind
    · rw [List.getElem?_append_left (by rwa [size]), getElem?_blocks positive]
      have listed : i / (nShards / config.groups.keys.card) <
          (config.groups.keys.sort (· ≤ ·)).length := by
        rw [Finset.length_sort]
        exact Nat.div_lt_of_lt_mul inside
      rw [List.getElem?_eq_getElem listed, Option.some_or]
    · have unlisted : (config.groups.keys.sort (· ≤ ·))[
          i / (nShards / config.groups.keys.card)]? = none := by
        rw [List.getElem?_eq_none_iff, Finset.length_sort, Nat.le_div_iff_mul_le positive,
          Nat.mul_comm]
        exact behind
      rw [List.getElem?_append_right (by rwa [size]), size, List.getElem?_drop,
        Nat.add_sub_cancel' behind, unlisted, Option.none_or]
  · have zero : nShards / config.groups.keys.card = 0 := Nat.div_eq_of_lt many
    obtain ⟨shards, filled, owners⟩ := fillGroups_zero (config.groups.keys.sort (· ≤ ·))
      config.shards nShards (by rw [Finset.length_sort]; exact many.le)
    refine ⟨shards, ?_, fun i => ?_⟩
    · rw [rebalance]
      dsimp only
      rw [if_neg someGroup.ne', sorted, zero, Nat.zero_mul, Nat.sub_zero, filled]
      rfl
    · rw [owners, blockOwner, if_neg (not_le.2 many)]
      simp [show 0 < nShards by decide]

end Rebalance

/-! ## The configuration a command makes -/

/-- The owner of a shard when a command has been obeyed and nothing is balanced yet. -/
def Op.ownerAfter (op : Op) (shards : Vector Int nShards) (p : Fin nShards) : Int :=
  match op.optype with
  | .leaveType => if shards.get p ∈ op.gids then -1 else shards.get p
  | .moveType => if op.shard.toNat = p then op.gid else shards.get p
  | _ => shards.get p

theorem getElem?_toList (shards : Vector Int nShards) (p : Fin nShards) :
    shards.toList[(p : Nat)]? = some (shards.get p) := by
  rw [Vector.getElem?_toList]
  exact Vector.getElem?_eq_getElem p.isLt

theorem Op.getElem?_ownersAfter (op : Op) (shards : Vector Int nShards) (p : Fin nShards) :
    (op.ownersAfter shards)[(p : Nat)]? = some (op.ownerAfter shards p) := by
  unfold ownersAfter ownerAfter
  cases op.optype with
  | joinType | queryType => exact getElem?_toList shards p
  | leaveType =>
      dsimp only
      rw [List.getElem?_map, getElem?_toList, Option.map_some]
  | moveType =>
      dsimp only
      rw [List.getElem?_set]
      split_ifs with here outside
      · rfl
      · exact absurd (by rw [Vector.length_toList, here]; exact p.isLt) outside
      · exact getElem?_toList shards p

section Next

variable {ranges : Ranges} {op : Op} {last config : Config}

/-- The shard of a `Move` is one of the shards. -/
def Op.InBounds (op : Op) : Prop :=
  op.optype = .moveType → 0 ≤ op.shard ∧ op.shard < nShards

instance (op : Op) : Decidable op.InBounds :=
  inferInstanceAs (Decidable (_ → _))

/-- Only a `Move` of a shard that there is not fails. -/
theorem change_isSome_iff : (change ranges op config).isSome = true ↔ op.InBounds := by
  unfold change Op.InBounds
  cases op.optype with
  | joinType | leaveType | queryType => simp
  | moveType =>
      dsimp only
      unfold assign
      split_ifs with negative inside
      · simp [negative]
      · simpa using (by omega : 0 ≤ op.shard ∧ op.shard < nShards)
      · simpa using (by omega : 0 ≤ op.shard → (nShards : Int) ≤ op.shard)

/-- A command that is in bounds makes a new configuration, in whatever order the maps are
visited. -/
theorem nextConfig_owners (visit : ranges.Visit op last) (inBounds : op.InBounds) :
    ∃ changed config, change ranges op { last with num := last.num + 1 } = some changed ∧
      nextConfig ranges op last = some config ∧ config.groups = changed.groups ∧
      config.groups.keys = op.gidsAfter last.groups ∧
      ∀ p : Fin nShards, config.shards.get p =
        (blockOwner (op.gidsAfter last.groups) p).getD (op.ownerAfter last.shards p) := by
  obtain ⟨copied, joined, distinct, visited⟩ := visit
  obtain ⟨changed, changes⟩ :
      ∃ changed, change ranges op { last with num := last.num + 1 } = some changed :=
    Option.isSome_iff_exists.1 (change_isSome_iff.2 inBounds)
  obtain ⟨groups, shards⟩ := change_spec joined changes
  have visits : GoMap.Visits ranges.balanced changed.groups :=
    ⟨distinct, visited.trans groups.symm⟩
  obtain ⟨shards', balanced, owners⟩ := rebalance_owners visits
  refine ⟨changed, { changed with shards := shards' }, changes, ?_, rfl, groups, fun p => ?_⟩
  · simp only [nextConfig, copyGroups_eq copied, changes, balanced]
  · have owner := owners p
    rw [getElem?_toList, groups, shards, Op.getElem?_ownersAfter] at owner
    cases block : blockOwner (op.gidsAfter last.groups) p with
    | none => simpa [block] using owner
    | some gid => simpa [block] using owner

theorem nextConfig_isSome_iff (visit : ranges.Visit op last) :
    (nextConfig ranges op last).isSome = true ↔ op.InBounds := by
  refine ⟨fun made => ?_, fun inBounds => ?_⟩
  · obtain ⟨config, made⟩ := Option.isSome_iff_exists.1 made
    unfold nextConfig at made
    dsimp only at made
    split at made
    · cases made
    · rename_i changes
      exact change_isSome_iff.1 (Option.isSome_iff_exists.2 ⟨_, changes⟩)
  · obtain ⟨_, config, _, made, _⟩ := nextConfig_owners visit inBounds
    exact Option.isSome_iff_exists.2 ⟨config, made⟩

end Next

/-- Every shard that `rebalance` does not leave alone has the owner `rebalance` gives it. -/
def Config.Settled (config : Config) : Prop :=
  ∀ (p : Fin nShards) (gid : Int),
    blockOwner config.groups.keys p = some gid → config.shards.get p = gid

namespace ShardMaster

variable {sm sm' : ShardMaster} {action : Ranges × ApplyMsg Op Unit} {op : Op} {last : Config}

theorem nextConfig_settled {ranges : Ranges} {config : Config} (visit : ranges.Visit op last)
    (made : nextConfig ranges op last = some config) : config.Settled := by
  have inBounds := (nextConfig_isSome_iff visit).1 (Option.isSome_iff_exists.2 ⟨config, made⟩)
  obtain ⟨_, config', _, made', _, keys, owners⟩ := nextConfig_owners visit inBounds
  obtain rfl := Option.some.inj (made.symm.trans made')
  intro p gid owner
  rw [owners, ← keys, owner, Option.getD_some]

/-- The configurations of a run, each rebalanced by the command that made it. -/
theorem settled_of_run (run : Reaches apply (fun sm action => sm.ranged action = true) start sm) :
    ∀ config ∈ sm.configs, config.Settled := by
  refine run.invariant (fun sm => ∀ config ∈ sm.configs, config.Settled) ?_ ?_
  · intro config member p gid owner
    rw [List.mem_singleton.1 member] at owner
    cases (blockOwner_empty p).symm.trans owner
  · intro sm sm' action old visits applied config member
    rcases apply_configs applied with same | ⟨op, last, new, changes, made, grown⟩
    · exact old config (same ▸ member)
    · rw [grown, List.mem_append, List.mem_singleton] at member
      rcases member with before | rfl
      · exact old config before
      · simp only [ranged, changes, Option.all_some, decide_eq_true_eq] at visits
        exact nextConfig_settled visits made

theorem visit_of_ranged (found : sm.configs.getLast? = some last)
    (command : action.2.command = some op) (change : op.optype ≠ .queryType)
    (new : sm.repeated op = false) (visits : sm.ranged action = true) :
    action.1.Visit op last := by
  have changes : sm.changes action.2 = some (op, last) := by
    simp [ShardMaster.changes, command, found, change, new]
  simpa [ranged, changes] using visits

/-- A command that is no repetition adds the configuration it makes. -/
theorem apply_new {config : Config} (found : sm.configs.getLast? = some last)
    (command : action.2.command = some op) (change : op.optype ≠ .queryType)
    (new : sm.repeated op = false) (made : nextConfig action.1 op last = some config) :
    ∃ sm', sm.apply action = some sm' ∧ sm'.configs = sm.configs ++ [config] := by
  refine ⟨{ sm with
    curCommitIndex := max sm.curCommitIndex action.2.commandIndex
    clientMaxRequestSeq := sm.clientMaxRequestSeq.insert op.clientID op.proposalID
    configs := sm.configs ++ [config] }, ?_, rfl⟩
  have new' : ({ sm with
      curCommitIndex := max sm.curCommitIndex action.2.commandIndex } : ShardMaster).repeated op =
        false := new
  simp only [apply, command, applyOp, if_neg change, new', found, made, Option.map_some,
    Bool.false_eq_true, if_false]

/-- A `Move` that is no repetition makes a configuration with the same groups. It gives its shard,
and no other, to the group exactly if `rebalance` leaves the shard alone or the group has the
shard already. -/
theorem move_hands_off_iff
    (run : Reaches apply (fun sm action => sm.ranged action = true) start sm)
    (found : sm.configs.getLast? = some last) (ranged : sm.ranged action = true)
    (command : action.2.command = some op) (move : op.optype = .moveType)
    (new : sm.repeated op = false) (shard : Fin nShards) (moved : op.shard = (shard : Nat)) :
    ∃ sm' config, sm.apply action = some sm' ∧ sm'.configs = sm.configs ++ [config] ∧
      config.groups = last.groups ∧
      ((config.shards.get shard = op.gid ∧ ∀ p ≠ shard, config.shards.get p = last.shards.get p) ↔
        (if last.groups.keys.card ≤ nShards
          then nShards / last.groups.keys.card * last.groups.keys.card ≤ (shard : Nat)
          else (shard : Nat) ≠ 0) ∨ last.shards.get shard = op.gid) := by
  have settled := settled_of_run run last (List.mem_of_getLast? found)
  have notQuery : op.optype ≠ .queryType := by simp [move]
  have visit := visit_of_ranged found command notQuery new ranged
  have inBounds : op.InBounds := by
    intro _
    have := shard.isLt
    omega
  obtain ⟨changed, config, changes, made, same, _, owners⟩ := nextConfig_owners visit inBounds
  obtain ⟨sm', applied, grown⟩ := apply_new found command notQuery new made
  have groups : config.groups = last.groups := by
    simp only [change, move] at changes
    split_ifs at changes
    obtain ⟨_, _, rfl⟩ := Option.map_eq_some_iff.1 changes
    exact same
  refine ⟨sm', config, applied, grown, groups, ?_⟩
  rw [← blockOwner_eq_none_iff]
  simp only [Op.gidsAfter, Op.ownerAfter, move, moved, Int.toNat_natCast] at owners
  constructor
  · rintro ⟨given, _⟩
    rw [owners] at given
    cases block : blockOwner last.groups.keys shard with
    | none => exact Or.inl rfl
    | some gid =>
        rw [block, Option.getD_some] at given
        exact Or.inr ((settled shard gid block).trans given)
  · intro condition
    refine ⟨?_, fun p other => ?_⟩
    · rw [owners]
      cases block : blockOwner last.groups.keys shard with
      | none => simp
      | some gid =>
          rw [Option.getD_some, ← settled shard gid block]
          exact condition.resolve_left (by simp [block])
    · rw [owners]
      cases block : blockOwner last.groups.keys p with
      | none => simp [Fin.val_ne_of_ne other.symm]
      | some gid => rw [Option.getD_some, settled p gid block]

/-- Client `7`, which has joined three groups, moves the shard that is left over. -/
def moveLast : Ranges × ApplyMsg Op Unit :=
  (⟨[6, 5, 4], [], [5, 4, 6]⟩,
    ⟨true, some { clientID := 7, proposalID := 2, optype := .moveType, shard := 9, gid := 6 }, 2,
      none⟩)

theorem move_hands_off_iff_moveLast :
    ∃ (sm sm' : ShardMaster) (last config : Config), sm.configs.getLast? = some last ∧
      sm.apply moveLast = some sm' ∧ sm'.configs = sm.configs ++ [config] ∧
      config.groups = last.groups ∧ config.shards[9] = 6 ∧
      ∀ p : Fin nShards, (p : Nat) ≠ 9 → config.shards.get p = last.shards.get p := by
  obtain ⟨sm, run, three, ranged, new⟩ : ∃ sm : ShardMaster,
      Reaches apply (fun sm action => sm.ranged action = true) start sm ∧
        sm.configs.getLast?.map (fun last => last.groups.keys.card) = some 3 ∧
        sm.ranged moveLast = true ∧ moveLast.2.command.map sm.repeated = some false :=
    exists_reaches [joinThree] (by decide +kernel)
  obtain ⟨last, found, card⟩ := Option.map_eq_some_iff.1 three
  obtain ⟨sm', config, applied, grown, groups, handsOff⟩ :=
    move_hands_off_iff run found ranged rfl rfl (Option.some.inj new) ⟨9, by decide⟩ rfl
  rw [card] at handsOff
  obtain ⟨given, others⟩ := handsOff.2 (Or.inl (by decide))
  exact ⟨sm, sm', last, config, found, applied, grown, groups, given,
    fun p other => others p (Fin.ne_of_val_ne other)⟩

/-- A second group joins after the first. -/
def joinSecond : Ranges × ApplyMsg Op Unit :=
  (⟨[4], [5], [5, 4]⟩,
    ⟨true, some
      { clientID := 7, proposalID := 2, optype := .joinType
        servers := GoMap.ofList [(5, ["b"])] }, 2, none⟩)

/-- Move a shard from the first group to the second. -/
def moveFirst : Ranges × ApplyMsg Op Unit :=
  (⟨[4, 5], [], [4, 5]⟩,
    ⟨true, some { clientID := 7, proposalID := 3, optype := .moveType, shard := 0, gid := 5 }, 3,
      none⟩)

/-- The `Move` is applied, and its shard stays where it was. -/
theorem move_undone :
    ∃ sm sm' : ShardMaster, Reaches apply (fun sm action => sm.ranged action = true) start sm ∧
      sm.ranged moveFirst = true ∧ sm.apply moveFirst = some sm' ∧
      moveFirst.2.command.map sm.repeated = some false ∧
      sm.configs.getLast?.map (fun last => decide (5 ∈ last.groups)) = some true ∧
      sm'.configs.length = sm.configs.length + 1 ∧
      sm'.configs.getLast?.map (fun config => config.shards[0]) = some 4 :=
  exists_step [joinFirst, joinSecond] moveFirst (by decide +kernel)

end ShardMaster

namespace ShardMaster

variable {sm sm' : ShardMaster} {action : Ranges × ApplyMsg Op Unit} {op : Op} {last : Config}

end ShardMaster

end Mit6824.Shards
