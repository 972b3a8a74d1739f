import Mathlib.Data.List.Sort
import Mit6824.GoMap
import Mit6824.Raft.State

/-!
# The shard master

The state of a `ShardMaster` and what its `mainProcess` does with a message of the apply
channel. A `Join`, `Leave` or `Move` copies the last configuration, changes the copy,
hands it to `rebalance` and appends it.

The three loops that range over a map (the copy of `Groups`, the new groups of a `Join`, the
gids in `rebalance`) take the order in which they visit the keys from `Ranges`. `none` is the
panic for an index out of range or a message without a command.
-/

namespace Mit6824.Shards

/-- The number of shards. -/
def nShards : Nat := 10

structure Config where
  num : Int
  shards : Vector Int nShards
  groups : GoMap Int (List String)
  deriving DecidableEq

inductive OpType where
  | joinType
  | leaveType
  | moveType
  | queryType
  deriving DecidableEq, Repr

structure Op where
  clientID : Int
  proposalID : Int
  optype : OpType
  servers : GoMap Int (List String) := ∅
  gids : List Int := []
  shard : Int := 0
  gid : Int := 0
  num : Int := 0
  deriving DecidableEq

/-- The key of `resultMap`: `int64(ClientID)<<32 + int64(ProposalID)`. -/
def Op.commID (op : Op) : Int :=
  (op.clientID * 2 ^ 32 + op.proposalID).bmod (2 ^ 64)

/-- The orders in which the loops of one step visit the keys of their maps. -/
structure Ranges where
  copied : List Int
  joined : List Int
  balanced : List Int
  deriving DecidableEq, Repr

/-! ## rebalance -/

/-- `Shards[ind] = gid`. -/
def assign (shards : Vector Int nShards) (ind : Nat) (gid : Int) : Option (Vector Int nShards) :=
  if h : ind < nShards then some (shards.set ind gid h) else none

/-- The inner loop: `count` shards from `shardInd` on go to one group. -/
def fillGroup (gid : Int) : Nat → Vector Int nShards → Nat → Option (Vector Int nShards × Nat)
  | 0, shards, shardInd => some (shards, shardInd)
  | count + 1, shards, shardInd =>
      match assign shards shardInd gid with
      | none => none
      | some shards' => fillGroup gid count shards' (shardInd + 1)

/-- The loop over the groups. A shard of the remainder is assigned at `shardInd`, which does not
move on. -/
def fillGroups (shardPerGroup : Nat) :
    List Int → Vector Int nShards → Nat → Nat → Option (Vector Int nShards)
  | [], shards, _, _ => some shards
  | gid :: rest, shards, shardInd, remainShards =>
      match fillGroup gid shardPerGroup shards shardInd with
      | none => none
      | some (shards', shardInd') =>
          if 0 < remainShards then
            match assign shards' shardInd' gid with
            | none => none
            | some shards'' => fillGroups shardPerGroup rest shards'' shardInd' (remainShards - 1)
          else fillGroups shardPerGroup rest shards' shardInd' remainShards

/-- Share the shards out among the groups, in the order of their gids. -/
def rebalance (order : List Int) (config : Config) : Option Config :=
  let groupCount := config.groups.keys.card
  if groupCount = 0 then some config
  else
    let shardPerGroup := nShards / groupCount
    let remainShards := nShards - shardPerGroup * groupCount
    (fillGroups shardPerGroup (order.insertionSort (· ≤ ·)) config.shards 0 remainShards).map
      fun shards => { config with shards := shards }

/-! ## The configuration changes -/

/-- The copy of `Groups`. -/
def copyGroups (order : List Int) (groups : GoMap Int (List String)) : GoMap Int (List String) :=
  order.foldl
    (fun copy key => match groups.lookup key with
      | some val => copy.insert key val
      | none => copy) ∅

/-- The servers of a group that is there already are added to it. -/
def joinGroups (order : List Int) (servers groups : GoMap Int (List String)) :
    GoMap Int (List String) :=
  order.foldl
    (fun groups key => match servers.lookup key with
      | some val =>
          match groups.lookup key with
          | none => groups.insert key val
          | some old => groups.insert key (old ++ val)
      | none => groups) groups

/-- Remove the groups one after the other and mark their shards with `-1`. -/
def leaveGroups (gids : List Int) (config : Config) : Config :=
  gids.foldl
    (fun config key =>
      { config with
        groups := config.groups.erase key
        shards := config.shards.map fun owner => if key = owner then -1 else owner }) config

/-- The `switch` on the type of the command. -/
def change (ranges : Ranges) (op : Op) (config : Config) : Option Config :=
  match op.optype with
  | .joinType =>
      some { config with groups := joinGroups ranges.joined op.servers config.groups }
  | .leaveType => some (leaveGroups op.gids config)
  | .moveType =>
      if op.shard < 0 then none
      else (assign config.shards op.shard.toNat op.gid).map fun shards =>
        { config with shards := shards }
  | .queryType => some config

/-- The configuration a command makes of the last one. -/
def nextConfig (ranges : Ranges) (op : Op) (last : Config) : Option Config :=
  let newConfig : Config :=
    { num := last.num + 1, shards := last.shards
      groups := copyGroups ranges.copied last.groups }
  match change ranges op newConfig with
  | none => none
  | some config => rebalance ranges.balanced config

section Changes

variable {order : List Int} {groups servers : GoMap Int (List String)} {config config' : Config}

theorem lookup_copyGroups (order : List Int) (groups copy : GoMap Int (List String)) (key : Int) :
    (order.foldl (fun copy key => match groups.lookup key with
      | some val => copy.insert key val
      | none => copy) copy).lookup key =
      if key ∈ order ∧ key ∈ groups then groups.lookup key else copy.lookup key := by
  induction order generalizing copy with
  | nil => simp
  | cons head rest ih =>
      rw [List.foldl_cons, ih]
      by_cases later : key ∈ rest ∧ key ∈ groups
      · simp [later.1, later.2]
      · rw [if_neg later]
        cases found : groups.lookup head with
        | none =>
            have absent : ¬head ∈ groups := Finmap.lookup_eq_none.1 found
            have skipped : ¬(key ∈ head :: rest ∧ key ∈ groups) := by
              rintro ⟨member, present⟩
              rcases List.mem_cons.1 member with rfl | member
              · exact absent present
              · exact later ⟨member, present⟩
            rw [if_neg skipped]
        | some val =>
            by_cases here : key = head
            · subst here
              have present : key ∈ groups := Finmap.mem_of_lookup_eq_some found
              simp [present, found]
            · have skipped : ¬(key ∈ head :: rest ∧ key ∈ groups) := by
                rintro ⟨member, present⟩
                exact later ⟨(List.mem_cons.1 member).resolve_left here, present⟩
              rw [if_neg skipped]
              exact Finmap.lookup_insert_of_ne _ here

/-- The copy is the map that is copied, in whatever order it is read. -/
theorem copyGroups_eq (visits : GoMap.Visits order groups) : copyGroups order groups = groups := by
  refine Finmap.ext_lookup fun key => ?_
  rw [copyGroups, lookup_copyGroups]
  by_cases present : key ∈ groups
  · rw [if_pos ⟨visits.mem_iff.2 present, present⟩]
  · rw [if_neg fun both => present both.2, Finmap.lookup_empty, Finmap.lookup_eq_none.2 present]

theorem mem_joinGroups (order : List Int) (servers groups : GoMap Int (List String)) (key : Int) :
    key ∈ joinGroups order servers groups ↔ key ∈ groups ∨ key ∈ order ∧ key ∈ servers := by
  unfold joinGroups
  induction order generalizing groups with
  | nil => simp
  | cons head rest ih =>
      rw [List.foldl_cons, ih]
      cases found : servers.lookup head with
      | none =>
          have absent : ¬head ∈ servers := Finmap.lookup_eq_none.1 found
          refine or_congr Iff.rfl ⟨fun old => ⟨List.mem_cons_of_mem _ old.1, old.2⟩, ?_⟩
          rintro ⟨member, present⟩
          refine ⟨(List.mem_cons.1 member).resolve_left ?_, present⟩
          rintro rfl
          exact absent present
      | some val =>
          have present : head ∈ servers := Finmap.mem_of_lookup_eq_some found
          have added : key ∈ (match groups.lookup head with
              | none => groups.insert head val
              | some old => groups.insert head (old ++ val)) ↔ key = head ∨ key ∈ groups := by
            cases groups.lookup head <;> exact Finmap.mem_insert
          dsimp only
          rw [added, List.mem_cons]
          by_cases here : key = head
          · simp [here, present]
          · simp [here]

theorem leaveGroups_groups (gids : List Int) (config : Config) (key : Int) :
    key ∈ (leaveGroups gids config).groups ↔ key ∈ config.groups ∧ key ∉ gids := by
  unfold leaveGroups
  induction gids generalizing config with
  | nil => simp
  | cons head rest ih =>
      rw [List.foldl_cons, ih]
      dsimp only
      rw [Finmap.mem_erase, List.mem_cons]
      tauto

theorem leaveGroups_shards (gids : List Int) (config : Config) :
    (leaveGroups gids config).shards =
      config.shards.map fun owner => if owner ∈ gids then -1 else owner := by
  unfold leaveGroups
  induction gids generalizing config with
  | nil => simp
  | cons head rest ih =>
      rw [List.foldl_cons, ih]
      dsimp only
      rw [Vector.map_map]
      congr 1
      funext owner
      by_cases here : head = owner
      · simp [here]
      · simp [here, Ne.symm here]

end Changes

/-! ## mainProcess -/

structure ShardMaster where
  curCommitIndex : Int
  configs : List Config
  clientMaxRequestSeq : GoMap Int Int
  resultMap : GoMap Int Config
  deriving DecidableEq

namespace ShardMaster

/-- A shard master right after `StartServer`. -/
def start : ShardMaster :=
  { curCommitIndex := 0
    configs := [{ num := 0, shards := Vector.replicate nShards 0, groups := ∅ }]
    clientMaxRequestSeq := ∅, resultMap := ∅ }

/-- The command was applied before, or a later one of its client. -/
def repeated (sm : ShardMaster) (op : Op) : Bool :=
  (sm.clientMaxRequestSeq.lookup op.clientID).any (op.proposalID ≤ ·)

/-- What a `Query` stores. -/
def query (sm : ShardMaster) (op : Op) : Option ShardMaster :=
  let found :=
    if 0 ≤ op.num ∧ op.num < sm.configs.length then sm.configs[op.num.toNat]?
    else sm.configs.getLast?
  found.map fun config => { sm with resultMap := sm.resultMap.insert op.commID config }

/-- The locked section of `mainProcess`. -/
def applyOp (ranges : Ranges) (sm : ShardMaster) (op : Op) : Option ShardMaster :=
  if op.optype = .queryType then sm.query op
  else if sm.repeated op then some sm
  else
    match sm.configs.getLast? with
    | none => none
    | some last =>
        (nextConfig ranges op last).map fun config =>
          { sm with
            clientMaxRequestSeq := sm.clientMaxRequestSeq.insert op.clientID op.proposalID
            configs := sm.configs ++ [config] }

/-- The command and the configuration of which a message makes a new one. -/
def changes (sm : ShardMaster) (message : ApplyMsg Op Unit) : Option (Op × Config) :=
  match message.command, sm.configs.getLast? with
  | some op, some last =>
      if op.optype = .queryType ∨ sm.repeated op = true then none else some (op, last)
  | _, _ => none

/-- One message of the apply channel. -/
def apply (sm : ShardMaster) (action : Ranges × ApplyMsg Op Unit) : Option ShardMaster :=
  let message := action.2
  match message.command with
  | none => none
  | some op =>
      { sm with curCommitIndex := max sm.curCommitIndex message.commandIndex }.applyOp action.1 op

/-- A message leaves the configurations alone or appends one. -/
theorem apply_configs {sm sm' : ShardMaster} {action : Ranges × ApplyMsg Op Unit}
    (applied : sm.apply action = some sm') :
    sm'.configs = sm.configs ∨
      ∃ op last config, sm.changes action.2 = some (op, last) ∧
        nextConfig action.1 op last = some config ∧ sm'.configs = sm.configs ++ [config] := by
  obtain ⟨ranges, message⟩ := action
  unfold apply at applied
  dsimp only at applied
  cases command : message.command with
  | none => simp [command] at applied
  | some op =>
      simp only [command, applyOp] at applied
      split at applied
      · obtain ⟨_, _, rfl⟩ := Option.map_eq_some_iff.1 applied
        exact Or.inl rfl
      · rename_i notQuery
        split at applied
        · cases applied
          exact Or.inl rfl
        · rename_i new
          split at applied
          · cases applied
          · rename_i last found
            obtain ⟨config, made, rfl⟩ := Option.map_eq_some_iff.1 applied
            refine Or.inr ⟨op, last, config, ?_, made, rfl⟩
            have fresh : ¬(op.optype = .queryType ∨ sm.repeated op = true) := by
              rintro (query | old)
              · exact notQuery query
              · exact new old
            simp only [changes, command, found, if_neg fresh]

end ShardMaster

end Mit6824.Shards
