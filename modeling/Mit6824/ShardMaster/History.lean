import Mit6824.Runs
import Mit6824.ShardMaster.Server

/-!
# The history of configurations

Every command that is neither a `Query` nor a repetition adds one configuration to the list and
leaves the earlier ones alone. `Remembers` ties the state to the commands that led to it: what
`ClientMaxRequestSeq` calls a repetition is a command that does not exceed an earlier one of its
client. A command that comes again is always one, so it changes nothing that a later command
could read.
-/

namespace Mit6824.Shards

/-- The commands of the messages. -/
def commands (actions : List (Ranges × ApplyMsg Op Unit)) : List Op :=
  actions.filterMap fun action => action.2.command

theorem commands_append {actions : List (Ranges × ApplyMsg Op Unit)}
    {action : Ranges × ApplyMsg Op Unit} {op : Op} (command : action.2.command = some op) :
    commands (actions ++ [action]) = commands actions ++ [op] := by
  simp [commands, command]

/-- The command exceeds every earlier one of its client that is not a `Query`. -/
def Op.exceeds (op : Op) (earlier : List Op) : Bool :=
  earlier.all fun other =>
    other.optype = .queryType || other.clientID ≠ op.clientID || other.proposalID < op.proposalID

theorem Op.exceeds_iff {op : Op} {earlier : List Op} :
    op.exceeds earlier = true ↔ ∀ other ∈ earlier, other.optype ≠ .queryType →
      other.clientID = op.clientID → other.proposalID < op.proposalID := by
  simp only [exceeds, List.all_eq_true, Bool.or_eq_true, decide_eq_true_eq]
  refine forall₂_congr fun other _ => ?_
  tauto

theorem Op.exceeds_append (op : Op) (earlier : List Op) (new : Op) :
    op.exceeds (earlier ++ [new]) = (op.exceeds earlier && op.exceeds [new]) :=
  List.all_append

theorem Op.exceeds_singleton {op other : Op} (change : other.optype ≠ .queryType) :
    op.exceeds [other] = true ↔
      (other.clientID = op.clientID → other.proposalID < op.proposalID) := by
  simp [exceeds_iff, change]

section Config

variable {ranges : Ranges} {op : Op} {last config config' : Config}

theorem leaveGroups_num (gids : List Int) (config : Config) :
    (leaveGroups gids config).num = config.num := by
  unfold leaveGroups
  induction gids generalizing config with
  | nil => rfl
  | cons gid rest ih => rw [List.foldl_cons, ih]

theorem change_num (changed : change ranges op config = some config') :
    config'.num = config.num := by
  unfold change at changed
  split at changed
  · obtain rfl := Option.some.inj changed
    rfl
  · obtain rfl := Option.some.inj changed
    exact leaveGroups_num _ _
  · split at changed
    · cases changed
    · obtain ⟨_, _, rfl⟩ := Option.map_eq_some_iff.1 changed
      rfl
  · obtain rfl := Option.some.inj changed
    rfl

theorem rebalance_num {order : List Int} (balanced : rebalance order config = some config') :
    config'.num = config.num := by
  unfold rebalance at balanced
  dsimp only at balanced
  split at balanced
  · obtain rfl := Option.some.inj balanced
    rfl
  · obtain ⟨_, _, rfl⟩ := Option.map_eq_some_iff.1 balanced
    rfl

theorem nextConfig_num (made : nextConfig ranges op last = some config) :
    config.num = last.num + 1 := by
  unfold nextConfig at made
  dsimp only at made
  split at made
  · cases made
  · rename_i changed changes
    rw [rebalance_num made, change_num changes]

end Config

namespace ShardMaster

variable {sm sm' : ShardMaster} {action : Ranges × ApplyMsg Op Unit} {op : Op}

/-- The configuration a `Query` asks for: the one with the number, or the latest. -/
def asked (sm : ShardMaster) (op : Op) : Option Config :=
  if 0 ≤ op.num ∧ op.num < sm.configs.length then sm.configs[op.num.toNat]?
  else sm.configs.getLast?

/-- There is always a configuration to answer with. -/
theorem exists_asked (nonempty : sm.configs ≠ []) (op : Op) :
    ∃ config, sm.asked op = some config := by
  unfold asked
  split_ifs with inside
  · exact ⟨_, List.getElem?_eq_getElem (by omega)⟩
  · exact ⟨_, List.getLast?_eq_some_getLast nonempty⟩

/-- What a command does: it answers a `Query`, it is a repetition, or it adds a configuration. -/
theorem applyOp_cases {ranges : Ranges} (applied : sm.applyOp ranges op = some sm') :
    (op.optype = .queryType ∧ ∃ config, sm.asked op = some config ∧
        sm' = { sm with resultMap := sm.resultMap.insert op.commID config }) ∨
      (op.optype ≠ .queryType ∧ sm.repeated op = true ∧ sm' = sm) ∨
      (op.optype ≠ .queryType ∧ sm.repeated op = false ∧ ∃ last config,
        sm.configs.getLast? = some last ∧ nextConfig ranges op last = some config ∧
        sm' = { sm with
          clientMaxRequestSeq := sm.clientMaxRequestSeq.insert op.clientID op.proposalID
          configs := sm.configs ++ [config] }) := by
  simp only [applyOp] at applied
  split at applied
  · rename_i query
    obtain ⟨config, found, rfl⟩ := Option.map_eq_some_iff.1 applied
    exact Or.inl ⟨query, config, found, rfl⟩
  rename_i change
  split at applied
  · rename_i old
    exact Or.inr (Or.inl ⟨change, old, (Option.some.inj applied).symm⟩)
  rename_i new
  split at applied
  · cases applied
  · rename_i last found
    obtain ⟨config, made, rfl⟩ := Option.map_eq_some_iff.1 applied
    exact Or.inr (Or.inr ⟨change, Bool.not_eq_true _ ▸ new, last, config, found, made, rfl⟩)

/-- What a message does. -/
theorem apply_cases (applied : sm.apply action = some sm') :
    ∃ op, action.2.command = some op ∧
      ((op.optype = .queryType ∧ ∃ config, sm.asked op = some config ∧
          sm' = { sm with
            curCommitIndex := max sm.curCommitIndex action.2.commandIndex
            resultMap := sm.resultMap.insert op.commID config }) ∨
        (op.optype ≠ .queryType ∧ sm.repeated op = true ∧
          sm' = { sm with curCommitIndex := max sm.curCommitIndex action.2.commandIndex }) ∨
        (op.optype ≠ .queryType ∧ sm.repeated op = false ∧ ∃ last config,
          sm.configs.getLast? = some last ∧ nextConfig action.1 op last = some config ∧
          sm' = { sm with
            curCommitIndex := max sm.curCommitIndex action.2.commandIndex
            clientMaxRequestSeq := sm.clientMaxRequestSeq.insert op.clientID op.proposalID
            configs := sm.configs ++ [config] })) := by
  unfold apply at applied
  dsimp only at applied
  split at applied
  · cases applied
  · rename_i op command
    exact ⟨op, command, applyOp_cases applied⟩

/-- The state after the commands: the configurations are numbered, and a command is taken for a
repetition if it does not exceed the earlier ones of its client. -/
structure Remembers (sm : ShardMaster) (earlier : List Op) : Prop where
  nonempty : sm.configs ≠ []
  numbered : ∀ {i : Nat} {config : Config}, sm.configs[i]? = some config → config.num = i
  repeated : ∀ op, sm.repeated op = !op.exceeds earlier

theorem remembers_start : start.Remembers [] where
  nonempty := List.cons_ne_nil _ _
  numbered := by
    intro i config found
    cases i with
    | zero =>
        obtain rfl := Option.some.inj found
        rfl
    | succ i => simp [start] at found
  repeated op := rfl

theorem repeated_of_insert {client seq : Int}
    (inserted : sm'.clientMaxRequestSeq = sm.clientMaxRequestSeq.insert client seq) (op : Op) :
    sm'.repeated op =
      if op.clientID = client then decide (op.proposalID ≤ seq) else sm.repeated op := by
  by_cases same : op.clientID = client
  · subst same
    simp [ShardMaster.repeated, inserted]
  · simp [ShardMaster.repeated, inserted, same, Finmap.lookup_insert_of_ne]

namespace Remembers

variable {earlier : List Op}

/-- A number is added at the end of the list. -/
theorem num_append (remembers : sm.Remembers earlier) {last config : Config}
    (found : sm.configs.getLast? = some last) (next : config.num = last.num + 1) {i : Nat}
    {config' : Config} (at' : (sm.configs ++ [config])[i]? = some config') : config'.num = i := by
  rcases lt_trichotomy i sm.configs.length with inside | rfl | outside
  · rw [List.getElem?_append_left inside] at at'
    exact remembers.numbered at'
  · rw [List.getElem?_append_right le_rfl, Nat.sub_self] at at'
    obtain rfl := Option.some.inj at'
    have positive := List.length_pos_of_ne_nil remembers.nonempty
    rw [List.getLast?_eq_getElem?] at found
    rw [next, remembers.numbered found]
    omega
  · rw [List.getElem?_eq_none (by simp; omega)] at at'
    cases at'

/-- One more command. -/
theorem apply (remembers : sm.Remembers earlier) (command : action.2.command = some op)
    (applied : sm.apply action = some sm') : sm'.Remembers (earlier ++ [op]) := by
  obtain ⟨op', command', cases⟩ := apply_cases applied
  obtain rfl : op' = op := Option.some.inj (command'.symm.trans command)
  rcases cases with ⟨query, config, _, rfl⟩ | ⟨change, old, rfl⟩ |
    ⟨change, new, last, config, found, made, rfl⟩
  · refine ⟨remembers.nonempty, remembers.numbered, fun other => ?_⟩
    rw [Op.exceeds_append, show other.exceeds [op'] = true by simp [Op.exceeds, query],
      Bool.and_true]
    exact remembers.repeated other
  · refine ⟨remembers.nonempty, remembers.numbered, fun other => ?_⟩
    -- Whatever exceeds the commands before exceeds a repetition.
    have covered : other.exceeds earlier = true → other.exceeds [op'] = true := by
      intro exceeds
      rw [remembers.repeated, Bool.not_eq_true'] at old
      by_contra low
      rw [Op.exceeds_singleton change, Classical.not_imp, not_lt] at low
      refine absurd (Op.exceeds_iff.2 fun before member notQuery same => ?_)
        (Bool.not_eq_true _ ▸ old)
      have below := Op.exceeds_iff.1 exceeds before member notQuery (same.trans low.1)
      omega
    refine (remembers.repeated other).trans ?_
    rw [Op.exceeds_append]
    cases exceeds : other.exceeds earlier with
    | false => rfl
    | true => rw [covered exceeds, Bool.and_true]
  · refine ⟨by simp, remembers.num_append found (nextConfig_num made), fun other => ?_⟩
    have exceeds : op'.exceeds earlier = true := by
      rwa [remembers.repeated, Bool.not_eq_false'] at new
    rw [repeated_of_insert rfl, Op.exceeds_append, remembers.repeated other, Bool.eq_iff_iff,
      Bool.not_eq_true', Bool.and_eq_false_iff]
    split_ifs with same
    · rw [decide_eq_true_eq]
      constructor
      · intro low
        right
        rw [← Bool.not_eq_true, Op.exceeds_singleton change]
        exact fun above => absurd (above same.symm) (not_lt.2 low)
      · intro fails
        by_contra high
        have above : other.exceeds earlier = true := by
          refine Op.exceeds_iff.2 fun before member notQuery equal => ?_
          have := Op.exceeds_iff.1 exceeds before member notQuery (equal.trans same)
          omega
        have above' : other.exceeds [op'] = true :=
          (Op.exceeds_singleton change).2 fun _ => by omega
        simp [above, above'] at fails
    · have apart : other.exceeds [op'] = true :=
        (Op.exceeds_singleton change).2 fun equal => absurd equal.symm same
      simp [apart]

end Remembers

/-- The state after a run of messages. -/
theorem remembers_of_run {actions : List (Ranges × ApplyMsg Op Unit)}
    (ran : actions.foldlM ShardMaster.apply start = some sm) : sm.Remembers (commands actions) := by
  induction actions using List.reverseRecOn generalizing sm with
  | nil =>
      obtain rfl := Option.some.inj ran
      exact remembers_start
  | append_singleton actions action ih =>
      rw [List.foldlM_append] at ran
      obtain ⟨mid, before, last⟩ := Option.bind_eq_some_iff.1 ran
      have applied : mid.apply action = some sm := by simpa using last
      obtain ⟨op, command, _⟩ := apply_cases applied
      have remembers := (ih before).apply command applied
      rwa [commands_append command]

/-- Nothing that a later command reads differs. -/
def Alike (sm sm' : ShardMaster) : Prop :=
  sm.configs = sm'.configs ∧ sm.clientMaxRequestSeq = sm'.clientMaxRequestSeq

theorem Alike.applyOp (alike : sm.Alike sm') (ranges : Ranges) (op : Op) :
    Option.Rel Alike (sm.applyOp ranges op) (sm'.applyOp ranges op) := by
  obtain ⟨configs, marks⟩ := alike
  have repeated : sm.repeated op = sm'.repeated op := by
    rw [ShardMaster.repeated, marks, ShardMaster.repeated]
  unfold ShardMaster.applyOp
  rw [repeated, ← configs]
  split_ifs
  · unfold query
    rw [← configs]
    dsimp only
    generalize (if 0 ≤ op.num ∧ op.num < sm.configs.length then sm.configs[op.num.toNat]?
      else sm.configs.getLast?) = found
    cases found with
    | none => exact .none
    | some config => exact .some ⟨rfl, marks⟩
  · exact .some ⟨configs, marks⟩
  · cases sm.configs.getLast? with
    | none => exact .none
    | some last =>
        dsimp only
        cases nextConfig ranges op last with
        | none => exact .none
        | some config => exact .some ⟨rfl, by rw [marks]⟩

theorem Alike.apply (alike : sm.Alike sm') (action : Ranges × ApplyMsg Op Unit) :
    Option.Rel Alike (sm.apply action) (sm'.apply action) := by
  simp only [ShardMaster.apply]
  cases action.2.command with
  | none => exact .none
  | some op =>
      dsimp only
      refine Alike.applyOp ?_ action.1 op
      exact alike

/-- A command that comes again changes nothing that a later command reads. -/
theorem apply_again {earlier : List Op} (remembers : sm.Remembers earlier)
    (command : action.2.command = some op) (again : op ∈ earlier) :
    ∃ sm', sm.apply action = some sm' ∧ sm.Alike sm' := by
  by_cases query : op.optype = .queryType
  · obtain ⟨config, found⟩ := exists_asked remembers.nonempty op
    refine ⟨{ sm with
      curCommitIndex := max sm.curCommitIndex action.2.commandIndex
      resultMap := sm.resultMap.insert op.commID config }, ?_, rfl, rfl⟩
    simp only [ShardMaster.apply, command, applyOp, if_pos query, ShardMaster.query]
    unfold asked at found
    rw [found, Option.map_some]
  · have old : sm.repeated op = true := by
      rw [remembers.repeated, Bool.not_eq_true', ← Bool.not_eq_true, Op.exceeds_iff]
      exact fun exceeds => lt_irrefl _ (exceeds op again query rfl)
    refine ⟨{ sm with curCommitIndex := max sm.curCommitIndex action.2.commandIndex }, ?_,
      rfl, rfl⟩
    simp only [ShardMaster.apply, command, applyOp, if_neg query]
    exact if_pos old

/-- The configurations after a run in which a command comes again. -/
theorem configs_again {before : List (Ranges × ApplyMsg Op Unit)}
    (after : List (Ranges × ApplyMsg Op Unit)) (command : action.2.command = some op)
    (again : op ∈ commands before) :
    ((before ++ action :: after).foldlM ShardMaster.apply start).map configs =
      ((before ++ after).foldlM ShardMaster.apply start).map configs := by
  rw [List.foldlM_append, List.foldlM_append]
  cases ran : before.foldlM ShardMaster.apply start with
  | none => rfl
  | some mid =>
      obtain ⟨mid', applied, alike⟩ := apply_again (remembers_of_run ran) command again
      have related : Option.Rel Alike (after.foldlM ShardMaster.apply mid)
          (after.foldlM ShardMaster.apply mid') :=
        foldlM_rel alike fun _ _ action _ alike => alike.apply action
      simp only [Option.bind_eq_bind, Option.bind_some, List.foldlM_cons, applied]
      generalize after.foldlM ShardMaster.apply mid = end₁,
        after.foldlM ShardMaster.apply mid' = end₂ at related
      cases related with
      | none => rfl
      | some alike => exact congrArg some alike.1.symm

/-- For every run of messages that are accepted, in whatever order the maps are visited: the
configurations are numbered; one more message leaves them in place and adds one exactly if its
command is no `Query` and exceeds the earlier ones of its client; a `Query` stores the
configuration it asks for, or the latest; and a command that comes again anywhere later leaves
the configurations at the end as they are. -/
theorem configuration_history (actions : List (Ranges × ApplyMsg Op Unit)) (sm : ShardMaster)
    (ran : actions.foldlM ShardMaster.apply start = some sm) :
    (∀ (i : Nat) (config : Config), sm.configs[i]? = some config → config.num = i) ∧
      (∀ action sm', sm.apply action = some sm' → ∃ op, action.2.command = some op ∧
        sm.configs <+: sm'.configs ∧
        sm'.configs.length = sm.configs.length +
          (if op.optype ≠ .queryType ∧ op.exceeds (commands actions) = true then 1 else 0) ∧
        (op.optype = .queryType → sm'.resultMap.lookup op.commID =
          if 0 ≤ op.num ∧ op.num < sm.configs.length then sm.configs[op.num.toNat]?
          else sm.configs.getLast?)) ∧
      ∀ before after action op, actions = before ++ after → action.2.command = some op →
        op ∈ commands before →
        ∃ sm', (before ++ action :: after).foldlM ShardMaster.apply start = some sm' ∧
          sm'.configs = sm.configs := by
  have remembers := remembers_of_run ran
  refine ⟨fun _ _ => remembers.numbered, ?_, ?_⟩
  · intro action sm' applied
    obtain ⟨op, command, cases⟩ := apply_cases applied
    refine ⟨op, command, ?_⟩
    rcases cases with ⟨query, config, found, rfl⟩ | ⟨change, old, rfl⟩ |
      ⟨change, new, last, config, _, _, rfl⟩
    · refine ⟨List.prefix_rfl, by simp [query], fun _ => ?_⟩
      exact (Finmap.lookup_insert _).trans found.symm
    · rw [remembers.repeated, Bool.not_eq_true'] at old
      exact ⟨List.prefix_rfl, by simp [old], fun query => absurd query change⟩
    · rw [remembers.repeated, Bool.not_eq_false'] at new
      exact ⟨List.prefix_append _ _, by simp [new, change], fun query => absurd query change⟩
  · rintro before after action op rfl command again
    have same := configs_again after command again
    rw [ran, Option.map_some] at same
    exact Option.map_eq_some_iff.1 same

/-- A client joins, asks, and joins again. -/
def joinTwice : List (Ranges × ApplyMsg Op Unit) :=
  [(⟨[], [4], [4]⟩, ⟨true, some
      { clientID := 7, proposalID := 1, optype := .joinType
        servers := GoMap.ofList [(4, ["a"])] }, 1, none⟩),
    (⟨[], [], []⟩, ⟨true, some
      { clientID := 7, proposalID := 2, optype := .queryType, num := -1 }, 2, none⟩),
    (⟨[4], [5], [4, 5]⟩, ⟨true, some
      { clientID := 7, proposalID := 3, optype := .joinType
        servers := GoMap.ofList [(5, ["b"])] }, 3, none⟩)]

theorem configuration_history_joinTwice :
    ∃ sm, joinTwice.foldlM ShardMaster.apply start = some sm ∧ sm.configs.length = 3 ∧
      ∀ (i : Nat) (config : Config), sm.configs[i]? = some config → config.num = i := by
  have runs : ∃ sm, joinTwice.foldlM ShardMaster.apply start = some sm ∧ sm.configs.length = 3 := by
    have : ((joinTwice.foldlM ShardMaster.apply start).map fun sm => sm.configs.length) =
      some 3 := by decide +kernel
    exact Option.map_eq_some_iff.1 this
  obtain ⟨sm, ran, three⟩ := runs
  exact ⟨sm, ran, three, (configuration_history joinTwice sm ran).1⟩

end ShardMaster

end Mit6824.Shards
