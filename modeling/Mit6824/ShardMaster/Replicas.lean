import Mit6824.ShardMaster.Assignment

/-!
# Replicas of the shard master

Every replica applies the same commands, but each of its loops over a map visits the keys in an
order of its own. A loop does to a key what does not depend on the other keys, and `rebalance`
sorts the gids, so the order leaves no trace: after the same commands all replicas have the same
configurations and the same results (`ShardMaster.replicas_agree`), or all of them have failed.

They fail on nothing but a `Move` of a shard that there is not, unless the command is a
repetition (`ShardMaster.apply_succeeds_iff`). The handler passes such a shard on as it comes.
-/

namespace Mit6824.Shards

/-! ## The order of the keys -/

section Order

variable {order order' : List Int} {servers groups : GoMap Int (List String)}

/-- The servers of a group after a `Join`. -/
def joinedServers (servers groups : GoMap Int (List String)) (key : Int) : Option (List String) :=
  match servers.lookup key with
  | none => groups.lookup key
  | some val => some ((groups.lookup key).getD [] ++ val)

theorem joinGroups_cons (head : Int) (rest : List Int) (servers groups : GoMap Int (List String)) :
    joinGroups (head :: rest) servers groups =
      joinGroups rest servers (joinGroups [head] servers groups) :=
  rfl

theorem lookup_joinGroups_singleton (head key : Int) (servers groups : GoMap Int (List String)) :
    (joinGroups [head] servers groups).lookup key =
      if key = head then joinedServers servers groups key else groups.lookup key := by
  simp only [joinGroups, List.foldl_cons, List.foldl_nil]
  by_cases here : key = head
  · subst here
    rw [if_pos rfl, joinedServers]
    cases servers.lookup key with
    | none => rfl
    | some val => cases groups.lookup key <;> simp
  · rw [if_neg here]
    cases servers.lookup head with
    | none => rfl
    | some val => cases groups.lookup head <;> exact Finmap.lookup_insert_of_ne _ here

/-- A `Join` does to a group what does not depend on the other groups. -/
theorem lookup_joinGroups (distinct : order.Nodup) (key : Int) :
    (joinGroups order servers groups).lookup key =
      if key ∈ order then joinedServers servers groups key else groups.lookup key := by
  induction order generalizing groups with
  | nil => rfl
  | cons head rest ih =>
      obtain ⟨once, distinct⟩ := List.nodup_cons.1 distinct
      have first := lookup_joinGroups_singleton head key servers groups
      rw [joinGroups_cons, ih distinct]
      by_cases later : key ∈ rest
      · have apart : key ≠ head := fun here => once (here ▸ later)
        rw [if_neg apart] at first
        rw [if_pos later, if_pos (List.mem_cons_of_mem _ later), joinedServers, first]
        rfl
      · rw [if_neg later, first]
        simp only [List.mem_cons, later, or_false]

theorem joinGroups_eq (visits : GoMap.Visits order servers)
    (visits' : GoMap.Visits order' servers) :
    joinGroups order servers groups = joinGroups order' servers groups := by
  refine Finmap.ext_lookup fun key => ?_
  rw [lookup_joinGroups visits.1, lookup_joinGroups visits'.1]
  simp only [visits.mem_iff, visits'.mem_iff]

theorem rebalance_eq {config : Config} (visits : GoMap.Visits order config.groups)
    (visits' : GoMap.Visits order' config.groups) :
    rebalance order config = rebalance order' config := by
  unfold rebalance
  rw [Grouping.insertionSort_of_visits visits, Grouping.insertionSort_of_visits visits']

/-- The new configuration does not depend on the orders in which the loops visit their maps. -/
theorem nextConfig_eq {ranges ranges' : Ranges} {op : Op} {last : Config}
    (visit : ranges.Visit op last) (visit' : ranges'.Visit op last) :
    nextConfig ranges op last = nextConfig ranges' op last := by
  obtain ⟨copied, joined, distinct, visited⟩ := visit
  obtain ⟨copied', joined', distinct', visited'⟩ := visit'
  have same : change ranges op { last with num := last.num + 1 } =
      change ranges' op { last with num := last.num + 1 } := by
    unfold change
    rw [joinGroups_eq joined joined']
  simp only [nextConfig, copyGroups_eq copied, copyGroups_eq copied', same]
  split
  · rfl
  · rename_i changed changes
    have keys := (change_spec joined' changes).1
    exact rebalance_eq ⟨distinct, visited.trans keys.symm⟩ ⟨distinct', visited'.trans keys.symm⟩

end Order

namespace ShardMaster

variable {sm sm' : ShardMaster} {action action' : Ranges × ApplyMsg Op Unit} {op : Op}

/-- In a run over the messages every loop visits the keys of its map, as long as nothing fails. -/
def rangedRun (sm : ShardMaster) : List (Ranges × ApplyMsg Op Unit) → Bool
  | [] => true
  | action :: rest => sm.ranged action && (sm.apply action).all fun sm' => sm'.rangedRun rest

theorem rangedRun_cons {rest : List (Ranges × ApplyMsg Op Unit)} :
    sm.rangedRun (action :: rest) = true ↔
      sm.ranged action = true ∧ ∀ sm', sm.apply action = some sm' → sm'.rangedRun rest = true := by
  rw [rangedRun, Bool.and_eq_true, Option.all_eq_true]

/-- What the commands have made of a shard master. -/
def replica (sm : ShardMaster) : List Config × GoMap Int Int × GoMap Int Config :=
  (sm.configs, sm.clientMaxRequestSeq, sm.resultMap)

/-- One command, on two replicas that have come to the same. -/
theorem apply_replica (same : sm.replica = sm'.replica)
    (command : action.2.command = action'.2.command) (visits : sm.ranged action = true)
    (visits' : sm'.ranged action' = true) :
    (sm.apply action).map replica = (sm'.apply action').map replica := by
  obtain ⟨index, configs, marks, results⟩ := sm
  obtain ⟨index', configs', marks', results'⟩ := sm'
  simp only [replica, Prod.mk.injEq] at same
  obtain ⟨rfl, rfl, rfl⟩ := same
  simp only [apply, ← command]
  cases next : action.2.command with
  | none => rfl
  | some op =>
      by_cases isQuery : op.optype = .queryType
      · simp only [applyOp, if_pos isQuery, query, Option.map_map]
        rfl
      by_cases old : repeated ⟨index, configs, marks, results⟩ op = true
      · have old' : ∀ i, repeated ⟨i, configs, marks, results⟩ op = true := fun _ => old
        simp only [applyOp, if_neg isQuery, old', if_true, Option.map_some]
        rfl
      · have new : ∀ i, repeated ⟨i, configs, marks, results⟩ op = false :=
          fun _ => Bool.not_eq_true _ ▸ old
        simp only [applyOp, if_neg isQuery, new, Bool.false_eq_true, if_false]
        cases found : configs.getLast? with
        | none => rfl
        | some last =>
            have made := nextConfig_eq (visit_of_ranged found next isQuery (new _) visits)
              (visit_of_ranged found (command ▸ next) isQuery (new _) visits')
            simp only [made, Option.map_map]
            rfl

/-- The commands of the messages on two replicas. -/
theorem foldlM_replica {run run' : List (Ranges × ApplyMsg Op Unit)}
    (commands : run.map (fun action => action.2.command) =
      run'.map (fun action => action.2.command))
    (same : sm.replica = sm'.replica) (visits : sm.rangedRun run = true)
    (visits' : sm'.rangedRun run' = true) :
    (run.foldlM apply sm).map replica = (run'.foldlM apply sm').map replica := by
  induction run generalizing sm sm' run' with
  | nil =>
      obtain rfl : run' = [] := by simpa using commands.symm
      exact congrArg some same
  | cons action rest ih =>
      cases run' with
      | nil => simp at commands
      | cons action' rest' =>
          obtain ⟨command, commands⟩ := List.cons.inj commands
          obtain ⟨first, later⟩ := rangedRun_cons.1 visits
          obtain ⟨first', later'⟩ := rangedRun_cons.1 visits'
          have next := apply_replica same command first first'
          rw [List.foldlM_cons, List.foldlM_cons]
          cases applied : sm.apply action with
          | none =>
              rw [applied, Option.map_none, eq_comm, Option.map_eq_none_iff] at next
              rw [next]
              rfl
          | some mid =>
              rw [applied, Option.map_some, eq_comm, Option.map_eq_some_iff] at next
              obtain ⟨mid', applied', same⟩ := next
              rw [applied']
              exact ih commands same.symm (later mid applied) (later' mid' applied')

/-- Two runs over the same commands, whose loops visit the maps in whatever orders, produce the same
configurations and the same results, or both fail. -/
theorem replicas_agree (run run' : List (Ranges × ApplyMsg Op Unit))
    (commands : run.map (fun action => action.2.command) =
      run'.map (fun action => action.2.command))
    (visits : start.rangedRun run = true) (visits' : start.rangedRun run' = true) :
    (run.foldlM apply start).map (fun sm => (sm.configs, sm.clientMaxRequestSeq, sm.resultMap)) =
      (run'.foldlM apply start).map
        (fun sm => (sm.configs, sm.clientMaxRequestSeq, sm.resultMap)) :=
  foldlM_replica commands rfl visits visits'

/-- `joinThree`, with its loops in other orders. -/
def joinThreeReordered : Ranges × ApplyMsg Op Unit :=
  (⟨[], [6, 4, 5], [5, 6, 4]⟩, joinThree.2)

theorem replicas_agree_joinThree :
    joinThree.1 ≠ joinThreeReordered.1 ∧ ([joinThree].foldlM apply start).isSome = true ∧
      ([joinThree].foldlM apply start).map
          (fun sm => (sm.configs, sm.clientMaxRequestSeq, sm.resultMap)) =
        ([joinThreeReordered].foldlM apply start).map
          (fun sm => (sm.configs, sm.clientMaxRequestSeq, sm.resultMap)) :=
  ⟨by decide, by decide +kernel,
    replicas_agree [joinThree] [joinThreeReordered] rfl (by decide +kernel) (by decide +kernel)⟩

/-! ## What fails -/

/-- One message fails only on a `Move` that is out of bounds and no repetition. -/
theorem apply_isSome_iff {earlier : List Op} (remembers : sm.Remembers earlier)
    (command : action.2.command = some op) (visits : sm.ranged action = true) :
    (sm.apply action).isSome = true ↔ (op.exceeds earlier = true → op.InBounds) := by
  by_cases isQuery : op.optype = .queryType
  · obtain ⟨config, found⟩ := exists_asked remembers.nonempty op
    unfold asked at found
    simp [apply, command, applyOp, isQuery, query, found, Op.InBounds]
  have mark := remembers.repeated op
  cases exceeds : op.exceeds earlier with
  | false =>
      have old : ({ sm with
          curCommitIndex := max sm.curCommitIndex action.2.commandIndex } : ShardMaster).repeated
            op = true := by
        rw [exceeds] at mark
        exact mark
      simp [apply, command, applyOp, isQuery, old]
  | true =>
      rw [exceeds, Bool.not_true] at mark
      have new : ({ sm with
          curCommitIndex := max sm.curCommitIndex action.2.commandIndex } : ShardMaster).repeated
            op = false := mark
      have found := List.getLast?_eq_some_getLast remembers.nonempty
      have visit := visit_of_ranged found command isQuery mark visits
      simp [apply, command, applyOp, isQuery, new, found, nextConfig_isSome_iff visit]

/-- The places in a list with an element in front. -/
theorem forall_split_cons {α : Type} {P : List α → α → Prop} {a : α} {l : List α} :
    (∀ before x after, a :: l = before ++ x :: after → P before x) ↔
      P [] a ∧ ∀ before x after, l = before ++ x :: after → P (a :: before) x := by
  constructor
  · intro all
    exact ⟨all [] a l rfl, fun before x after split => all (a :: before) x after (by simp [split])⟩
  · rintro ⟨first, later⟩ before x after split
    cases before with
    | nil =>
        obtain ⟨rfl, rfl⟩ := List.cons.inj split
        exact first
    | cons b before =>
        obtain ⟨rfl, tail⟩ := List.cons.inj split
        exact later before x after tail

/-- The messages, from a state that has seen the commands before. -/
theorem foldlM_isSome_iff {earlier : List Op} {actions : List (Ranges × ApplyMsg Op Unit)}
    (remembers : sm.Remembers earlier) (visits : sm.rangedRun actions = true)
    (given : ∀ action ∈ actions, action.2.command.isSome = true) :
    (actions.foldlM apply sm).isSome = true ↔
      ∀ before op after, commands actions = before ++ op :: after →
        op.exceeds (earlier ++ before) = true → op.InBounds := by
  induction actions generalizing sm earlier with
  | nil => simp [commands]
  | cons action rest ih =>
      obtain ⟨first, later⟩ := rangedRun_cons.1 visits
      obtain ⟨op, command⟩ := Option.isSome_iff_exists.1 (given action List.mem_cons_self)
      have split : commands (action :: rest) = op :: commands rest := by
        simp [commands, command]
      have step := apply_isSome_iff remembers command first
      rw [List.foldlM_cons, split, forall_split_cons, List.append_nil, ← step]
      cases applied : sm.apply action with
      | none => simp
      | some mid =>
          have others := ih (remembers.apply command applied) (later mid applied)
            fun action member => given action (List.mem_cons_of_mem _ member)
          simp only [List.append_assoc, List.singleton_append] at others
          simp only [Option.isSome_some, true_and]
          exact others

/-- Applying a sequence of commands, in whatever orders the loops visit the maps, fails nowhere
exactly if every `Move` in it that is no repetition is of a shard that there is. -/
theorem apply_succeeds_iff (actions : List (Ranges × ApplyMsg Op Unit))
    (visits : start.rangedRun actions = true)
    (given : ∀ action ∈ actions, action.2.command.isSome = true) :
    (actions.foldlM apply start).isSome = true ↔
      ∀ (before : List Op) (op : Op) (after : List Op),
        commands actions = before ++ op :: after → op.exceeds before = true →
          op.optype = .moveType → 0 ≤ op.shard ∧ op.shard < nShards := by
  rw [foldlM_isSome_iff remembers_start visits given]
  simp only [List.nil_append, Op.InBounds]

theorem apply_succeeds_iff_moveLast :
    ([joinThree, moveLast].foldlM apply start).isSome = true := by
  have inBounds : ∀ op ∈ commands [joinThree, moveLast], 0 ≤ op.shard ∧ op.shard < nShards := by
    decide
  refine (apply_succeeds_iff [joinThree, moveLast] (by decide +kernel) (by decide)).2 ?_
  intro before op after split _ _
  exact inBounds op (split ▸ by simp)

/-- Client `7` moves a shard that there is not. -/
def moveBeyond : Ranges × ApplyMsg Op Unit :=
  (⟨[4], [], [4]⟩,
    ⟨true, some { clientID := 7, proposalID := 2, optype := .moveType, shard := 10, gid := 4 }, 2,
      none⟩)

theorem move_beyond_fails :
    start.rangedRun [joinFirst, moveBeyond] = true ∧
      ([joinFirst, moveBeyond].foldlM apply start).isSome = false := by
  decide +kernel

end ShardMaster

end Mit6824.Shards
