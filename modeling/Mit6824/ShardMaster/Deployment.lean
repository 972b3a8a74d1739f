import Mathlib.Data.Finset.Sort
import Mit6824.Numbered
import Mit6824.ShardMaster.Replicas
import Mit6824.ShardMaster.Service

/-!
# Shard masters on a cluster

All shard masters of a cluster build their configurations from one sequence of commands, in whatever
orders their loops visit the maps. `configurations` is the object they are replicas of: a list of
configurations, to which a `Join`, `Leave` or `Move` that is new appends one and which a `Query`
reads. `Node.Follows` says what a server has made of the sequence: `mainProcess` applies what it has
taken in a step of its own, so a server may be one command behind.

So there is one history of configurations, and each server has a first part of it (`one_history`).
-/

namespace Mit6824.Shards

/-- Keys in increasing order. -/
def ascending {κ : Type} [LinearOrder κ] (keys : Finset κ) : List κ := keys.sort (· ≤ ·)

theorem ascending_spec {κ : Type} [LinearOrder κ] (keys : Finset κ) :
    (ascending keys).Nodup ∧ (ascending keys).toFinset = keys :=
  ⟨Finset.sort_nodup .., Finset.sort_toFinset ..⟩

/-- The loops visit the keys of their maps in increasing order. -/
def Ranges.sorted (op : Op) (last : Config) : Ranges :=
  { copied := ascending last.groups.keys
    joined := ascending op.servers.keys
    balanced := ascending (op.gidsAfter last.groups) }

theorem Ranges.visit_sorted (op : Op) (last : Config) : (Ranges.sorted op last).Visit op last :=
  ⟨ascending_spec _, ascending_spec _, ascending_spec _⟩

/-- The configurations with the one that a command adds. A `Move` of a shard that there is not, at
which a shard master fails, adds none. -/
def Op.execute (op : Op) (configs : List Config) : List Config :=
  configs ++ (configs.getLast?.bind fun last =>
    nextConfig (Ranges.sorted op last) op last).toList

/-- The list of configurations that shard masters are for. -/
def configurations : Numbered Op (Option Config) (List Config) where
  client := Op.clientID
  number := Op.proposalID
  isWrite op := op.optype != .queryType
  start := ShardMaster.start.configs
  execute := Op.execute
  answer op configs := ShardMaster.asked { ShardMaster.start with configs } op

variable {n : Nat} {ops : List Op} {op : Op} {p q : Nat}

theorem isWrite_iff : configurations.isWrite op = true ↔ op.optype ≠ .queryType := by
  simp [configurations]

theorem isNew_eq_exceeds (earlier : List Op) (op : Op) :
    configurations.isNew earlier op = op.exceeds earlier := by
  rw [Bool.eq_iff_iff, Numbered.isNew_iff, Op.exceeds_iff]
  refine forall₂_congr fun other _ => ?_
  rw [isWrite_iff]
  rfl

/-! ## What a server makes of the commands -/

/-- A command of the sequence, obeyed by a server that has obeyed those before. -/
theorem ShardMaster.configs_applyOp {sm sm' : ShardMaster} {ranges : Ranges} {index : Int}
    (configs : sm.configs = configurations.stage ops q) (remembers : sm.Remembers (ops.take q))
    (found : ops[q]? = some op)
    (visits : sm.ranged (ranges, ⟨true, some op, index, none⟩) = true)
    (applied : sm.applyOp ranges op = some sm') :
    sm'.configs = configurations.stage ops (q + 1) := by
  have executes : ∀ other, configurations.Executes ops q other →
      op.optype ≠ .queryType ∧ sm.repeated op = false := by
    intro other executes
    obtain rfl := Option.some.inj (found.symm.trans executes.found)
    refine ⟨isWrite_iff.1 executes.write, ?_⟩
    rw [remembers.repeated, ← isNew_eq_exceeds, executes.new]
    rfl
  rcases applyOp_cases applied with ⟨query, config, _, rfl⟩ | ⟨change, old, rfl⟩ |
    ⟨change, new, last, config, latest, made, rfl⟩
  · have idle : ∀ other, ¬configurations.Executes ops q other :=
      fun other taken => (executes other taken).1 query
    rw [Numbered.stage_of_not_executes idle]
    exact configs
  · have idle : ∀ other, ¬configurations.Executes ops q other := by
      intro other taken
      rw [(executes other taken).2] at old
      cases old
    rw [Numbered.stage_of_not_executes idle]
    exact configs
  · have taken : configurations.Executes ops q op := by
      refine ⟨found, isWrite_iff.2 change, ?_⟩
      rw [isNew_eq_exceeds]
      rwa [remembers.repeated, Bool.not_eq_false'] at new
    have visit := visit_of_ranged latest rfl change new visits
    rw [nextConfig_eq visit (Ranges.visit_sorted op last)] at made
    rw [taken.stage_succ, ← configs]
    simp [configurations, Op.execute, latest, made]

theorem ShardMaster.Remembers.applyOp {sm sm' : ShardMaster} {ranges : Ranges} {earlier : List Op}
    (remembers : sm.Remembers earlier) (applied : sm.applyOp ranges op = some sm') :
    sm'.Remembers (earlier ++ [op]) := by
  have message : sm.apply (ranges, ⟨true, some op, sm.curCommitIndex, none⟩) = some sm' := by
    simp only [ShardMaster.apply, max_self]
    exact applied
  exact remembers.apply rfl message

/-- Only the configurations and the recorded numbers matter. -/
theorem ShardMaster.Remembers.congr {sm sm' : ShardMaster} {earlier : List Op}
    (remembers : sm.Remembers earlier) (configs : sm'.configs = sm.configs)
    (marks : sm'.clientMaxRequestSeq = sm.clientMaxRequestSeq) : sm'.Remembers earlier where
  nonempty := by
    rw [configs]
    exact remembers.nonempty
  numbered := by
    rw [configs]
    exact remembers.numbered
  repeated op := by
    rw [ShardMaster.repeated, marks]
    exact remembers.repeated op

/-- A server that has taken the first `p` commands and obeyed the first `q`. -/
structure Node.Follows (ops : List Op) (node : Node n) (p q : Nat) : Prop where
  within : p ≤ ops.length
  reached : node.sm.curCommitIndex ≤ p
  behind : q + node.outstanding.toList.length = p
  outstanding : ∀ entry ∈ node.outstanding, ops[q]? = some entry.2
  configs : node.sm.configs = configurations.stage ops q
  remembers : node.sm.Remembers (ops.take q)
  applied : ∀ op sm, (op, sm) ∈ node.applied →
    ∃ g, ops[g]? = some op ∧ sm.configs = configurations.stage ops g

namespace Node.Follows

variable {i : Fin n} {node node' : Node n}

theorem append (follows : node.Follows ops p q) (more : List Op) :
    node.Follows (ops ++ more) p q := by
  have within := follows.within
  have behind := follows.behind
  have short : q ≤ ops.length := by omega
  refine ⟨within.trans (by simp), follows.reached, behind, ?_, ?_, ?_, ?_⟩
  · exact fun entry read => Numbered.getElem?_append_of_some (follows.outstanding entry read) more
  · rw [Numbered.stage_append short]
    exact follows.configs
  · rw [List.take_append_of_le_length short]
    exact follows.remembers
  · intro op sm member
    obtain ⟨g, found, configs⟩ := follows.applied op sm member
    refine ⟨g, Numbered.getElem?_append_of_some found more, ?_⟩
    rw [Numbered.stage_append (List.getElem?_eq_some_iff.1 found).1.le]
    exact configs

/-- Nothing happens to the configurations. -/
theorem congr (follows : node.Follows ops p q)
    (reached : node'.sm.curCommitIndex = node.sm.curCommitIndex)
    (configs : node'.sm.configs = node.sm.configs)
    (marks : node'.sm.clientMaxRequestSeq = node.sm.clientMaxRequestSeq)
    (outstanding : node'.outstanding = node.outstanding)
    (applied : node'.applied = node.applied) : node'.Follows ops p q where
  within := follows.within
  reached := by
    rw [reached]
    exact follows.reached
  behind := by
    rw [outstanding]
    exact follows.behind
  outstanding := by
    rw [outstanding]
    exact follows.outstanding
  configs := configs.trans follows.configs
  remembers := follows.remembers.congr configs marks
  applied := by
    rw [applied]
    exact follows.applied

theorem boot (i : Fin n) (persister : Persister Op Unit) (applyCh : List (ApplyMsg Op Unit))
    {applied : List (Op × ShardMaster)} (known : ∀ op sm, (op, sm) ∈ applied →
      ∃ g, ops[g]? = some op ∧ sm.configs = configurations.stage ops g) :
    (Node.boot i persister applyCh applied).Follows ops 0 0 where
  within := Nat.zero_le _
  reached := le_rfl
  behind := rfl
  outstanding := by simp [Node.boot]
  configs := rfl
  remembers := ShardMaster.remembers_start
  applied := known

/-- `mainProcess` takes the next command. -/
theorem take (follows : node.Follows ops p q) {index : Int} (free : node.outstanding = none)
    (next : ops[p]? = some op) (position : index = p + 1) :
    Follows ops { node with
      sm := { node.sm with curCommitIndex := max node.sm.curCommitIndex index }
      taken := node.taken + 1
      outstanding := some (index, op) } (p + 1) q := by
  have behind := follows.behind
  rw [free] at behind
  obtain rfl : q = p := behind
  have reached := follows.reached
  refine ⟨(List.getElem?_eq_some_iff.1 next).1, ?_, rfl, ?_, follows.configs,
    follows.remembers.congr rfl rfl, follows.applied⟩
  · dsimp only
    push_cast
    omega
  · intro entry read
    obtain rfl := Option.some.inj read
    exact next

/-- `mainProcess` obeys the command it has taken. -/
theorem apply (follows : node.Follows ops p q) {ranges : Ranges} {index : Int} {sm : ShardMaster}
    (read : node.outstanding = some (index, op))
    (visits : node.sm.ranged (ranges, ⟨true, some op, index, none⟩) = true)
    (applied : node.sm.applyOp ranges op = some sm) :
    Follows ops { node with
      sm := sm, outstanding := none, applied := node.applied ++ [(op, node.sm)] } p (q + 1) := by
  have behind := follows.behind
  rw [read] at behind
  have found := follows.outstanding _ read
  refine ⟨follows.within, ?_, behind, by simp,
    ShardMaster.configs_applyOp follows.configs follows.remembers found visits applied, ?_, ?_⟩
  · dsimp only
    rw [(ShardMaster.applyOp_results applied).1]
    exact follows.reached
  · rw [List.take_add_one, found]
    exact follows.remembers.applyOp applied
  · intro other before member
    rcases List.mem_append.1 member with old | new
    · exact follows.applied other before old
    · obtain ⟨rfl, rfl⟩ := Prod.mk.inj (List.mem_singleton.1 new)
      exact ⟨q, found, follows.configs⟩

end Node.Follows

/-- The service has taken the first `p` commands. -/
def Service.Follows (ops : List Op) (service : Service n) (p : Nat) : Prop :=
  ∃ q, service.node.Follows ops p q

/-- There are no snapshots. -/
def NoSnapshot (_ops : List Op) (_label : Nat) (_state : Unit) : Prop := False

section Moves

variable {i : Fin n} {service service' : Service n}

theorem moves_handler {k : Nat} {call : QueryCall} {node : Node n} {place : QueryPlace}
    (found : service.node.queries[k]? = some call)
    (advanced : service.node.advance call = some (node, place)) (queries : List QueryCall) :
    (host n).Moves NoSnapshot Service.Follows i service (.node (.handler k))
      { service with node := { node with queries := queries } } := by
  rcases Node.advance_cases advanced with
    ⟨results, rfl⟩ | ⟨curTerm, rf, index, starts, appended, rfl⟩
  · exact .idle rfl rfl (Exists.imp fun q follows => follows.congr rfl rfl rfl rfl rfl)
  · exact .start (by simp [host, Service.starting, found, starts]) appended rfl rfl
      (Exists.imp fun q follows => follows.congr rfl rfl rfl rfl rfl)

theorem moves_changeHandler {k : Nat} {call : ChangeCall} {node : Node n} {place : ChangePlace}
    (found : service.changes[k]? = some call)
    (advanced : service.node.advanceChange call = some (node, place)) (changes : List ChangeCall) :
    (host n).Moves NoSnapshot Service.Follows i service (.changeHandler k)
      { node := node, changes := changes } := by
  rcases Node.advanceChange_cases advanced with rfl | ⟨curTerm, rf, index, starts, appended, rfl⟩
  · exact .idle rfl rfl fun follows => follows
  · exact .start (by simp [host, Service.starting, found, starts]) appended rfl rfl
      (Exists.imp fun q follows => follows.congr rfl rfl rfl rfl rfl)

theorem moves_take {node : Node n} {changes : List ChangeCall}
    (taken : service.node.step i .take = some node) :
    (host n).Moves NoSnapshot Service.Follows i service (.node .take)
      { node := node, changes := changes } := by
  obtain ⟨⟨index, op⟩, next, rfl⟩ := Option.map_eq_some_iff.1 taken
  obtain ⟨free, message, found, command, position⟩ := Node.nextCommand_cases next
  refine .apply found rfl rfl ?_ ?_
  · rintro p comm rfl
    exact ⟨op, command, fun next ⟨q, follows⟩ => ⟨q, follows.take free next position.symm⟩⟩
  · rintro ops p q saved rfl
    cases command

theorem moves_apply {ranges : Ranges} {node : Node n} {changes : List ChangeCall}
    (visits : service.node.ranged (.apply ranges) = true)
    (applied : service.node.step i (.apply ranges) = some node) :
    (host n).Moves NoSnapshot Service.Follows i service (.node (.apply ranges))
      { node := node, changes := changes } := by
  obtain ⟨⟨index, op⟩, read, made⟩ := Option.bind_eq_some_iff.1 applied
  obtain ⟨sm, obeyed, rfl⟩ := Option.map_eq_some_iff.1 made
  simp only [Node.ranged, read, Option.all_some] at visits
  exact .idle rfl rfl fun ⟨q, follows⟩ => ⟨q + 1, follows.apply read visits obeyed⟩

theorem host_moves {action : ServiceAction n}
    (next : (host n).step i service action = some service') :
    (host n).Moves NoSnapshot Service.Follows i service action service' := by
  obtain ⟨own, stepped⟩ := host_step next
  cases action with
  | join args | leave args | move args =>
      obtain rfl := Option.some.inj stepped
      exact .idle rfl rfl fun follows => follows
  | changeHandler k =>
      simp only [Service.step] at stepped
      split at stepped
      · cases stepped
      · rename_i call found
        obtain ⟨⟨node, place⟩, advanced, rfl⟩ := Option.map_eq_some_iff.1 stepped
        exact moves_changeHandler found advanced _
  | node action =>
      obtain ⟨visits, node, moved, rfl⟩ := Service.step_node stepped
      cases action with
      | raft input => exact absurd rfl (own input)
      | take => exact moves_take moved
      | apply ranges => exact moves_apply visits moved
      | query args =>
          obtain rfl := Option.some.inj moved
          exact .idle rfl rfl (Exists.imp fun q follows => follows.congr rfl rfl rfl rfl rfl)
      | handler k =>
          simp only [Node.step] at moved
          split at moved
          · cases moved
          · rename_i call found
            obtain ⟨⟨node, place⟩, advanced, rfl⟩ := Option.map_eq_some_iff.1 moved
            exact moves_handler found advanced _
      | restart =>
          obtain rfl := Option.some.inj moved
          refine .restart rfl rfl rfl ?_
          rintro ops p ⟨q, follows⟩
          exact ⟨0, .boot i _ _ follows.applied⟩

end Moves

theorem host_replica (n : Nat) : (host n).Replica NoSnapshot Service.Follows where
  server_withServer _ _ := rfl
  withServer_server _ := rfl
  taken_withServer _ _ := rfl
  server_boot _ := rfl
  taken_boot _ := rfl
  state_boot i := ⟨0, .boot i _ _ (by simp)⟩
  state_withServer _ := Exists.imp fun q follows => follows.congr rfl rfl rfl rfl rfl
  state_le := fun ⟨_, follows⟩ => follows.within
  state_append more := Exists.imp fun q follows => follows.append more
  good_append _ impossible := impossible
  moves := host_moves

/-! ## One history -/

/-- The commands have made the configurations, each of the one before it. -/
inductive History : List Op → List Config → Prop where
  | start : History [] ShardMaster.start.configs
  | change {made : List Op} {history : List Config} {ranges : Ranges} {op : Op}
      {last config : Config} (before : History made history)
      (latest : history.getLast? = some last) (notQuery : op.optype ≠ .queryType)
      (visit : ranges.Visit op last) (new : nextConfig ranges op last = some config) :
      History (made ++ [op]) (history ++ [config])

theorem History.num {made : List Op} {history : List Config} (built : History made history) :
    ∀ (k : Nat) (config : Config), history[k]? = some config → config.num = k := by
  induction built with
  | start => exact fun k config found => ShardMaster.remembers_start.numbered found
  | @change made history ranges op last config before latest notQuery visit new ih =>
      intro k config' found
      rcases lt_or_ge k history.length with old | after
      · exact ih k config' ((List.getElem?_append_left old).symm.trans found)
      · have added := (List.getElem?_append_right after).symm.trans found
        rw [List.getElem?_singleton] at added
        split_ifs at added with first
        obtain rfl := Option.some.inj added
        have position := List.getLast?_eq_getElem? ▸ latest
        have inside := (List.getElem?_eq_some_iff.1 position).1
        rw [nextConfig_num new, ih _ last position]
        omega

theorem History.notQuery {made : List Op} {history : List Config} (built : History made history) :
    ∀ op ∈ made, op.optype ≠ .queryType := by
  induction built with
  | start => simp
  | change _ _ notQuery _ _ ih =>
      intro op member
      rcases List.mem_append.1 member with old | new
      · exact ih op old
      · obtain rfl := List.mem_singleton.1 new
        exact notQuery

abbrev Deployment (n : Nat) := Deployed n Op Unit (Service n)

abbrev DeploymentAction (n : Nat) := DeployedAction n Op Unit (ServiceAction n)

namespace Deployment

variable {d : Deployment n}

/-- The server `i` of the service on its peer. -/
def node (d : Deployment n) (i : Fin n) : Node n := (d.services i).node

/-- `n` servers started on fresh `Persister`s. -/
def init (n : Nat) : Deployment n := Deployed.init (host n)

def step (d : Deployment n) (action : DeploymentAction n) : Option (Deployment n) :=
  Deployed.step (host n) d action

/-- The peers keep what they have committed. A command is appended in a term that the server has
won and still is in. -/
def Keeps (d : Deployment n) (action : DeploymentAction n) : Prop :=
  Deployed.keepsCommits (host n) d action = true

instance (d : Deployment n) (action : DeploymentAction n) : Decidable (d.Keeps action) :=
  inferInstanceAs (Decidable (Deployed.keepsCommits (host n) d action = true))

end Deployment

end Mit6824.Shards
