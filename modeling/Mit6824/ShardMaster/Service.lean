import Mit6824.Raft.Services
import Mit6824.ShardMaster.Query
import Mit6824.ShardMaster.Rebalance

/-!
# The shard master with all its handlers

`Join`, `Leave` and `Move` hand a command to `Start` and wait until `curCommitIndex` reaches its
index. They differ in the command only, and unlike `Query` they take no result. A `Service` is a
node with the calls of these handlers, and `host` is the service as it sits on a peer of a cluster:
a loop over a map visits its keys, and a shard master takes no snapshots.
-/

namespace Mit6824.Shards

structure JoinArgs where
  clientID : Int
  commSeq : Int
  servers : GoMap Int (List String)
  deriving DecidableEq

structure LeaveArgs where
  clientID : Int
  commSeq : Int
  gids : List Int
  deriving DecidableEq

structure MoveArgs where
  clientID : Int
  commSeq : Int
  shard : Int
  gid : Int
  deriving DecidableEq

/-- The command that `Join` starts. -/
def JoinArgs.comm (args : JoinArgs) : Op :=
  { clientID := args.clientID, proposalID := args.commSeq, optype := .joinType
    servers := args.servers }

/-- The command that `Leave` starts. -/
def LeaveArgs.comm (args : LeaveArgs) : Op :=
  { clientID := args.clientID, proposalID := args.commSeq, optype := .leaveType
    gids := args.gids }

/-- The command that `Move` starts. -/
def MoveArgs.comm (args : MoveArgs) : Op :=
  { clientID := args.clientID, proposalID := args.commSeq, optype := .moveType
    gid := args.gid, shard := args.shard }

/-- Where a call of `Join`, `Leave` or `Move` is. -/
inductive ChangePlace where
  /-- About to ask for the leader. -/
  | readLeader
  /-- About to enter `Start`. -/
  | startCheck
  /-- Between the critical sections of `Start`. -/
  | startAppend (curTerm : Int)
  /-- At the head of the loop. -/
  | pollLeader (index : Int)
  /-- In the loop, after the look at the leader. -/
  | pollCommit (index : Int)
  | replied (wrongLeader : Bool)
  deriving DecidableEq, Repr

structure ChangeCall where
  comm : Op
  place : ChangePlace
  deriving DecidableEq

structure Service (n : Nat) where
  node : Node n
  changes : List ChangeCall
  deriving DecidableEq

inductive ServiceAction (n : Nat) where
  /-- A step of the peer, of `mainProcess` or of `Query`, or a crash. -/
  | node (action : NodeAction n)
  /-- A call of `Join` comes in. -/
  | join (args : JoinArgs)
  /-- A call of `Leave` comes in. -/
  | leave (args : LeaveArgs)
  /-- A call of `Move` comes in. -/
  | move (args : MoveArgs)
  /-- A call of one of the three goes on. -/
  | changeHandler (call : Nat)
  deriving DecidableEq

namespace Node

variable {n : Nat} {node node' : Node n}

/-- `Join`, `Leave` or `Move` up to its next access to shared state. -/
def advanceChange (node : Node n) (call : ChangeCall) : Option (Node n × ChangePlace) :=
  match call.place with
  | .readLeader =>
      some (node, if node.rf.me ≠ node.rf.leaderNum then .replied true else .startCheck)
  | .startCheck =>
      match node.rf.startCheck with
      | none => some (node, .pollLeader (-1))
      | some curTerm => some (node, .startAppend curTerm)
  | .startAppend curTerm =>
      (node.rf.startAppend call.comm curTerm).map fun (rf, index) =>
        ({ node with server := { node.server with rf := rf } }, .pollLeader index)
  | .pollLeader index =>
      some (node, if node.rf.leaderNum ≠ node.rf.me then .replied true else .pollCommit index)
  | .pollCommit index =>
      some
        (node, if index ≤ node.sm.curCommitIndex then .replied false else .pollLeader index)
  | .replied _ => none

/-- The loops of `mainProcess` visit the keys of their maps. -/
def ranged (node : Node n) : NodeAction n → Bool
  | .apply ranges =>
      node.outstanding.all fun (index, op) =>
        node.sm.ranged (ranges, ⟨true, some op, index, none⟩)
  | _ => true

/-- A call of `Query` takes its result, or it appends its command, or it changes nothing. -/
theorem advance_cases {call : QueryCall} {place : QueryPlace}
    (advanced : node.advance call = some (node', place)) :
    (∃ results, node' = { node with sm := { node.sm with resultMap := results } }) ∨
      ∃ curTerm rf index, call.place = .startAppend curTerm ∧
        node.rf.startAppend call.args.comm curTerm = some (rf, index) ∧
        node' = { node with server := { node.server with rf := rf } } := by
  obtain ⟨args, at'⟩ := call
  cases at' with
  | startCheck =>
      simp only [advance] at advanced
      split at advanced
      all_goals
        obtain ⟨rfl, _⟩ := Prod.mk.inj (Option.some.inj advanced)
        exact Or.inl ⟨_, rfl⟩
  | startAppend curTerm =>
      obtain ⟨⟨rf, index⟩, appended, equal⟩ := Option.map_eq_some_iff.1 advanced
      obtain ⟨rfl, _⟩ := Prod.mk.inj equal
      exact Or.inr ⟨curTerm, rf, index, rfl, appended, rfl⟩
  | replied wrongLeader config => cases advanced
  | readLeader | pollLeader index | pollCommit index | readResult index =>
      obtain ⟨rfl, _⟩ := Prod.mk.inj (Option.some.inj advanced)
      exact Or.inl ⟨_, rfl⟩

/-- A call of the other handlers changes nothing until it appends its command. -/
theorem advanceChange_cases {call : ChangeCall} {place : ChangePlace}
    (advanced : node.advanceChange call = some (node', place)) :
    node' = node ∨ ∃ curTerm rf index, call.place = .startAppend curTerm ∧
      node.rf.startAppend call.comm curTerm = some (rf, index) ∧
      node' = { node with server := { node.server with rf := rf } } := by
  obtain ⟨comm, at'⟩ := call
  cases at' with
  | startCheck =>
      simp only [advanceChange] at advanced
      split at advanced
      all_goals
        obtain ⟨rfl, _⟩ := Prod.mk.inj (Option.some.inj advanced)
        exact Or.inl rfl
  | startAppend curTerm =>
      obtain ⟨⟨rf, index⟩, appended, equal⟩ := Option.map_eq_some_iff.1 advanced
      obtain ⟨rfl, _⟩ := Prod.mk.inj equal
      exact Or.inr ⟨curTerm, rf, index, rfl, appended, rfl⟩
  | replied wrongLeader => cases advanced
  | readLeader | pollLeader index | pollCommit index =>
      obtain ⟨rfl, _⟩ := Prod.mk.inj (Option.some.inj advanced)
      exact Or.inl rfl

/-- A call is acknowledged when `curCommitIndex` has reached its index. -/
theorem advanceChange_acknowledges {call : ChangeCall}
    (advanced : node.advanceChange call = some (node', .replied false)) :
    ∃ index, call.place = .pollCommit index ∧ index ≤ node.sm.curCommitIndex := by
  obtain ⟨comm, at'⟩ := call
  cases at' with
  | startCheck =>
      simp only [advanceChange] at advanced
      split at advanced
      all_goals cases advanced
  | startAppend curTerm =>
      obtain ⟨_, _, equal⟩ := Option.map_eq_some_iff.1 advanced
      cases equal
  | replied wrongLeader => cases advanced
  | readLeader | pollLeader index =>
      obtain ⟨_, equal⟩ := Prod.mk.inj (Option.some.inj advanced)
      split_ifs at equal
      cases equal
  | pollCommit index =>
      obtain ⟨_, equal⟩ := Prod.mk.inj (Option.some.inj advanced)
      split_ifs at equal with reached
      exact ⟨index, rfl, reached⟩

end Node

namespace Service

variable {n : Nat}

/-- `StartServer` on an empty `Persister`. -/
def boot (i : Fin n) : Service n := { node := .init i, changes := [] }

/-- A call of `Join`, `Leave` or `Move` with its command. -/
def enter (service : Service n) (comm : Op) : Service n :=
  { service with changes := service.changes ++ [⟨comm, .readLeader⟩] }

def step (i : Fin n) (service : Service n) : ServiceAction n → Option (Service n)
  | .node action =>
      if service.node.ranged action then
        (service.node.step i action).map fun node =>
          { node := node, changes := if action = .restart then [] else service.changes }
      else none
  | .join args => some (service.enter args.comm)
  | .leave args => some (service.enter args.comm)
  | .move args => some (service.enter args.comm)
  | .changeHandler k =>
      match service.changes[k]? with
      | none => none
      | some call =>
          (service.node.advanceChange call).map fun (node, place) =>
            { node := node, changes := service.changes.set k { call with place := place } }

theorem step_node {i : Fin n} {service service' : Service n} {action : NodeAction n}
    (stepped : service.step i (.node action) = some service') :
    service.node.ranged action = true ∧ ∃ node, service.node.step i action = some node ∧
      service' = ⟨node, if action = .restart then [] else service.changes⟩ := by
  simp only [step] at stepped
  split at stepped
  · rename_i ranged
    obtain ⟨node, moved, rfl⟩ := Option.map_eq_some_iff.1 stepped
    exact ⟨ranged, node, moved, rfl⟩
  · cases stepped

/-- The command and the term of a call that is about to append. -/
def starting (service : Service n) : ServiceAction n → Option (Op × Int)
  | .node (.handler k) =>
      service.node.queries[k]?.bind fun call =>
        match call.place with
        | .startAppend curTerm => some (call.args.comm, curTerm)
        | _ => none
  | .changeHandler k =>
      service.changes[k]?.bind fun call =>
        match call.place with
        | .startAppend curTerm => some (call.comm, curTerm)
        | _ => none
  | _ => none

end Service

/-- The shard master on its peer. The steps of the peer are those of the cluster. -/
def host (n : Nat) : Host n Op Unit (Service n) (ServiceAction n) where
  server service := service.node.server
  withServer service server := { service with node := { service.node with server := server } }
  taken service := service.node.taken
  step i service
    | .node (.raft _) => none
    | action => service.step i action
  boot := .boot
  starting := Service.starting
  crashes action := action == .node .restart

theorem host_step {n : Nat} {i : Fin n} {service service' : Service n} {action : ServiceAction n}
    (next : (host n).step i service action = some service') :
    (∀ input, action ≠ .node (.raft input)) ∧ service.step i action = some service' := by
  cases action with
  | node action =>
      cases action with
      | raft input => cases next
      | _ => exact ⟨by simp, next⟩
  | _ => exact ⟨by simp, next⟩

end Mit6824.Shards
