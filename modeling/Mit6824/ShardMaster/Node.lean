import Mit6824.Raft.Server
import Mit6824.ShardMaster.History

/-!
# A shard master on its Raft peer

A `Node` is a peer with the shard master on top of it and the calls of the `Query` handler. A call
gives up the processor between any two of its accesses to shared state, so it is at one of the
places of `QueryPlace`. `mainProcess` takes a message and raises `curCommitIndex` without the
lock; its locked section is a step of its own.

Everything that happens to the peer is an `Input`, in any order and with any contents. A `Join`,
`Leave` or `Move` shows in its two calls of `Start` and in its message only. A shard master makes
no snapshots.
-/

namespace Mit6824.Shards

structure QueryArgs where
  clientID : Int
  commSeq : Int
  num : Int
  deriving DecidableEq, Repr

/-- The command the handler starts. -/
def QueryArgs.comm (args : QueryArgs) : Op :=
  { clientID := args.clientID, proposalID := args.commSeq, optype := .queryType, num := args.num }

/-- Where a call of `Query` is. -/
inductive QueryPlace where
  /-- About to ask for the leader. -/
  | readLeader
  /-- About to enter `Start`. -/
  | startCheck
  /-- Between the critical sections of `Start`. -/
  | startAppend (curTerm : Int)
  /-- At the head of the loop. -/
  | pollLeader (index : Int)
  /-- In the loop, after the look at the leader. -/
  | pollCommit (index : Int)
  /-- Behind the loop, about to lock. -/
  | readResult (index : Int)
  /-- Without a configuration it is the zero `Config`. -/
  | replied (wrongLeader : Bool) (config : Option Config)
  deriving DecidableEq

structure QueryCall where
  args : QueryArgs
  place : QueryPlace
  deriving DecidableEq

structure Node (n : Nat) where
  server : Server n Op Unit
  sm : ShardMaster
  /-- How many messages of the channel `mainProcess` has taken, or lost in a crash. -/
  taken : Nat
  /-- The index and the command that `mainProcess` has read and not yet applied. -/
  outstanding : Option (Int × Op)
  queries : List QueryCall
  /-- Not part of the program: the commands that were applied, each with what it found. -/
  applied : List (Op × ShardMaster)
  deriving DecidableEq

inductive NodeAction (n : Nat) where
  /-- A step of the peer. -/
  | raft (input : Input n Op Unit)
  /-- `mainProcess` takes the next message. -/
  | take
  /-- The locked section of `mainProcess`. -/
  | apply (ranges : Ranges)
  /-- A call of `Query` comes in. -/
  | query (args : QueryArgs)
  /-- A call goes on. -/
  | handler (call : Nat)
  /-- A crash, and `StartServer` with what the peer has saved. -/
  | restart
  deriving DecidableEq

namespace Node

variable {n : Nat}

abbrev rf (node : Node n) : Raft Op Unit := node.server.rf

/-- `StartServer` on the contents of a `Persister`. -/
def boot (i : Fin n) (persister : Persister Op Unit) (applyCh : List (ApplyMsg Op Unit))
    (applied : List (Op × ShardMaster)) : Node n :=
  { server := .boot i persister applyCh, sm := .start, taken := applyCh.length
    outstanding := none, queries := [], applied := applied }

/-- `Query` up to its next access to shared state. -/
def advance (node : Node n) (call : QueryCall) : Option (Node n × QueryPlace) :=
  match call.place with
  | .readLeader =>
      some (node, if node.rf.me ≠ node.rf.leaderNum then .replied true none else .startCheck)
  | .startCheck =>
      match node.rf.startCheck with
      | none => some (node, .pollLeader (-1))
      | some curTerm => some (node, .startAppend curTerm)
  | .startAppend curTerm =>
      (node.rf.startAppend call.args.comm curTerm).map fun (rf, index) =>
        ({ node with server := { node.server with rf := rf } }, .pollLeader index)
  | .pollLeader index =>
      some (node, if node.rf.leaderNum ≠ node.rf.me then .replied true none else .pollCommit index)
  | .pollCommit index =>
      some
        (node, if index ≤ node.sm.curCommitIndex then .readResult index else .pollLeader index)
  | .readResult _ =>
      let commID := call.args.comm.commID
      some
        ({ node with sm := { node.sm with resultMap := node.sm.resultMap.erase commID } },
          .replied false (node.sm.resultMap.lookup commID))
  | .replied _ _ => none

/-- A step of the peer; a crash concerns the service too. -/
def raft (i : Fin n) (node : Node n) (input : Input n Op Unit) : Option (Node n) :=
  match input with
  | .restart => none
  | .takeSnapshots _ _ => none
  | input => (node.server.step i input).map fun (server, _) => { node with server := server }

/-- The command that `mainProcess` takes next, with its index. -/
def nextCommand (node : Node n) : Option (Int × Op) :=
  match node.outstanding, node.rf.applyCh[node.taken]? with
  | none, some message => message.command.map fun op => (message.commandIndex, op)
  | _, _ => none

def step (i : Fin n) (node : Node n) : NodeAction n → Option (Node n)
  | .raft input => node.raft i input
  | .take =>
      node.nextCommand.map fun (commitIndex, commOp) =>
        { node with
          sm := { node.sm with curCommitIndex := max node.sm.curCommitIndex commitIndex }
          taken := node.taken + 1
          outstanding := some (commitIndex, commOp) }
  | .apply ranges =>
      node.outstanding.bind fun (_, commOp) =>
        (node.sm.applyOp ranges commOp).map fun sm =>
          { node with
            sm := sm, outstanding := none, applied := node.applied ++ [(commOp, node.sm)] }
  | .query args => some { node with queries := node.queries ++ [⟨args, .readLeader⟩] }
  | .handler k =>
      match node.queries[k]? with
      | none => none
      | some call =>
          (node.advance call).map fun (node', place) =>
            { node' with queries := node'.queries.set k { call with place := place } }
  | .restart => some (boot i node.rf.persister node.rf.applyCh node.applied)

/-- The run starts with an empty `Persister`. -/
def init (i : Fin n) : Node n := boot i (makePersister Op Unit) [] []

variable {i : Fin n} {node node' node'' : Node n}

theorem raft_cases {input : Input n Op Unit} (moved : node.raft i input = some node') :
    ∃ server output, input ≠ .restart ∧ node.server.step i input = some (server, output) ∧
      node' = { node with server := server } := by
  unfold raft at moved
  split at moved
  · cases moved
  · cases moved
  · rename_i up _
    obtain ⟨⟨server, output⟩, stepped, rfl⟩ := Option.map_eq_some_iff.1 moved
    exact ⟨server, output, up, stepped, rfl⟩

theorem nextCommand_cases {index : Int} {op : Op} (next : node.nextCommand = some (index, op)) :
    node.outstanding = none ∧ ∃ message, node.rf.applyCh[node.taken]? = some message ∧
      message.command = some op ∧ message.commandIndex = index := by
  unfold nextCommand at next
  split at next
  · rename_i message free found
    obtain ⟨_, command, equal⟩ := Option.map_eq_some_iff.1 next
    cases equal
    exact ⟨free, message, found, command, rfl⟩
  · cases next

/-- The two steps of `mainProcess` make one message of the apply channel. -/
theorem take_apply {ranges : Ranges} (taken : node.step i .take = some node')
    (applied : node'.step i (.apply ranges) = some node'') :
    ∃ message, node.rf.applyCh[node.taken]? = some message ∧
      node.sm.apply (ranges, message) = some node''.sm := by
  obtain ⟨⟨index, op⟩, next, rfl⟩ := Option.map_eq_some_iff.1 taken
  obtain ⟨_, message, found, command, rfl⟩ := nextCommand_cases next
  obtain ⟨sm, changed, rfl⟩ := Option.map_eq_some_iff.1 applied
  refine ⟨message, found, ?_⟩
  simp only [ShardMaster.apply, command]
  exact changed

end Node

end Mit6824.Shards
