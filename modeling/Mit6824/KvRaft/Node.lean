import Mit6824.KvRaft.Server
import Mit6824.Raft.Server

/-!
# A key/value server on its Raft peer

A `Node` is a peer with the key/value server on top of it: the state `mainProcess` has built
from the messages it has taken from the apply channel, and the calls of the `PutAppend`
handler. A call of the handler gives up the processor between any two of its accesses to
shared state, so it is at one of the places of `Place`; `Start` has two critical
sections, and the loop reads the leader and the commit index at different moments.

Everything that happens to the peer is an `Input`, in any order and with any
contents. The channel holds all messages ever put on it, those of earlier lives of the
peer included. A `Get` shows in its two calls of `Start` and in its message only.
-/

namespace Mit6824.KvRaft

structure PutAppendArgs where
  key : String
  value : String
  op : String
  clientID : Int
  commSeq : Int
  deriving DecidableEq, Repr

/-- The command the handler starts. -/
def PutAppendArgs.comm (args : PutAppendArgs) : Op :=
  { clientID := args.clientID, proposalID := args.commSeq
    optype := if args.op = "Put" then .putType else .appendType
    key := args.key, value := args.value }

theorem PutAppendArgs.comm_isWrite (args : PutAppendArgs) : args.comm.isWrite = true := by
  rw [Op.isWrite_iff, comm]
  dsimp only
  split_ifs <;> simp

/-- Where a call of `PutAppend` is. -/
inductive Place where
  /-- About to ask for the leader. -/
  | readLeader
  /-- About to take note of the client. -/
  | addClient (leaderNum : Int)
  /-- About to enter `Start`. -/
  | startCheck
  /-- Between the critical sections of `Start`. -/
  | startAppend (curTerm : Int)
  /-- At the head of the loop. -/
  | pollLeader (index : Int)
  /-- In the loop, after the look at the leader. -/
  | pollCommit (index : Int)
  | replied (wrongLeader : Bool)
  deriving DecidableEq, Repr

structure Call where
  comm : Op
  place : Place
  deriving DecidableEq, Repr

structure Node (n : Nat) where
  server : Server n Op Saved
  kv : KVServer
  /-- How many messages of the channel `mainProcess` has taken, or lost in a crash. -/
  taken : Nat
  calls : List Call
  deriving DecidableEq

inductive NodeAction (n : Nat) where
  /-- A step of the peer. -/
  | raft (input : Input n Op Saved)
  /-- `mainProcess` takes the next message. -/
  | apply
  /-- The goroutine of `TakeSnapshots` for an index that was applied. -/
  | takeSnapshots (index : Int)
  /-- A call of `PutAppend` comes in. -/
  | putAppend (args : PutAppendArgs)
  /-- A call goes on. -/
  | handler (call : Nat)
  /-- A crash, and `StartKVServer` with what the peer has saved. -/
  | restart
  deriving DecidableEq

namespace KVServer

/-- A new client starts at `0`. -/
def addClient (kv : KVServer) (client : Int) : KVServer :=
  if (kv.clientMaxRequestSeq.lookup client).isSome then kv
  else { kv with clientMaxRequestSeq := kv.clientMaxRequestSeq.insert client 0 }

/-- A new client is not told from one that has written nothing. -/
theorem addClient_frame (kv : KVServer) (client : Int) :
    (kv.addClient client).curCommitIndex = kv.curCommitIndex ∧
      (kv.addClient client).maxSeq = kv.maxSeq := by
  unfold addClient
  split_ifs with known
  · exact ⟨rfl, rfl⟩
  · have zero : kv.maxSeq client = 0 := by
      rw [maxSeq, Option.not_isSome_iff_eq_none.1 known, Option.getD_none]
    refine ⟨rfl, ?_⟩
    rw [maxSeq_of_insert rfl, ← zero, Function.update_eq_self]

/-- The maps that `TakeSnapshots` encodes. -/
def saved (kv : KVServer) : Saved := ⟨kv.clientMaxRequestSeq, kv.rsm⟩

end KVServer

namespace Node

variable {n : Nat}

abbrev rf (node : Node n) : Raft Op Saved := node.server.rf

/-- `StartKVServer` on the contents of a `Persister`. -/
def boot (i : Fin n) (persister : Persister Op Saved) (applyCh : List (ApplyMsg Op Saved)) :
    Node n :=
  { server := .boot i persister applyCh, kv := .start, taken := applyCh.length, calls := [] }

/-- `PutAppend` up to its next access to shared state. -/
def advance (node : Node n) (call : Call) : Option (Node n × Place) :=
  match call.place with
  | .readLeader => some (node, .addClient node.rf.leaderNum)
  | .addClient leaderNum =>
      some
        ({ node with kv := node.kv.addClient call.comm.clientID },
          if leaderNum ≠ node.rf.me then .replied true else .startCheck)
  | .startCheck =>
      match node.rf.startCheck with
      | none => some (node, .pollLeader (-1))
      | some curTerm => some (node, .startAppend curTerm)
  | .startAppend curTerm =>
      (node.rf.startAppend call.comm curTerm).map fun (rf, index) =>
        ({ node with server := { node.server with rf := rf } }, .pollLeader index)
  | .pollLeader index =>
      some (node, if node.rf.leaderNum ≠ node.rf.me then .replied true else .pollCommit index)
  | .pollCommit index =>
      some (node, if index ≤ node.kv.curCommitIndex then .replied false else .pollLeader index)
  | .replied _ => none

/-- A step of the peer; a crash and a snapshot concern the service too. -/
def raft (i : Fin n) (node : Node n) (input : Input n Op Saved) : Option (Node n) :=
  match input with
  | .restart => none
  | .takeSnapshots _ _ => none
  | input => (node.server.step i input).map fun (server, _) => { node with server := server }

def step (i : Fin n) (node : Node n) : NodeAction n → Option (Node n)
  | .raft input => node.raft i input
  | .apply =>
      match node.rf.applyCh[node.taken]? with
      | none => none
      | some message =>
          (node.kv.apply message).map fun kv => { node with kv := kv, taken := node.taken + 1 }
  | .takeSnapshots index =>
      if node.kv.curCommitIndex < index then none
      else
        (node.server.takeSnapshots node.kv.saved index).map fun (server, _) =>
          { node with server := server }
  | .putAppend args => some { node with calls := node.calls ++ [⟨args.comm, .readLeader⟩] }
  | .handler k =>
      match node.calls[k]? with
      | none => none
      | some call =>
          (node.advance call).map fun (node', place) =>
            { node' with calls := node'.calls.set k { call with place := place } }
  | .restart => some (boot i node.rf.persister node.rf.applyCh)

variable {i : Fin n} {node node' : Node n}

theorem raft_cases {input : Input n Op Saved} (moved : node.raft i input = some node') :
    ∃ server output, input ≠ .restart ∧ node.server.step i input = some (server, output) ∧
      node' = { node with server := server } := by
  unfold raft at moved
  split at moved
  · cases moved
  · cases moved
  · rename_i up _
    obtain ⟨⟨server, output⟩, stepped, rfl⟩ := Option.map_eq_some_iff.1 moved
    exact ⟨server, output, up, stepped, rfl⟩

end Node

end Mit6824.KvRaft
