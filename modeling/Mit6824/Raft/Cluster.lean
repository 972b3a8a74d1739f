import Mathlib.Algebra.GroupWithZero.Nat
import Mathlib.Logic.Function.Basic
import Mit6824.Raft.Server
import Mit6824.Runs

/-!
# A cluster

`n` servers and the network between them. Every request and reply ever sent stays
in `net`, so that a packet may be delivered late, out of order, many times or
never. A reply goes back to the call it answers: it is taken only by a round,
a goroutine or a snapshot transfer that waits for a reply to that request.

`supported` and `won` record the past of the run. `(v, t, c)` is in `supported`
if `v` stood for `c` in term `t`: it granted `c` a `RequestVote` with that term,
or is `c` and began a round with it. `won` has the rounds that ended with a
majority.
-/

namespace Mit6824

inductive Packet (n : Nat) (α σ : Type) where
  | request (src dst : Fin n) (request : Request α σ)
  /-- The reply of `dst` to a call of `src`. -/
  | reply (src dst : Fin n) (request : Request α σ) (reply : Reply)
  deriving DecidableEq, Repr

structure Cluster (n : Nat) (α σ : Type) where
  servers : Fin n → Server n α σ
  net : List (Packet n α σ)
  supported : List (Fin n × Int × Fin n)
  won : List (Fin n × Round n)

/-- A step of the cluster; `packet` is a position in `net`. -/
inductive Action (n : Nat) (α σ : Type) where
  | deliver (packet : Nat)
  | voteReply (packet : Nat)
  | entryReply (packet sender : Nat)
  | snapShotReply (packet : Nat)
  | retrySnapShotReply (packet sender : Nat)
  | internal (i : Fin n) (input : Input n α σ)
  deriving DecidableEq, Repr

namespace Input

variable {n : Nat} {α σ : Type}

/-- The inputs that need no packet. A snapshot transfer may be given up at any time. -/
def isInternal : Input n α σ → Bool
  | .request _ | .voteReply _ _ | .entryReply _ _ => false
  | .snapShotReply reply | .retrySnapShotReply _ reply => reply == Raft.lostReply
  | _ => true

end Input

namespace Server

variable {n : Nat} {α σ : Type} [DecidableEq α] [DecidableEq σ]

/-- The server is in the round that sent this request. -/
def awaitsVote (server : Server n α σ) (args : RequestVoteArgs) : Bool :=
  match server.phase with
  | .candidate round => round.args == args
  | _ => false

/-- The goroutine at position `k` waits for the reply of `peer` to this message. -/
def awaitsEntry (server : Server n α σ) (k : Nat) (peer : Fin n)
    (args : AppendEntryArgs α) : Bool :=
  match server.senders[k]? with
  | some sender => sender.ind == peer && sender.appEn == args && sender.snapshot.isNone
  | none => false

/-- `LeaderProcess` itself waits for the reply of `peer` to this snapshot. -/
def awaitsSnapShot (server : Server n α σ) (peer : Fin n) (args : InstallSnapShotArgs σ) :
    Bool :=
  match server.phase with
  | .snapshotting _ _ _ ind _ sent => ind == peer && sent == args
  | _ => false

/-- The goroutine at position `k` waits for the reply of `peer` to this snapshot. -/
def awaitsRetrySnapShot (server : Server n α σ) (k : Nat) (peer : Fin n)
    (args : InstallSnapShotArgs σ) : Bool :=
  match server.senders[k]? with
  | some sender => sender.ind == peer && sender.snapshot == some args
  | none => false

end Server

namespace Cluster

variable {n : Nat} {α σ : Type}

/-- The peer of server `i`. -/
def rf (c : Cluster n α σ) (i : Fin n) : Raft α σ := (c.servers i).rf

/-- `n` servers made on fresh `Persister`s. -/
def init (n : Nat) (α σ : Type) : Cluster n α σ :=
  { servers := fun i => Server.boot i (makePersister α σ) [], net := [], supported := []
    won := [] }

-- The runs that are written out in this development are of three servers.
instance threeServers : NeZero 3 := ⟨by decide⟩

/-- A step of server `i`, with the reply if the step is a handler. -/
def act (c : Cluster n α σ) (i : Fin n) (input : Input n α σ) :
    Option (Cluster n α σ × Option Reply) :=
  ((c.servers i).step i input).map fun (server, output) =>
    ({ c with
        servers := Function.update c.servers i server
        net := c.net ++ output.sends.map fun (dst, request) => .request i dst request
        won := c.won ++ output.won.toList.map fun round => (i, round) },
      output.reply)

/-- The vote that a handler has just given. -/
def ballot (src dst : Fin n) : Request α σ → Reply → List (Fin n × Int × Fin n)
  | .requestVote args, .requestVote reply =>
      if reply.voteGranted then [(dst, args.term, src)] else []
  | _, _ => []

/-- A request reaches its server, and the reply is on its way. -/
def deliver (c : Cluster n α σ) (src dst : Fin n) (request : Request α σ) :
    Option (Cluster n α σ) :=
  match c.act dst (.request request) with
  | some (c', some reply) =>
      some { c' with
        net := c'.net ++ [.reply src dst request reply]
        supported := c'.supported ++ ballot src dst request reply }
  | _ => none

/-- A candidate stands for itself. -/
def candidacy (c : Cluster n α σ) (i : Fin n) : Input n α σ → List (Fin n × Int × Fin n)
  | .startRound => [(i, (c.rf i).currentTerm, i)]
  | _ => []

/-- A step that needs no packet. -/
def internal (c : Cluster n α σ) (i : Fin n) (input : Input n α σ) : Option (Cluster n α σ) :=
  if input.isInternal then
    (c.act i input).map fun (c', _) =>
      { c' with supported := c'.supported ++ c.candidacy i input }
  else none

variable [DecidableEq α] [DecidableEq σ]

def step (c : Cluster n α σ) : Action n α σ → Option (Cluster n α σ)
  | .deliver packet =>
      match c.net[packet]? with
      | some (.request src dst request) => c.deliver src dst request
      | _ => none
  | .voteReply packet =>
      match c.net[packet]? with
      | some (.reply src dst (.requestVote args) (.requestVote reply)) =>
          if (c.servers src).awaitsVote args then
            (c.act src (.voteReply dst reply)).map Prod.fst
          else none
      | _ => none
  | .entryReply packet sender =>
      match c.net[packet]? with
      | some (.reply src dst (.appendEntry args) (.appendEntry reply)) =>
          if (c.servers src).awaitsEntry sender dst args then
            (c.act src (.entryReply sender reply)).map Prod.fst
          else none
      | _ => none
  | .snapShotReply packet =>
      match c.net[packet]? with
      | some (.reply src dst (.installSnapShot args) (.installSnapShot reply)) =>
          if (c.servers src).awaitsSnapShot dst args then
            (c.act src (.snapShotReply reply)).map Prod.fst
          else none
      | _ => none
  | .retrySnapShotReply packet sender =>
      match c.net[packet]? with
      | some (.reply src dst (.installSnapShot args) (.installSnapShot reply)) =>
          if (c.servers src).awaitsRetrySnapShot sender dst args then
            (c.act src (.retrySnapShotReply sender reply)).map Prod.fst
          else none
      | _ => none
  | .internal i input => c.internal i input

/-- The term `t` is one that server `i` has won. -/
def hasWon (c : Cluster n α σ) (i : Fin n) (t : Int) : Bool :=
  c.won.any fun (winner, round) => winner == i && round.args.term == t

end Cluster

end Mit6824
