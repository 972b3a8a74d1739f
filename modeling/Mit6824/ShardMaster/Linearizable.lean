import Mit6824.Raft.Serving
import Mit6824.ShardMaster.Deployment

/-!
# Clients of the shard masters

A clerk sends the request of a call to one server after the other until it is answered by one that
was the leader. An answer rests on what its server has applied (`serving_lawful`): the command of a
`Join`, `Leave` or `Move` is delivered when it is acknowledged, and the configuration that a `Query`
returns was read for its request. So the calls of the clients are linearizable (`linearizable`): one
list of configurations takes them in an order that respects the times at which they were made and
answered.

The conditions are those of `Query`, for all handlers: a call enters `Start` as the leader, an
`AppendEntry` writes nothing behind an index that somebody waits for, and a `Query` takes its result
when it is there.
-/

namespace Mit6824.Shards

/-! ## Clerks -/

/-- What of a `Clerk` its requests depend on, with the server that its loop has come to. -/
structure Clerk where
  id : Int
  requestSeq : Int
  server : Nat
  deriving DecidableEq, Repr

/-- A call of `Query`, `Join`, `Leave` or `Move`. -/
inductive ClerkCall where
  | query (num : Int)
  | join (servers : GoMap Int (List String))
  | leave (gids : List Int)
  | move (shard gid : Int)
  deriving DecidableEq

namespace Clerk

/-- `MakeClerk`, with the number it draws. -/
def makeClerk (id : Int) : Clerk := { id := id, requestSeq := 0, server := 0 }

/-- The command that the requests of a call lead to. -/
def comm (ck : Clerk) : ClerkCall → Op
  | .query num => QueryArgs.comm { clientID := ck.id, commSeq := ck.requestSeq, num := num }
  | .join servers =>
      JoinArgs.comm { clientID := ck.id, commSeq := ck.requestSeq, servers := servers }
  | .leave gids => LeaveArgs.comm { clientID := ck.id, commSeq := ck.requestSeq, gids := gids }
  | .move shard gid =>
      MoveArgs.comm { clientID := ck.id, commSeq := ck.requestSeq, shard := shard, gid := gid }

/-- The critical section of a call, and its loop begins. -/
def issue (ck : Clerk) (call : ClerkCall) : Clerk × Op :=
  ({ ck with requestSeq := ck.requestSeq + 1, server := 0 }, ck.comm call)

end Clerk

/-- The clerks, with the loop in which a call is sent to the servers. -/
def clerks (n : Nat) : Clients.Clerks n Op Clerk ClerkCall where
  make := Clerk.makeClerk
  id := Clerk.id
  next := Clerk.requestSeq
  first := 0
  issue := Clerk.issue
  asks ck server := ck.server == (server : Nat)
  giveUp ck := { ck with server := (ck.server + 1) % n }
  heard ck _ := ck

theorem clerks_lawful (n : Nat) : (clerks n).Lawful configurations where
  make _ := ⟨rfl, rfl⟩
  issued _ call := by cases call <;> exact ⟨rfl, rfl⟩
  issue _ _ := ⟨rfl, rfl⟩
  giveUp _ := ⟨rfl, rfl⟩
  heard _ _ := ⟨rfl, rfl⟩

/-! ## The requests at a server -/

/-- The request that comes in. -/
def ServiceAction.arrival {n : Nat} : ServiceAction n → Option Op
  | .node (.query args) => some args.comm
  | .join args => some args.comm
  | .leave args => some args.comm
  | .move args => some args.comm
  | _ => none

/-- The index that a call of `Join`, `Leave` or `Move` waits for. -/
def ChangeCall.index (call : ChangeCall) : Option Int :=
  match call.place with
  | .pollLeader index | .pollCommit index => some index
  | _ => none

namespace Service

variable {n : Nat} {i : Fin n} {service service' : Service n} {action : ServiceAction n} {op : Op}

/-- The commands of the calls that have come in. -/
def comms (service : Service n) : List Op :=
  service.node.queries.map (fun call => call.args.comm) ++ service.changes.map ChangeCall.comm

theorem mem_comms : op ∈ service.comms ↔
    (∃ call ∈ service.node.queries, call.args.comm = op) ∨
      ∃ call ∈ service.changes, call.comm = op := by
  simp [comms]

theorem mem_comms_of_starting {curTerm : Int}
    (starting : service.starting action = some (op, curTerm)) : op ∈ service.comms := by
  unfold Service.starting at starting
  split at starting
  · obtain ⟨call, found, place⟩ := Option.bind_eq_some_iff.1 starting
    split at place
    · cases place
      exact mem_comms.2 (Or.inl ⟨call, List.mem_of_getElem? found, rfl⟩)
    · cases place
  · obtain ⟨call, found, place⟩ := Option.bind_eq_some_iff.1 starting
    split at place
    · cases place
      exact mem_comms.2 (Or.inr ⟨call, List.mem_of_getElem? found, rfl⟩)
    · cases place
  · cases starting

theorem mem_comms_enter {comm : Op} (member : op ∈ (service.enter comm).comms) :
    op ∈ service.comms ∨ comm = op := by
  simp only [comms, enter, List.map_append, List.mem_append] at member ⊢
  rcases member with old | old | new
  · exact Or.inl (Or.inl old)
  · exact Or.inl (Or.inr old)
  · exact Or.inr (List.mem_singleton.1 new).symm

theorem step_comms (own : ∀ input, action ≠ .node (.raft input))
    (stepped : service.step i action = some service')
    (member : op ∈ service'.comms) : op ∈ service.comms ∨ action.arrival = some op := by
  cases action with
  | join args | leave args | move args =>
      obtain rfl := Option.some.inj stepped
      exact (mem_comms_enter member).imp_right (congrArg some)
  | changeHandler k =>
      simp only [step] at stepped
      split at stepped
      · cases stepped
      · rename_i call found
        obtain ⟨⟨node, place⟩, advanced, rfl⟩ := Option.map_eq_some_iff.1 stepped
        have queries : node.queries = service.node.queries := by
          rcases Node.advanceChange_cases advanced with rfl | ⟨_, _, _, _, _, rfl⟩ <;> rfl
        left
        rwa [comms, queries, Clients.map_set_of_eq found] at member
        rfl
  | node action =>
      obtain ⟨_, node, moved, rfl⟩ := step_node stepped
      cases action with
      | raft input => exact absurd rfl (own input)
      | query args =>
          obtain rfl := Option.some.inj moved
          simp only [comms, List.map_append, List.mem_append] at member ⊢
          rcases member with (old | new) | old
          · exact Or.inl (Or.inl old)
          · rw [List.mem_singleton.1 new]
            exact Or.inr rfl
          · exact Or.inl (Or.inr old)
      | handler k =>
          simp only [Node.step] at moved
          split at moved
          · cases moved
          · rename_i call found
            obtain ⟨⟨node, place⟩, advanced, rfl⟩ := Option.map_eq_some_iff.1 moved
            have queries : node.queries = service.node.queries := by
              rcases Node.advance_cases advanced with ⟨_, rfl⟩ | ⟨_, _, _, _, _, rfl⟩ <;> rfl
            left
            rw [comms] at member
            dsimp only at member
            rwa [queries, Clients.map_set_of_eq found] at member
            rfl
      | take =>
          obtain ⟨_, _, rfl⟩ := Option.map_eq_some_iff.1 moved
          exact Or.inl member
      | apply ranges =>
          obtain ⟨_, _, made⟩ := Option.bind_eq_some_iff.1 moved
          obtain ⟨_, _, rfl⟩ := Option.map_eq_some_iff.1 made
          exact Or.inl member
      | restart =>
          obtain rfl := Option.some.inj moved
          simp [comms, Node.boot] at member

/-! ## What a server owes to those who wait -/

/-- The indexes somebody waits for. -/
def awaited (service : Service n) : List Int :=
  service.node.awaited ++ service.changes.filterMap ChangeCall.index

/-- The condition on what happens to the peer: an `AppendEntry` writes nothing behind an index
somebody waits for, and no snapshot is installed. -/
def keepsPeer (service : Service n) : Input n Op Unit → Bool
  | .request (.appendEntry args) =>
      !service.node.rf.accepts args || args.entries.isEmpty ||
        service.awaited.all fun index =>
          index ≤ service.node.rf.commitIndex ∨ index ≤ args.prevLogIndex
  | .request (.installSnapShot args) => !service.node.rf.installs args
  | _ => true

/-- The condition on a step of the service: a call goes on as it should, and a crash takes nothing
back. -/
def keepsCalls (service : Service n) : ServiceAction n → Bool
  | .node (.handler k) => service.node.queries[k]?.all fun call => service.node.goesOn k call
  | .node .restart => service.node.rf.recovers
  | .changeHandler k =>
      service.changes[k]?.all fun call =>
        call.place ≠ .startCheck || service.node.rf.leaderNum == service.node.rf.me
  | _ => true

end Service

/-- A command in range, as `fits` wants it. -/
def Op.fits (op : Op) : Bool := decide op.InRange

/-- What the queries among the commands ask for. -/
def Tells (P : Op → Prop) (numOf : Int → Int → Int) : Prop :=
  ∀ op, P op → op.optype = .queryType → op.num = numOf op.clientID op.proposalID

theorem exists_tells {P : Op → Prop} (regular : configurations.Regular Op.fits 0 P) :
    ∃ numOf, Tells P numOf := by
  classical
  refine ⟨fun client seq =>
    if made : ∃ op, P op ∧ op.clientID = client ∧ op.proposalID = seq then made.choose.num else 0,
    fun op made _ => ?_⟩
  have known : ∃ op', P op' ∧ op'.clientID = op.clientID ∧ op'.proposalID = op.proposalID :=
    ⟨op, made, rfl, rfl⟩
  obtain ⟨made', client, seq⟩ := known.choose_spec
  dsimp only
  rw [dif_pos known, ← regular.once op _ made made' client.symm seq.symm]

namespace Node

variable {n : Nat} {i : Fin n} {node node' : Node n} {call : ChangeCall}

/-- The command of a call that waits is still to come, or it was delivered. -/
def Owes (node : Node n) (call : ChangeCall) : Prop :=
  ∀ index, call.index = some index →
    node.rf.Awaits node.taken node.sm.curCommitIndex call.comm index ∨
      ⟨true, some call.comm, index, none⟩ ∈ node.rf.applyCh

/-- The peer moves and the command stays. -/
theorem Owes.feed (owes : node.Owes call) (taken : node'.taken = node.taken)
    (reached : node'.sm.curCommitIndex = node.sm.curCommitIndex)
    (channel : ∃ messages, node'.rf.applyCh = node.rf.applyCh ++ messages)
    (stay : ∀ index, call.index = some index →
      node.rf.Awaits node.taken node.sm.curCommitIndex call.comm index →
        node'.rf.Awaits node.taken node.sm.curCommitIndex call.comm index) : node'.Owes call := by
  intro index waiting
  obtain ⟨messages, channel⟩ := channel
  rw [taken, reached, channel]
  exact (owes index waiting).imp (stay index waiting) (List.mem_append_left _)

/-- Nothing of what a call waits for changes. -/
theorem Owes.congr (owes : node.Owes call) (rf : node'.rf = node.rf)
    (taken : node'.taken = node.taken)
    (reached : node'.sm.curCommitIndex = node.sm.curCommitIndex) : node'.Owes call := by
  unfold Owes
  rw [rf, taken, reached]
  exact owes

theorem Owes.startAppend (owes : node.Owes call)
    (feeds : node.server.Feeds i node.taken node.sm.curCommitIndex) {comm : Op}
    {curTerm index : Int} {rf : Raft Op Unit}
    (appended : node.rf.startAppend comm curTerm = some (rf, index)) :
    Owes { node with server := { node.server with rf := rf } } call := by
  obtain ⟨_, ⟨_, _, _, channel⟩, _, stay⟩ := feeds.startAppend appended
  exact owes.feed rfl rfl ⟨_, channel⟩ fun index _ => stay _ index

theorem Owes.take (owes : node.Owes call) {numOf : Int → Int → Int} (serves : node.Serves numOf i)
    (taken : node.step i .take = some node') : node'.Owes call := by
  obtain ⟨⟨index, op⟩, next, rfl⟩ := Option.map_eq_some_iff.1 taken
  obtain ⟨_, message, found, command, rfl⟩ := nextCommand_cases next
  have valid := serves.valid node.taken message le_rfl found (by simp [command])
  intro index waiting
  rcases owes index waiting with awaits | delivered
  · rcases awaits.take found with ⟨rfl, _⟩ | still
    · exact Or.inr (List.mem_of_getElem? found)
    · exact Or.inl (still _ (.inr ⟨valid, rfl⟩))
  · exact Or.inr delivered

/-- A step of the shard master that is no crash. -/
theorem Owes.step (owes : node.Owes call) {numOf : Int → Int → Int} {action : NodeAction n}
    (serves : node.Serves numOf i) (own : ∀ input, action ≠ .raft input)
    (up : action ≠ .restart) (moved : node.step i action = some node') : node'.Owes call := by
  cases action with
  | raft input => exact absurd rfl (own input)
  | restart => exact absurd rfl up
  | take => exact owes.take serves moved
  | apply ranges =>
      obtain ⟨⟨_, op⟩, _, made⟩ := Option.bind_eq_some_iff.1 moved
      obtain ⟨sm, applied, rfl⟩ := Option.map_eq_some_iff.1 made
      exact owes.congr rfl rfl (ShardMaster.applyOp_results applied).1
  | query args =>
      obtain rfl := Option.some.inj moved
      exact owes.congr rfl rfl rfl
  | handler k =>
      simp only [Node.step] at moved
      split at moved
      · cases moved
      · rename_i other found
        obtain ⟨⟨after, place⟩, advanced, rfl⟩ := Option.map_eq_some_iff.1 moved
        rcases advance_cases advanced with ⟨results, rfl⟩ | ⟨_, rf, _, _, appended, rfl⟩
        · exact owes.congr rfl rfl rfl
        · exact (owes.startAppend serves.feeds appended).congr rfl rfl rfl

end Node

namespace Service

variable {n : Nat} {i : Fin n} {service service' : Service n} {action : ServiceAction n}
  {P : Op → Prop}

/-- Between the steps of a service whose clients have made the commands that `P` says. -/
structure Serves (P : Op → Prop) (i : Fin n) (service : Service n) : Prop where
  feeds : service.node.server.Feeds i service.node.taken service.node.sm.curCommitIndex
  queries : ∀ numOf, Tells P numOf → service.node.Serves numOf i
  changes : ∀ call ∈ service.changes, call.comm.optype ≠ .queryType ∧ service.node.Owes call

namespace Serves

theorem boot (P : Op → Prop) (i : Fin n) : (Service.boot i).Serves P i where
  feeds := .boot i (Raft.stands_boot n i [])
  queries _ _ := .boot i (Raft.stands_boot n i []) []
  changes := by simp [Service.boot]

theorem mono {P' : Op → Prop} (serves : service.Serves P i) (weaker : ∀ op, P op → P' op) :
    service.Serves P' i where
  feeds := serves.feeds
  queries numOf tells := serves.queries numOf fun op made => tells op (weaker op made)
  changes := serves.changes

/-- The peer moves and the commands somebody waits for stay. -/
theorem feed (serves : service.Serves P i) {server : Server n Op Unit}
    (feeds : server.Feeds i service.node.taken service.node.sm.curCommitIndex)
    (channel : ∃ l a count,
      server.rf.applyCh = service.node.rf.applyCh ++ deliveries Unit l a count)
    (stay : ∀ index ∈ service.awaited, ∀ comm,
      service.node.rf.Awaits service.node.taken service.node.sm.curCommitIndex comm index →
        server.rf.Awaits service.node.taken service.node.sm.curCommitIndex comm index) :
    Serves P i { service with node := { service.node with server := server } } where
  feeds := feeds
  queries numOf tells := by
    refine (serves.queries numOf tells).feed feeds channel fun call member index waiting => ?_
    exact stay index (List.mem_append_left _ (List.mem_filterMap.2 ⟨call, member, waiting⟩)) _
  changes call member := by
    obtain ⟨change, owes⟩ := serves.changes call member
    obtain ⟨_, _, _, channel⟩ := channel
    refine ⟨change, owes.feed rfl rfl ⟨_, channel⟩ fun index waiting => ?_⟩
    exact stay index (List.mem_append_right _ (List.mem_filterMap.2 ⟨call, member, waiting⟩)) _

theorem peer (serves : service.Serves P i) {input : Input n Op Unit} {server : Server n Op Unit}
    {output : Output n Op Unit} (kept : service.keepsPeer input = true)
    (own : input.ofService = false)
    (stepped : service.node.server.step i input = some (server, output)) :
    Serves P i { service with node := { service.node with server := server } } := by
  have up : input ≠ .restart := by
    rintro rfl
    cases own
  have keeps : ∀ args, input = .request (.installSnapShot args) →
      service.node.rf.installs args = false := by
    rintro args rfl
    simpa [keepsPeer] using kept
  obtain ⟨feeds, channel, stay⟩ := serves.feeds.step stepped up keeps
  refine serves.feed feeds channel fun index awaits comm => stay comm index ?_
  rintro above args rfl accepts entries
  simp only [keepsPeer, accepts, Bool.not_true, Bool.false_or, Bool.or_eq_true,
    List.isEmpty_iff, entries, false_or, List.all_eq_true, decide_eq_true_eq] at kept
  exact (kept index awaits).resolve_left (not_le.2 above)

/-- The conditions of a node are met, whatever the queries ask for. -/
theorem keeps (regular : configurations.Regular Op.fits 0 P) {action : NodeAction n}
    {numOf : Int → Int → Int} (tells : Tells P numOf) (own : ∀ input, action ≠ .raft input)
    (kept : service.keepsCalls (.node action) = true)
    (arrives : ∀ op, (ServiceAction.node action).arrival = some op → P op)
    (delivered : ∀ message ∈ service.node.rf.applyCh, ∀ op ∈ message.command, P op) :
    service.node.Keeps numOf action := by
  cases action with
  | raft input => exact absurd rfl (own input)
  | apply ranges => rfl
  | handler k | restart => exact kept
  | query args =>
      have made := arrives args.comm rfl
      exact decide_eq_true ⟨of_decide_eq_true (regular.fits _ made), tells _ made rfl⟩
  | take =>
      simp only [Node.Keeps, Node.keepsQueries, Option.all_eq_true]
      rintro ⟨index, op⟩ next
      obtain ⟨_, message, found, command, _⟩ := Node.nextCommand_cases next
      have made := delivered message (List.mem_of_getElem? found) op command
      by_cases query : op.optype = .queryType
      · have asked := tells op made query
        have inRange : op.InRange := of_decide_eq_true (regular.fits op made)
        simp [inRange, asked]
      · simp [query]

theorem node (serves : service.Serves P i) (regular : configurations.Regular Op.fits 0 P)
    {action : NodeAction n} {node : Node n} (own : ∀ input, action ≠ .raft input)
    (kept : service.keepsCalls (.node action) = true)
    (arrives : ∀ op, (ServiceAction.node action).arrival = some op → P op)
    (delivered : ∀ message ∈ service.node.rf.applyCh, ∀ op ∈ message.command, P op)
    (moved : service.node.step i action = some node) :
    Serves P i ⟨node, if action = .restart then [] else service.changes⟩ := by
  have queries : ∀ numOf, Tells P numOf → node.Serves numOf i := fun numOf tells =>
    (serves.queries numOf tells).step (keeps regular tells own kept arrives delivered) moved
  obtain ⟨numOf, tells⟩ := exists_tells regular
  refine ⟨(queries numOf tells).feeds, queries, fun call member => ?_⟩
  dsimp only at member
  split_ifs at member with crash
  · cases member
  · obtain ⟨change, owes⟩ := serves.changes call member
    exact ⟨change, owes.step (serves.queries numOf tells) own crash moved⟩

/-- A call of `Join`, `Leave` or `Move` comes in. -/
theorem enter (serves : service.Serves P i) {comm : Op} (change : comm.optype ≠ .queryType) :
    (service.enter comm).Serves P i where
  feeds := serves.feeds
  queries := serves.queries
  changes call member := by
    rcases List.mem_append.1 member with old | new
    · exact serves.changes call old
    · rw [List.mem_singleton.1 new]
      exact ⟨change, fun _ waiting => by cases waiting⟩

/-- A call of `Join`, `Leave` or `Move` has gone on to another place. -/
theorem moveTo (serves : service.Serves P i) {k : Nat} {call : ChangeCall} {place : ChangePlace}
    (found : service.changes[k]? = some call)
    (owes : service.node.Owes ⟨call.comm, place⟩) :
    Serves P i { service with changes := service.changes.set k { call with place := place } } where
  feeds := serves.feeds
  queries := serves.queries
  changes other member := by
    rcases List.mem_or_eq_of_mem_set member with old | rfl
    · exact serves.changes other old
    · exact ⟨(serves.changes call (List.mem_of_getElem? found)).1, owes⟩

theorem changeHandler (serves : service.Serves P i) {k : Nat} {call : ChangeCall}
    {place : ChangePlace} {node : Node n} (kept : service.keepsCalls (.changeHandler k) = true)
    (found : service.changes[k]? = some call)
    (advanced : service.node.advanceChange call = some (node, place)) :
    Serves P i ⟨node, service.changes.set k { call with place := place }⟩ := by
  simp only [keepsCalls, found, Option.all_some] at kept
  have owes := (serves.changes call (List.mem_of_getElem? found)).2
  obtain ⟨comm, at'⟩ := call
  cases at' with
  | readLeader =>
      cases advanced
      refine serves.moveTo found fun index waiting => ?_
      split_ifs at waiting <;> cases waiting
  | startCheck =>
      -- The condition: the call enters `Start` as the leader.
      simp only [ne_eq, not_true_eq_false, decide_false, Bool.false_or, beq_iff_eq] at kept
      simp only [Node.advanceChange, Raft.startCheck, kept, ne_eq, not_true_eq_false, if_false]
        at advanced
      cases advanced
      exact serves.moveTo found fun index waiting => by cases waiting
  | startAppend curTerm =>
      obtain ⟨⟨rf, index⟩, appended, equal⟩ := Option.map_eq_some_iff.1 advanced
      cases equal
      obtain ⟨feeds, channel, awaits, stay⟩ := serves.feeds.startAppend appended
      have serves' := serves.feed feeds channel fun index _ comm => stay comm index
      refine serves'.moveTo found fun index waiting => ?_
      cases waiting
      exact Or.inl awaits
  | pollLeader index =>
      cases advanced
      refine serves.moveTo found fun index waiting => ?_
      split_ifs at waiting <;> cases waiting
      exact owes _ rfl
  | pollCommit index =>
      cases advanced
      refine serves.moveTo found fun index waiting => ?_
      split_ifs at waiting <;> cases waiting
      exact owes _ rfl
  | replied wrongLeader => cases advanced

theorem step (serves : service.Serves P i) (regular : configurations.Regular Op.fits 0 P)
    (kept : service.keepsCalls action = true) (arrives : ∀ op, action.arrival = some op → P op)
    (delivered : ∀ message ∈ service.node.rf.applyCh, ∀ op ∈ message.command, P op)
    (own : ∀ input, action ≠ .node (.raft input))
    (stepped : service.step i action = some service') : service'.Serves P i := by
  cases action with
  | join args | leave args | move args =>
      obtain rfl := Option.some.inj stepped
      exact serves.enter (by simp [JoinArgs.comm, LeaveArgs.comm, MoveArgs.comm])
  | changeHandler k =>
      simp only [Service.step] at stepped
      split at stepped
      · cases stepped
      · rename_i call found
        obtain ⟨⟨node, place⟩, advanced, rfl⟩ := Option.map_eq_some_iff.1 stepped
        exact serves.changeHandler kept found advanced
  | node action =>
      obtain ⟨_, node, moved, rfl⟩ := step_node stepped
      have own' : ∀ input, action ≠ .raft input := fun input equal => own input (equal ▸ rfl)
      exact serves.node regular own' kept arrives delivered moved

end Serves

/-! ## What is answered -/

/-- What the handler that has just gone on has answered as the leader. -/
def replies (service : Service n) : ServiceAction n → List (Op × Option Config)
  | .node (.handler k) =>
      match service.node.queries[k]? with
      | some ⟨args, .replied false config⟩ => [(args.comm, config)]
      | _ => []
  | .changeHandler k =>
      match service.changes[k]? with
      | some ⟨comm, .replied false⟩ => [(comm, none)]
      | _ => []
  | _ => []

variable {ops : List Op} {p k : Nat} {op : Op} {answer : Option Config}

/-- A command that is acknowledged was delivered, under an index that the server has reached. -/
theorem delivered_of_acknowledged (serves : service.Serves P i)
    (stepped : service.step i (.changeHandler k) = some service')
    (found : service'.changes[k]? = some ⟨op, .replied false⟩) :
    op ∈ service.comms ∧ op.optype ≠ .queryType ∧ ∃ index ≤ service.node.sm.curCommitIndex,
      ⟨true, some op, index, none⟩ ∈ service.node.rf.applyCh := by
  simp only [Service.step] at stepped
  split at stepped
  · cases stepped
  · rename_i call found'
    obtain ⟨⟨node, place⟩, advanced, rfl⟩ := Option.map_eq_some_iff.1 stepped
    have inside := (List.getElem?_eq_some_iff.1 found').1
    dsimp only at found
    rw [List.getElem?_set_self inside] at found
    cases found
    obtain ⟨index, waits, reached⟩ := Node.advanceChange_acknowledges advanced
    have member := List.mem_of_getElem? found'
    obtain ⟨change, owes⟩ := serves.changes call member
    refine ⟨mem_comms.2 (Or.inr ⟨call, member, rfl⟩), change, index, reached, ?_⟩
    rcases owes index (by simp [ChangeCall.index, waits]) with awaits | delivered
    · exact absurd (awaits.lt serves.feeds.applied) (not_lt.2 reached)
    · exact delivered

/-- What a `Query` answers was read for its request. -/
theorem read_of_answered {numOf : Int → Int → Int} (serves : service.node.Serves numOf i)
    (kept : service.keepsCalls (.node (.handler k)) = true) {args : QueryArgs}
    (stepped : service.step i (.node (.handler k)) = some service')
    (found : service'.node.queries[k]? = some ⟨args, .replied false answer⟩) :
    args.comm ∈ service.comms ∧ ∃ config, answer = some config ∧
      service.node.Read args.clientID args.commSeq args.num config := by
  obtain ⟨_, node, moved, rfl⟩ := step_node stepped
  have kept' : service.node.Keeps numOf (.handler k) := kept
  obtain ⟨config, answered, read⟩ :=
    ((serves.step kept' moved).calls _ (List.mem_of_getElem? found)).answered answer rfl
  simp only [Node.step] at moved
  split at moved
  · cases moved
  · rename_i call found'
    obtain ⟨⟨after, place⟩, advanced, rfl⟩ := Option.map_eq_some_iff.1 moved
    have same : after.queries = service.node.queries ∧ after.applied = service.node.applied := by
      rcases Node.advance_cases advanced with ⟨_, rfl⟩ | ⟨_, _, _, _, _, rfl⟩ <;> exact ⟨rfl, rfl⟩
    have inside := (List.getElem?_eq_some_iff.1 found').1
    dsimp only at found
    rw [same.1, List.getElem?_set_self inside] at found
    cases found
    exact ⟨mem_comms.2 (Or.inl ⟨call, List.mem_of_getElem? found', rfl⟩), config, answered,
      read.mono fun _ old => same.2 ▸ old⟩

/-- What is answered rests on the commands that were applied. -/
theorem answered_of_replied (serves : service.Serves P i)
    (regular : configurations.Regular Op.fits 0 P) (follows : service.Follows ops p)
    (delivered : ∀ {index : Int} {op : Op},
      ⟨true, some op, index, none⟩ ∈ service.node.rf.applyCh → index ≤ ops.length → op ∈ ops)
    (kept : service.keepsCalls action = true) (stepped : service.step i action = some service')
    (replied : (op, answer) ∈ service'.replies action) :
    op ∈ service.comms ∧ configurations.Answered ops op answer := by
  obtain ⟨q, follows⟩ := follows
  unfold replies at replied
  split at replied
  · split at replied
    · rename_i args config found
      obtain ⟨rfl, rfl⟩ : op = args.comm ∧ answer = config := by simpa using replied
      obtain ⟨numOf, tells⟩ := exists_tells regular
      obtain ⟨member, config, rfl, other, sm, applied, query, client, seq, num, asked⟩ :=
        read_of_answered (serves.queries numOf tells) kept stepped found
      have read : configurations.isWrite other = false := by simp [configurations, query]
      obtain ⟨g, position, configs⟩ := follows.applied other sm applied
      refine ⟨member, fun write => absurd write (by simp [configurations, QueryArgs.comm]),
        fun _ => ⟨other, g, g, client, seq, read, position, le_rfl,
          (List.getElem?_eq_some_iff.1 position).1.le, ?_⟩⟩
      rw [← asked, ← configs]
      rfl
    · cases replied
  · split at replied
    · rename_i comm found
      obtain ⟨rfl, rfl⟩ : op = comm ∧ answer = none := by simpa using replied
      obtain ⟨member, change, index, reached, sent⟩ :=
        delivered_of_acknowledged serves stepped found
      have write := isWrite_iff.2 change
      have behind := follows.reached
      have within := follows.within
      exact ⟨member, fun _ => ⟨op, delivered sent (by omega), write, rfl, le_rfl⟩,
        fun read => absurd write (by simp [read])⟩
    · cases replied
  · cases replied

end Service

/-- The shard master on its peer, as its clients see it. -/
def serving (n : Nat) : Serving n Op (Option Config) Unit (Service n) (ServiceAction n) where
  host := host n
  arrival := ServiceAction.arrival
  replies := Service.replies
  comms := Service.comms
  keepsPeer := Service.keepsPeer
  keepsService := Service.keepsCalls

theorem serving_lawful (n : Nat) : (serving n).Lawful configurations Op.fits 0 NoSnapshot
    Service.Follows Service.Serves where
  replica := host_replica n
  starting := Service.mem_comms_of_starting
  comms_withServer _ _ := rfl
  comms_boot _ := rfl
  comms_step next member := Service.step_comms (host_step next).1 (host_step next).2 member
  serves_boot i := .boot _ i
  serves_mono serves weaker := serves.mono weaker
  serves_peer serves kept own stepped := serves.peer kept own stepped
  serves_step serves regular kept arrives delivered next :=
    serves.step regular kept arrives delivered (host_step next).1 (host_step next).2
  replied serves regular follows _ _ delivered kept next replied :=
    Service.answered_of_replied serves regular follows delivered kept (host_step next).2 replied

/-! ## Linearizability -/

/-- The shard masters on `n` servers with their clerks. -/
def setting (n : Nat) : Clients.Setting n Op (Option Config) (List Config) (Deployment n)
    (DeploymentAction n) Clerk ClerkCall :=
  (serving n).setting configurations Op.fits (clerks n)

abbrev World (n : Nat) := Clients.World n Op (Option Config) (Deployment n) Clerk

abbrev WorldAction (n : Nat) := Clients.WorldAction n (DeploymentAction n) ClerkCall

namespace World

variable {n : Nat} {s : World n}

def init (n : Nat) : World n := Clients.World.init (setting n)

def step (s : World n) (action : WorldAction n) : Option (World n) :=
  Clients.World.step (setting n) s action

/-- A client waits for its answers, and its number and those of its calls are in range. The servers
keep what is committed and what somebody waits for. -/
def Keeps (s : World n) (action : WorldAction n) : Prop := Clients.World.Keeps (setting n) s action

instance (s : World n) (action : WorldAction n) : Decidable (s.Keeps action) :=
  inferInstanceAs (Decidable (Clients.World.Keeps (setting n) s action))

end World

end Mit6824.Shards
