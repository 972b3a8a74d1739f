import Mit6824.Dedup
import Mit6824.KvRaft.Node
import Mit6824.Runs

/-!
# Get

A call of the `Get` handler starts its command and polls `resultMap` under the id of the
request until `mainProcess` has put a value there. A retried request finds what an earlier
attempt has left, and another client's result would be found under the same id.

A `Service` is a node with the calls of `Get` that came in. `applied` is not part of the
program: it records the commands that were applied, each with the store it found.
-/

namespace Mit6824.KvRaft

structure GetArgs where
  key : String
  clientID : Int
  commSeq : Int
  deriving DecidableEq, Repr

/-- The command the handler starts. -/
def GetArgs.comm (args : GetArgs) : Op :=
  { clientID := args.clientID, proposalID := args.commSeq, optype := .getType
    key := args.key, value := "" }

/-- Where a call of `Get` is. -/
inductive GetPlace where
  /-- About to ask for the leader. -/
  | readLeader
  /-- About to enter `Start`. -/
  | startCheck
  /-- Between the critical sections of `Start`. -/
  | startAppend (curTerm : Int)
  /-- At the head of the loop. -/
  | pollLeader
  /-- About to look into `resultMap`. -/
  | pollResult
  | replied (wrongLeader : Bool) (value : String)
  deriving DecidableEq, Repr

structure GetCall where
  args : GetArgs
  place : GetPlace
  deriving DecidableEq, Repr

structure Service (n : Nat) where
  node : Node n
  gets : List GetCall
  applied : List (Op × GoMap String String)
  deriving DecidableEq

inductive ServiceAction (n : Nat) where
  /-- A step of the node. -/
  | node (action : NodeAction n)
  /-- A call of `Get` comes in. -/
  | get (args : GetArgs)
  /-- A call of `Get` goes on. -/
  | getHandler (call : Nat)
  deriving DecidableEq

namespace Node

variable {n : Nat}

/-- `Get` up to its next access to shared state. -/
def advanceGet (node : Node n) (call : GetCall) : Option (Node n × GetPlace) :=
  match call.place with
  | .readLeader =>
      some (node, if node.rf.leaderNum ≠ node.rf.me then .replied true "" else .startCheck)
  | .startCheck =>
      match node.rf.startCheck with
      | none => some (node, .pollLeader)
      | some curTerm => some (node, .startAppend curTerm)
  | .startAppend curTerm =>
      (node.rf.startAppend call.args.comm curTerm).map fun (rf, _) =>
        ({ node with server := { node.server with rf := rf } }, .pollLeader)
  | .pollLeader =>
      some (node, if node.rf.leaderNum ≠ node.rf.me then .replied true "" else .pollResult)
  | .pollResult =>
      match node.kv.resultMap.lookup call.args.comm.commID with
      | some value => some (node, .replied false value)
      | none => some (node, .pollLeader)
  | .replied _ _ => none

/-- The command that `mainProcess` takes next. -/
def nextCommand (node : Node n) : Option Op :=
  match node.rf.applyCh[node.taken]? with
  | none => none
  | some message => if message.commandValid then message.command else none

end Node

namespace Service

variable {n : Nat}

def boot (i : Fin n) (persister : Persister Op Saved) (applyCh : List (ApplyMsg Op Saved)) :
    Service n :=
  { node := .boot i persister applyCh, gets := [], applied := [] }

/-- What a step of the node adds to the record. -/
def record (service : Service n) : NodeAction n → List (Op × GoMap String String)
  | .apply => (service.node.nextCommand.map fun op => (op, service.node.kv.rsm)).toList
  | _ => []

def step (i : Fin n) (service : Service n) : ServiceAction n → Option (Service n)
  | .node action =>
      (service.node.step i action).map fun node =>
        { node := node
          gets := if action = .restart then [] else service.gets
          applied := service.applied ++ service.record action }
  | .get args => some { service with gets := service.gets ++ [⟨args, .readLeader⟩] }
  | .getHandler k =>
      match service.gets[k]? with
      | none => none
      | some call =>
          (service.node.advanceGet call).map fun (node, place) =>
            { service with node := node, gets := service.gets.set k { call with place := place } }

end Service

/-- The client is an `int32`, and the number fits into the lower half of the id. -/
def Op.InRange (op : Op) : Prop :=
  -2 ^ 31 ≤ op.clientID ∧ op.clientID < 2 ^ 31 ∧ 0 ≤ op.proposalID ∧ op.proposalID < 2 ^ 32

instance (op : Op) : Decidable op.InRange :=
  inferInstanceAs (Decidable (_ ∧ _))

/-- In range the id tells the client and the number. -/
theorem Op.commID_injective {op op' : Op} (inRange : op.InRange) (inRange' : op'.InRange)
    (equal : op.commID = op'.commID) :
    op.clientID = op'.clientID ∧ op.proposalID = op'.proposalID :=
  Dedup.packed_injective inRange inRange' equal

namespace Node

variable {n : Nat} {i : Fin n} {node node' : Node n}

theorem advance_resultMap {call : Call} {place : Place}
    (advanced : node.advance call = some (node', place)) :
    node'.kv.resultMap = node.kv.resultMap := by
  obtain ⟨comm, place₀⟩ := call
  cases place₀ with
  | addClient leaderNum =>
      obtain ⟨rfl, _⟩ := Prod.mk.inj (Option.some.inj advanced)
      dsimp only [KVServer.addClient]
      split_ifs <;> rfl
  | startCheck =>
      simp only [advance] at advanced
      split at advanced
      all_goals
        obtain ⟨rfl, _⟩ := Prod.mk.inj (Option.some.inj advanced)
        rfl
  | startAppend curTerm =>
      obtain ⟨_, _, equal⟩ := Option.map_eq_some_iff.1 advanced
      obtain ⟨rfl, _⟩ := Prod.mk.inj equal
      rfl
  | replied wrongLeader => cases advanced
  | readLeader | pollLeader index | pollCommit index =>
      obtain ⟨rfl, _⟩ := Prod.mk.inj (Option.some.inj advanced)
      rfl

/-- Only `mainProcess` and a crash change what is stored. -/
theorem step_resultMap {action : NodeAction n} (stepped : node.step i action = some node')
    (notApply : action ≠ .apply) (notRestart : action ≠ .restart) :
    node'.kv.resultMap = node.kv.resultMap := by
  cases action with
  | apply => exact absurd rfl notApply
  | restart => exact absurd rfl notRestart
  | putAppend args =>
      obtain rfl := Option.some.inj stepped
      rfl
  | raft input =>
      obtain ⟨_, _, _, _, rfl⟩ := raft_cases stepped
      rfl
  | takeSnapshots index =>
      simp only [step] at stepped
      split_ifs at stepped
      obtain ⟨_, _, rfl⟩ := Option.map_eq_some_iff.1 stepped
      rfl
  | handler k =>
      simp only [step] at stepped
      split at stepped
      · cases stepped
      · rename_i call _
        obtain ⟨⟨node₁, place⟩, advanced, rfl⟩ := Option.map_eq_some_iff.1 stepped
        dsimp only
        rw [advance_resultMap advanced]

/-- What `mainProcess` stores when it takes a message. -/
theorem step_apply (stepped : node.step i .apply = some node') :
    (∃ op, node.nextCommand = some op ∧ op.optype = .getType ∧
      node'.kv.resultMap = node.kv.resultMap.insert op.commID (node.kv.value op.key)) ∨
    node'.kv.resultMap = node.kv.resultMap := by
  simp only [step] at stepped
  split at stepped
  · cases stepped
  rename_i message next
  obtain ⟨kv, applied, rfl⟩ := Option.map_eq_some_iff.1 stepped
  rcases KVServer.apply_cases applied with ⟨op, valid, command, rfl⟩ | ⟨_, _, _, rfl⟩
  · by_cases write : op.isWrite = true
    · right
      dsimp only
      rcases le_or_gt op.proposalID (node.kv.maxSeq op.clientID) with old | new
      · rw [KVServer.applyOp_old write old]
      · rw [KVServer.applyOp_new write new]
    · have get : op.optype = .getType := not_not.1 (mt Op.isWrite_iff.2 write)
      refine Or.inl ⟨op, by simp only [nextCommand, next, valid, command, if_true], get, ?_⟩
      dsimp only
      rw [KVServer.applyOp_get get]
  · exact Or.inr rfl

/-- `Get` changes nothing that is stored, and answers with what is stored under its id. -/
theorem advanceGet_spec {call : GetCall} {place : GetPlace}
    (advanced : node.advanceGet call = some (node', place)) :
    node'.kv = node.kv ∧ ∀ value, place = .replied false value →
      node.kv.resultMap.lookup call.args.comm.commID = some value := by
  obtain ⟨args, place₀⟩ := call
  cases place₀ with
  | readLeader | pollLeader =>
      obtain ⟨rfl, rfl⟩ := Prod.mk.inj (Option.some.inj advanced)
      refine ⟨rfl, fun value replied => ?_⟩
      split_ifs at replied
      all_goals cases replied
  | startCheck =>
      simp only [advanceGet] at advanced
      split at advanced
      all_goals
        obtain ⟨rfl, rfl⟩ := Prod.mk.inj (Option.some.inj advanced)
        exact ⟨rfl, fun value replied => by cases replied⟩
  | startAppend curTerm =>
      obtain ⟨_, _, equal⟩ := Option.map_eq_some_iff.1 advanced
      obtain ⟨rfl, rfl⟩ := Prod.mk.inj equal
      exact ⟨rfl, fun value replied => by cases replied⟩
  | pollResult =>
      simp only [advanceGet] at advanced
      split at advanced
      · rename_i stored found
        obtain ⟨rfl, rfl⟩ := Prod.mk.inj (Option.some.inj advanced)
        refine ⟨rfl, fun value replied => ?_⟩
        cases replied
        exact found
      · obtain ⟨rfl, rfl⟩ := Prod.mk.inj (Option.some.inj advanced)
        exact ⟨rfl, fun value replied => by cases replied⟩
  | replied wrongLeader value => cases advanced

end Node

namespace Service

variable {n : Nat} {i : Fin n} {service service' : Service n} {action : ServiceAction n}

/-- A `Get` that is applied or requested has an id in range, and each client asks for one key
under one number: `keyOf` says for which. -/
def keyed (keyOf : Int → Int → String) (service : Service n) : ServiceAction n → Bool
  | .node .apply =>
      service.node.nextCommand.all fun op =>
        op.optype ≠ .getType ||
          decide (op.InRange ∧ op.key = keyOf op.clientID op.proposalID)
  | .get args => decide (args.comm.InRange ∧ args.key = keyOf args.clientID args.commSeq)
  | _ => true

/-- The value is what the store had for the key when a `Get` of the client with the number was
applied. -/
def Read (service : Service n) (client seq : Int) (key value : String) : Prop :=
  ∃ (op : Op) (store : GoMap String String), (op, store) ∈ service.applied ∧
    op.optype = .getType ∧ op.clientID = client ∧ op.proposalID = seq ∧
    value = (store.lookup key).getD ""

/-- What is stored and what was answered was read for the request. -/
structure Answers (keyOf : Int → Int → String) (service : Service n) : Prop where
  stored : ∀ {id value}, service.node.kv.resultMap.lookup id = some value →
    ∃ op : Op, op.InRange ∧ op.commID = id ∧
      service.Read op.clientID op.proposalID (keyOf op.clientID op.proposalID) value
  requested : ∀ call ∈ service.gets, call.args.comm.InRange ∧
    call.args.key = keyOf call.args.clientID call.args.commSeq
  answered : ∀ call ∈ service.gets, ∀ value, call.place = .replied false value →
    service.Read call.args.clientID call.args.commSeq call.args.key value

theorem Read.mono {client seq : Int} {key value : String}
    (read : service.Read client seq key value) (more : service.applied ⊆ service'.applied) :
    service'.Read client seq key value := by
  obtain ⟨op, store, member, rest⟩ := read
  exact ⟨op, store, more member, rest⟩

theorem answers_boot (keyOf : Int → Int → String) (i : Fin n) (persister : Persister Op Saved)
    (applyCh : List (ApplyMsg Op Saved)) : (boot i persister applyCh).Answers keyOf where
  stored found := by simp [boot, Node.boot, KVServer.start] at found
  requested call member := absurd member List.not_mem_nil
  answered call member := absurd member List.not_mem_nil

/-- What the results that are stored afterwards were read for. -/
theorem stored_after {keyOf : Int → Int → String} {action : NodeAction n} {node' : Node n}
    (meets : service.keyed keyOf (.node action) = true)
    (stepped : service.node.step i action = some node') {id : Int} {value : String}
    (found : node'.kv.resultMap.lookup id = some value) :
    service.node.kv.resultMap.lookup id = some value ∨
      ∃ op : Op, op.InRange ∧ op.commID = id ∧ op.optype = .getType ∧
        (op, service.node.kv.rsm) ∈ service.record action ∧
        value = service.node.kv.value (keyOf op.clientID op.proposalID) := by
  by_cases restarts : action = .restart
  · subst restarts
    obtain rfl := Option.some.inj stepped
    simp [Node.boot, KVServer.start] at found
  by_cases applies : action = .apply
  · subst applies
    rcases Node.step_apply stepped with ⟨op, next, get, stored⟩ | same
    · rw [stored] at found
      by_cases here : id = op.commID
      · subst here
        rw [Finmap.lookup_insert] at found
        obtain rfl := Option.some.inj found
        simp only [keyed, next, Option.all_some, get, ne_eq, not_true_eq_false, decide_false,
          Bool.false_or, decide_eq_true_eq] at meets
        refine Or.inr ⟨op, meets.1, rfl, get, by simp [record, next], ?_⟩
        rw [← meets.2]
      · rw [Finmap.lookup_insert_of_ne _ here] at found
        exact Or.inl found
    · exact Or.inl (same ▸ found)
  · exact Or.inl (Node.step_resultMap stepped applies restarts ▸ found)

namespace Answers

variable {keyOf : Int → Int → String}

theorem node (answers : service.Answers keyOf) {action : NodeAction n}
    (meets : service.keyed keyOf (.node action) = true)
    (stepped : service.step i (.node action) = some service') : service'.Answers keyOf := by
  simp only [Service.step] at stepped
  obtain ⟨node', moved, rfl⟩ := Option.map_eq_some_iff.1 stepped
  have kept : (if action = .restart then [] else service.gets) ⊆ service.gets := by
    split_ifs
    · exact List.nil_subset _
    · exact List.Subset.refl _
  refine ⟨fun {id value} found => ?_, fun call member => answers.requested call (kept member),
    fun call member value replied => (answers.answered call (kept member) value replied).mono
      (List.subset_append_left _ _)⟩
  rcases stored_after meets moved found with old | ⟨op, inRange, same, get, taken, equal⟩
  · obtain ⟨op, inRange, same, read⟩ := answers.stored old
    exact ⟨op, inRange, same, read.mono (List.subset_append_left _ _)⟩
  · exact ⟨op, inRange, same, op, _, List.mem_append_right _ taken, get, rfl, rfl, equal⟩

/-- A call goes on. -/
theorem getHandler (answers : service.Answers keyOf) {k : Nat} {call : GetCall}
    (at' : service.gets[k]? = some call) {node' : Node n} {place : GetPlace}
    (advanced : service.node.advanceGet call = some (node', place)) :
    Answers keyOf { service with
      node := node', gets := service.gets.set k { call with place := place } } := by
  obtain ⟨kv, found⟩ := Node.advanceGet_spec advanced
  have member : call ∈ service.gets := List.mem_of_getElem? at'
  obtain ⟨inRange, key⟩ := answers.requested call member
  refine ⟨fun {id value} stored => ?_, fun other after => ?_, fun other after value replied => ?_⟩
  · dsimp only at stored
    rw [kv] at stored
    exact answers.stored stored
  · rcases List.mem_or_eq_of_mem_set after with old | rfl
    · exact answers.requested other old
    · exact ⟨inRange, key⟩
  · rcases List.mem_or_eq_of_mem_set after with old | rfl
    · exact answers.answered other old value replied
    · -- The id of the request is the id of the command that was read.
      obtain ⟨op, inRange', same, read⟩ := answers.stored (found value replied)
      obtain ⟨client, seq⟩ := Op.commID_injective inRange' inRange same
      rw [client, seq] at read
      dsimp only
      rw [key]
      exact read

theorem step (answers : service.Answers keyOf) (meets : service.keyed keyOf action = true)
    (stepped : service.step i action = some service') : service'.Answers keyOf := by
  cases action with
  | get args =>
      obtain rfl := Option.some.inj stepped
      refine ⟨answers.stored, fun call member => ?_, fun call member value replied => ?_⟩
      · rcases List.mem_append.1 member with old | new
        · exact answers.requested call old
        · rw [List.mem_singleton.1 new]
          exact of_decide_eq_true meets
      · rcases List.mem_append.1 member with old | new
        · exact answers.answered call old value replied
        · rw [List.mem_singleton.1 new] at replied
          cases replied
  | getHandler k =>
      simp only [Service.step] at stepped
      split at stepped
      · cases stepped
      · rename_i call at'
        obtain ⟨⟨node', place⟩, advanced, rfl⟩ := Option.map_eq_some_iff.1 stepped
        exact answers.getHandler at' advanced
  | node action => exact answers.node meets stepped

end Answers

/-- In range no two requests have the same id. And in every run of a server, from any saved state,
in which the ids are in range and each client asks for one key under one number, a `Get` that is
answered gets the value that the store had for its key when a `Get` with its client and number was
applied. -/
theorem get_answers_own_request :
    (∀ op op' : Op, op.InRange → op'.InRange → op.commID = op'.commID →
        op.clientID = op'.clientID ∧ op.proposalID = op'.proposalID) ∧
      ∀ (i : Fin n) (persister : Persister Op Saved) (applyCh : List (ApplyMsg Op Saved))
        (keyOf : Int → Int → String) (service : Service n),
        Reaches (step i) (fun service action => service.keyed keyOf action = true)
          (boot i persister applyCh) service →
        ∀ call ∈ service.gets, ∀ value, call.place = .replied false value →
          service.Read call.args.clientID call.args.commSeq call.args.key value := by
  refine ⟨fun op op' => Op.commID_injective, ?_⟩
  intro i persister applyCh keyOf service run
  have answers : service.Answers keyOf := by
    refine run.invariant (Answers keyOf) (answers_boot keyOf i persister applyCh) ?_
    exact fun answers meets stepped => answers.step meets stepped
  exact answers.answered

def getRequest : GetArgs := { key := "x", clientID := 5, commSeq := 1 }

/-- Server `0` is elected, and a `Get` is started, replicated to server `1`, delivered and applied
before the call looks again. -/
def firstRead : List (ServiceAction 3) :=
  [.node (.raft .startRound), .node (.raft (.voteReply 1 { term := 1, voteGranted := true })),
    .node (.raft .roundOver), .get getRequest, .getHandler 0, .getHandler 0, .getHandler 0,
    .node (.raft .heartbeat), .node (.raft .distribute),
    .node (.raft (.entryReply 0 { me := 1, term := 1, success := true })), .node .apply,
    .getHandler 0, .getHandler 0]

theorem get_answers_own_request_firstRead :
    ∃ service : Service 3, service.gets = [⟨getRequest, .replied false ""⟩] ∧
      service.Read 5 1 "x" "" := by
  have ran : ∃ service : Service 3, Reaches (step 0)
      (fun service action => service.keyed (fun _ _ => "x") action = true)
      (boot 0 (makePersister Op Saved) []) service ∧
        service.gets = [⟨getRequest, .replied false ""⟩] :=
    exists_reaches firstRead (by decide +kernel)
  obtain ⟨service, run, answered⟩ := ran
  refine ⟨service, answered, ?_⟩
  exact get_answers_own_request.2 0 _ _ _ service run ⟨getRequest, .replied false ""⟩
    (answered ▸ List.mem_singleton_self _) "" rfl

end Service

end Mit6824.KvRaft
