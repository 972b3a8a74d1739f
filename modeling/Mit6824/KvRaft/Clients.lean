import Mit6824.KvRaft.Clerk
import Mit6824.KvRaft.Execution
import Mit6824.Raft.Serving

/-!
# Clients of the service

A clerk sends the request of a call to one server after the other until it is answered by one that
was the leader, and keeps to that server then. What a handler answers as the leader rests on what
its server has applied (`serving_lawful`): the number of a write is recorded when it is
acknowledged, and what a `Get` returns was read for its request.
-/

namespace Mit6824.KvRaft

/-! ## Clerks -/

/-- A `Clerk` with the server it keeps to. -/
structure RetryingClerk extends Clerk where
  leaderIndex : Int
  deriving DecidableEq

/-- The clerks, with the loop in which a call is sent to the servers. -/
def clerks (n : Nat) : Clients.Clerks n Op RetryingClerk ClerkCall where
  make id := { Clerk.makeClerk id with leaderIndex := -1 }
  id ck := ck.id
  next ck := ck.commSeq
  first := 1
  issue ck call :=
    ({ (ck.toClerk.issue call).1 with leaderIndex := ck.leaderIndex }, (ck.toClerk.issue call).2)
  asks ck server := ck.leaderIndex == -1 || ck.leaderIndex == (server : Nat)
  giveUp ck := { ck with leaderIndex := -1 }
  heard ck server := { ck with leaderIndex := (server : Nat) }

theorem clerks_lawful (n : Nat) : (clerks n).Lawful store where
  make _ := ⟨rfl, rfl⟩
  issued ck call := ⟨(ck.issue_ids call).1, (ck.issue_ids call).2.1⟩
  issue ck call := by
    have next := (ck.issue_ids call).2.2
    simp only [clerks, next, and_self]
  giveUp _ := ⟨rfl, rfl⟩
  heard _ _ := ⟨rfl, rfl⟩

/-! ## The requests at a server -/

/-- The request that comes in. -/
def ServiceAction.arrival {n : Nat} : ServiceAction n → Option Op
  | .node (.putAppend args) => some args.comm
  | .get args => some args.comm
  | _ => none

namespace Node

variable {n : Nat} {node node' : Node n}

theorem advance_calls {call : Call} {place : Place}
    (advanced : node.advance call = some (node', place)) : node'.calls = node.calls := by
  obtain ⟨comm, at'⟩ := call
  cases at' with
  | startCheck =>
      simp only [advance] at advanced
      split at advanced
      all_goals
        obtain ⟨rfl, _⟩ := Prod.mk.inj (Option.some.inj advanced)
        rfl
  | startAppend curTerm =>
      obtain ⟨_, _, equal⟩ := Option.map_eq_some_iff.1 advanced
      obtain ⟨rfl, _⟩ := Prod.mk.inj equal
      rfl
  | replied wrongLeader => cases advanced
  | readLeader | addClient leaderNum | pollLeader index | pollCommit index =>
      obtain ⟨rfl, _⟩ := Prod.mk.inj (Option.some.inj advanced)
      rfl

theorem advanceGet_calls {call : GetCall} {place : GetPlace}
    (advanced : node.advanceGet call = some (node', place)) : node'.calls = node.calls := by
  rcases advanceGet_cases advanced with rfl | ⟨_, _, _, _, _, rfl⟩
  · rfl
  · rfl

end Node

namespace Service

variable {n : Nat} {i : Fin n} {service service' : Service n} {action : ServiceAction n} {op : Op}

/-- The commands of the calls that have come in. -/
def comms (service : Service n) : List Op :=
  service.node.calls.map Call.comm ++ service.gets.map fun call => call.args.comm

theorem mem_comms : op ∈ service.comms ↔
    (∃ call ∈ service.node.calls, call.comm = op) ∨
      ∃ call ∈ service.gets, call.args.comm = op := by
  simp [comms]

theorem mem_comms_of_starting {curTerm : Int}
    (starting : service.starting action = some (op, curTerm)) : op ∈ service.comms := by
  unfold Service.starting at starting
  split at starting
  · obtain ⟨call, found, place⟩ := Option.bind_eq_some_iff.1 starting
    split at place
    · cases place
      exact mem_comms.2 (Or.inl ⟨call, List.mem_of_getElem? found, rfl⟩)
    · cases place
  · obtain ⟨call, found, place⟩ := Option.bind_eq_some_iff.1 starting
    split at place
    · cases place
      exact mem_comms.2 (Or.inr ⟨call, List.mem_of_getElem? found, rfl⟩)
    · cases place
  · cases starting

theorem step_comms (stepped : service.step i action = some service')
    (member : op ∈ service'.comms) : op ∈ service.comms ∨ action.arrival = some op := by
  cases action with
  | get args =>
      obtain rfl := Option.some.inj stepped
      simp only [comms, List.map_append, List.mem_append] at member ⊢
      rcases member with old | old | new
      · exact Or.inl (Or.inl old)
      · exact Or.inl (Or.inr old)
      · rw [List.mem_singleton.1 new]
        exact Or.inr rfl
  | getHandler k =>
      simp only [step] at stepped
      split at stepped
      · cases stepped
      · rename_i call found
        obtain ⟨⟨node, place⟩, advanced, rfl⟩ := Option.map_eq_some_iff.1 stepped
        left
        rwa [comms, Node.advanceGet_calls advanced, Clients.map_set_of_eq found] at member
        rfl
  | node action =>
      obtain ⟨node, moved, rfl⟩ := Option.map_eq_some_iff.1 stepped
      cases action with
      | putAppend args =>
          obtain rfl := Option.some.inj moved
          simp only [comms, List.map_append, List.mem_append] at member ⊢
          rcases member with (old | new) | old
          · exact Or.inl (Or.inl old)
          · rw [List.mem_singleton.1 new]
            exact Or.inr rfl
          · exact Or.inl (Or.inr old)
      | handler k =>
          simp only [Node.step] at moved
          split at moved
          · cases moved
          · rename_i call found
            obtain ⟨⟨node, place⟩, advanced, rfl⟩ := Option.map_eq_some_iff.1 moved
            left
            rw [comms] at member
            dsimp only at member
            rwa [Node.advance_calls advanced, Clients.map_set_of_eq found] at member
            rfl
      | raft input =>
          obtain ⟨_, _, _, _, rfl⟩ := Node.raft_cases moved
          exact Or.inl member
      | apply =>
          simp only [Node.step] at moved
          split at moved
          · cases moved
          · obtain ⟨_, _, rfl⟩ := Option.map_eq_some_iff.1 moved
            exact Or.inl member
      | takeSnapshots index =>
          simp only [Node.step] at moved
          split_ifs at moved
          obtain ⟨_, _, rfl⟩ := Option.map_eq_some_iff.1 moved
          exact Or.inl member
      | restart =>
          obtain rfl := Option.some.inj moved
          simp [comms, Node.boot] at member

end Service

/-! ## What is answered -/

namespace Service

variable {n : Nat} {i : Fin n} {service service' : Service n} {action : ServiceAction n}
  {ops : List Op} {p : Nat} {op : Op} {value : String}

/-- What the handler that has just gone on has answered as the leader. -/
def replies (service : Service n) : ServiceAction n → List (Op × String)
  | .node (.handler k) =>
      match service.node.calls[k]? with
      | some ⟨op, .replied false⟩ => [(op, "")]
      | _ => []
  | .getHandler k =>
      match service.gets[k]? with
      | some ⟨args, .replied false value⟩ => [(args.comm, value)]
      | _ => []
  | _ => []

/-- The server keeps the writes that somebody waits for. -/
def keepsWrites (service : Service n) : ServiceAction n → Bool
  | .node action => service.node.keepsWrites action
  | _ => true

/-- The server keeps what it has promised to those who wait. -/
theorem serves_step (serves : service.node.Serves i) (kept : service.keepsWrites action = true)
    (stepped : service.step i action = some service') : service'.node.Serves i := by
  cases action with
  | node action =>
      obtain ⟨node', moved, rfl⟩ := Option.map_eq_some_iff.1 stepped
      exact serves.step kept moved
  | get args =>
      obtain rfl := Option.some.inj stepped
      exact serves
  | getHandler k =>
      simp only [Service.step] at stepped
      split at stepped
      · cases stepped
      · rename_i call found
        obtain ⟨⟨node', place⟩, advanced, rfl⟩ := Option.map_eq_some_iff.1 stepped
        rcases Node.advanceGet_cases advanced with rfl | ⟨_, _, _, _, appended, rfl⟩
        · exact serves
        · exact (serves.startAppend appended).1

/-- A write that is acknowledged stood in a call, and its number is recorded. -/
theorem recorded_of_acknowledged {k : Nat} (serves : service.node.Serves i)
    (stepped : service.step i (.node (.handler k)) = some service')
    (found : service'.node.calls[k]? = some ⟨op, .replied false⟩) :
    op ∈ service.comms ∧ op.isWrite = true ∧
      op.proposalID ≤ service.node.kv.maxSeq op.clientID := by
  obtain ⟨node, moved, rfl⟩ := Option.map_eq_some_iff.1 stepped
  simp only [Node.step] at moved
  split at moved
  · cases moved
  · rename_i call found'
    obtain ⟨⟨after, place⟩, advanced, rfl⟩ := Option.map_eq_some_iff.1 moved
    have inside : k < after.calls.length := by
      simpa using (List.getElem?_eq_some_iff.1 found).1
    dsimp only at found
    rw [List.getElem?_set_self inside] at found
    cases found
    obtain ⟨index, waits, reached, rfl⟩ := Node.advance_acknowledges advanced
    have member := List.mem_of_getElem? found'
    have waiting : call.index = some index := by simp [Call.index, waits]
    exact ⟨mem_comms.2 (Or.inl ⟨call, member, rfl⟩), serves.writes call member,
      ((serves.waits call member index waiting).reached serves.applied reached).2⟩

/-- What a `Get` answers was stored under the id of its request. -/
theorem stored_of_answered {k : Nat} {args : GetArgs}
    (stepped : service.step i (.getHandler k) = some service')
    (found : service'.gets[k]? = some ⟨args, .replied false value⟩) :
    args.comm ∈ service.comms ∧
      service.node.kv.resultMap.lookup args.comm.commID = some value := by
  simp only [Service.step] at stepped
  split at stepped
  · cases stepped
  · rename_i call found'
    obtain ⟨⟨node, place⟩, advanced, rfl⟩ := Option.map_eq_some_iff.1 stepped
    dsimp only at found
    have inside : k < service.gets.length := by
      simpa using (List.getElem?_eq_some_iff.1 found).1
    rw [List.getElem?_set_self inside] at found
    cases found
    exact ⟨mem_comms.2 (Or.inr ⟨call, List.mem_of_getElem? found', rfl⟩),
      (Node.advanceGet_spec advanced).2 value rfl⟩

/-- A command in range, as `fits` wants it. -/
def fits (op : Op) : Bool := decide op.InRange

/-- What is answered rests on the commands that were applied. -/
theorem answered_of_replied {P : Op → Prop} (serves : service.node.Serves i)
    (regular : store.Regular fits 1 P) (follows : service.Follows ops p)
    (asked : ∀ op ∈ ops, P op) (known : ∀ op ∈ service.comms, P op)
    (stepped : service.step i action = some service')
    (replied : (op, value) ∈ service'.replies action) :
    op ∈ service.comms ∧ store.Answered ops op value := by
  obtain ⟨r, follows⟩ := follows
  have positive : ∀ op ∈ ops, 0 < op.proposalID := by
    intro op member
    have least : (1 : Int) ≤ op.proposalID := regular.numbered op (asked op member)
    omega
  unfold replies at replied
  split at replied
  · split at replied
    · rename_i op' found
      obtain ⟨rfl, rfl⟩ : op = op' ∧ value = "" := by simpa using replied
      obtain ⟨member, write, recorded⟩ := recorded_of_acknowledged serves stepped found
      refine ⟨member, fun _ => ?_, fun read => absurd write (by simpa [store] using read)⟩
      have least : (1 : Int) ≤ op.proposalID := regular.numbered op (known op member)
      rw [follows.consumed.sameStore.2.maxSeq] at recorded
      have some : 0 < (stage ops r).maxSeq op.clientID := lt_of_lt_of_le (by omega) recorded
      obtain ⟨other, before, write', client, number⟩ := exists_write_of_maxSeq some
      exact ⟨other, List.mem_of_mem_take before, write', client, recorded.trans number.ge⟩
    · cases replied
  · split at replied
    · rename_i args value' found
      obtain ⟨rfl, rfl⟩ : op = args.comm ∧ value = value' := by simpa using replied
      obtain ⟨member, stored⟩ := stored_of_answered stepped found
      refine ⟨member, fun write => absurd write (by simp [store, GetArgs.comm, Op.isWrite]),
        fun _ => ?_⟩
      obtain ⟨other, g, s, same, reads⟩ := follows.stored stored
      have inRange := regular.fits other (asked other (List.mem_of_getElem? reads.found))
      obtain ⟨client, number⟩ := Op.commID_injective (of_decide_eq_true inRange)
        (of_decide_eq_true (regular.fits _ (known _ member))) same
      exact ⟨other, g, s, client, number, reads.store positive⟩
    · cases replied
  · cases replied

end Service

/-- The key/value server on its peer, as its clients see it. -/
def serving (n : Nat) : Serving n Op String Saved (Service n) (ServiceAction n) where
  host := host n
  arrival := ServiceAction.arrival
  replies := Service.replies
  comms := Service.comms
  keepsPeer service input := service.node.keepsWrites (.raft input)
  keepsService := Service.keepsWrites

theorem serving_lawful (n : Nat) : (serving n).Lawful store Service.fits 1 Captured Service.Follows
    fun _ i service => service.node.Serves i where
  replica := host_replica n
  starting := Service.mem_comms_of_starting
  comms_withServer _ _ := rfl
  comms_boot _ := rfl
  comms_step next member := Service.step_comms (host_step next).2 member
  serves_boot i := .boot i (Raft.stands_boot n i [])
  serves_mono serves _ := serves
  serves_peer serves kept own stepped := serves.raft kept (Node.raft_of_step own stepped)
  serves_step serves _ kept _ _ next := Service.serves_step serves kept (host_step next).2
  replied serves regular follows asked known _ _ next replied :=
    Service.answered_of_replied serves regular follows asked known (host_step next).2 replied

end Mit6824.KvRaft
