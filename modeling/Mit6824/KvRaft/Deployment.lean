import Mit6824.KvRaft.Get
import Mit6824.KvRaft.Replay
import Mit6824.Raft.Services

/-!
# The service on a cluster

A `Deployment` is a key/value server on each peer of a cluster. `Start` is called by the handlers
only, `TakeSnapshots` gets the maps the server has, and a crash takes the service down with its
peer. `Service.Hosts` says what a step of a service can be for the peer below it.
-/

namespace Mit6824.KvRaft

/-! ## What a service does to its peer -/

namespace Node

variable {n : Nat} {i : Fin n} {node node' : Node n}

/-- A call of `Get` changes nothing until it appends its command. -/
theorem advanceGet_cases {call : GetCall} {place : GetPlace}
    (advanced : node.advanceGet call = some (node', place)) :
    node' = node ∨ ∃ curTerm rf index, call.place = .startAppend curTerm ∧
      node.rf.startAppend call.args.comm curTerm = some (rf, index) ∧
      node' = { node with server := { node.server with rf := rf } } := by
  obtain ⟨args, at'⟩ := call
  cases at' with
  | startCheck | pollResult =>
      simp only [advanceGet] at advanced
      split at advanced
      all_goals
        obtain ⟨rfl, _⟩ := Prod.mk.inj (Option.some.inj advanced)
        exact Or.inl rfl
  | startAppend curTerm =>
      obtain ⟨⟨rf, index⟩, appended, equal⟩ := Option.map_eq_some_iff.1 advanced
      obtain ⟨rfl, _⟩ := Prod.mk.inj equal
      exact Or.inr ⟨curTerm, rf, index, rfl, appended, rfl⟩
  | replied wrongLeader value => cases advanced
  | readLeader | pollLeader =>
      obtain ⟨rfl, _⟩ := Prod.mk.inj (Option.some.inj advanced)
      exact Or.inl rfl

theorem raft_of_step {input : Input n Op Saved} {server : Server n Op Saved}
    {output : Output n Op Saved} (own : input.ofService = false)
    (stepped : node.server.step i input = some (server, output)) :
    node.raft i input = some { node with server := server } := by
  cases input with
  | restart | takeSnapshots state index => cases own
  | _ => simp [raft, stepped]

end Node

namespace Service

variable {n : Nat} {i : Fin n} {service service' : Service n} {action : ServiceAction n}

/-- The command and the term of a call that is about to append. -/
def starting (service : Service n) : ServiceAction n → Option (Op × Int)
  | .node (.handler k) =>
      service.node.calls[k]?.bind fun call =>
        match call.place with
        | .startAppend curTerm => some (call.comm, curTerm)
        | _ => none
  | .getHandler k =>
      service.gets[k]?.bind fun call =>
        match call.place with
        | .startAppend curTerm => some (call.args.comm, curTerm)
        | _ => none
  | _ => none

/-- What a step of a service is to its peer and to the maps of the server. -/
inductive Hosts (i : Fin n) (service : Service n) (action : ServiceAction n) (node : Node n) :
    Prop where
  | idle (server : node.server = service.node.server) (taken : node.taken = service.node.taken)
      (kv : node.kv = service.node.kv ∨ ∃ client, node.kv = service.node.kv.addClient client)
  | start {comm : Op} {curTerm index : Int} {rf : Raft Op Saved}
      (starting : service.starting action = some (comm, curTerm))
      (appended : service.node.rf.startAppend comm curTerm = some (rf, index))
      (server : node.server = { service.node.server with rf := rf })
      (taken : node.taken = service.node.taken) (kv : node.kv = service.node.kv)
  | apply {message : ApplyMsg Op Saved} (applies : action = .node .apply)
      (next : service.node.rf.applyCh[service.node.taken]? = some message)
      (applied : service.node.kv.apply message = some node.kv)
      (server : node.server = service.node.server) (taken : node.taken = service.node.taken + 1)
  | takeSnapshots {index : Int} (reached : index ≤ service.node.kv.curCommitIndex)
      (stepped : service.node.server.step i (.takeSnapshots service.node.kv.saved index) =
        some (node.server, {}))
      (taken : node.taken = service.node.taken) (kv : node.kv = service.node.kv)
  | restart (crashes : action = .node .restart)
      (boots : node = .boot i service.node.rf.persister service.node.rf.applyCh)

theorem hosts_handler {k : Nat} {call : Call} {node : Node n} {place : Place}
    (found : service.node.calls[k]? = some call)
    (advanced : service.node.advance call = some (node, place)) (calls : List Call) :
    service.Hosts i (.node (.handler k)) { node with calls := calls } := by
  obtain ⟨comm, at'⟩ := call
  cases at' with
  | addClient leaderNum =>
      obtain ⟨rfl, _⟩ := Prod.mk.inj (Option.some.inj advanced)
      exact .idle rfl rfl (Or.inr ⟨_, rfl⟩)
  | startCheck =>
      simp only [Node.advance] at advanced
      split at advanced
      all_goals
        obtain ⟨rfl, _⟩ := Prod.mk.inj (Option.some.inj advanced)
        exact .idle rfl rfl (Or.inl rfl)
  | startAppend curTerm =>
      obtain ⟨⟨rf, index⟩, appended, equal⟩ := Option.map_eq_some_iff.1 advanced
      obtain ⟨rfl, _⟩ := Prod.mk.inj equal
      exact .start (by simp [starting, found]) appended rfl rfl rfl
  | replied wrongLeader => cases advanced
  | readLeader | pollLeader index | pollCommit index =>
      obtain ⟨rfl, _⟩ := Prod.mk.inj (Option.some.inj advanced)
      exact .idle rfl rfl (Or.inl rfl)

theorem hosts_getHandler {k : Nat} {call : GetCall} {node : Node n} {place : GetPlace}
    (found : service.gets[k]? = some call)
    (advanced : service.node.advanceGet call = some (node, place)) :
    service.Hosts i (.getHandler k) node := by
  rcases Node.advanceGet_cases advanced with rfl | ⟨curTerm, rf, index, starts, appended, rfl⟩
  · exact .idle rfl rfl (Or.inl rfl)
  · exact .start (by simp [starting, found, starts]) appended rfl rfl rfl

theorem step_hosts (stepped : service.step i action = some service')
    (own : ∀ input, action ≠ .node (.raft input)) : service.Hosts i action service'.node := by
  cases action with
  | get args =>
      obtain rfl := Option.some.inj stepped
      exact .idle rfl rfl (Or.inl rfl)
  | getHandler k =>
      simp only [step] at stepped
      split at stepped
      · cases stepped
      · rename_i call found
        obtain ⟨⟨node, place⟩, advanced, rfl⟩ := Option.map_eq_some_iff.1 stepped
        exact hosts_getHandler found advanced
  | node action =>
      obtain ⟨node, moved, rfl⟩ := Option.map_eq_some_iff.1 stepped
      cases action with
      | raft input => exact absurd rfl (own input)
      | apply =>
          simp only [Node.step] at moved
          split at moved
          · cases moved
          · rename_i message next
            obtain ⟨kv, applied, rfl⟩ := Option.map_eq_some_iff.1 moved
            exact .apply rfl next applied rfl rfl
      | takeSnapshots index =>
          simp only [Node.step] at moved
          split_ifs at moved with early
          obtain ⟨⟨server, output⟩, taken, rfl⟩ := Option.map_eq_some_iff.1 moved
          have silent : output = {} := by
            simp only [Server.takeSnapshots] at taken
            split_ifs at taken
            obtain ⟨_, _, equal⟩ := Option.map_eq_some_iff.1 taken
            exact (Prod.mk.inj equal).2.symm
          subst silent
          exact .takeSnapshots (not_lt.1 early) taken rfl rfl
      | putAppend args =>
          obtain rfl := Option.some.inj moved
          exact .idle rfl rfl (Or.inl rfl)
      | handler k =>
          simp only [Node.step] at moved
          split at moved
          · cases moved
          · rename_i call found
            obtain ⟨⟨node, place⟩, advanced, rfl⟩ := Option.map_eq_some_iff.1 moved
            exact hosts_handler found advanced _
      | restart =>
          obtain rfl := Option.some.inj moved
          exact .restart rfl rfl

end Service

/-! ## Servers on a cluster -/

/-- The key/value server on its peer. The steps of the peer are those of the cluster. -/
def host (n : Nat) : Host n Op Saved (Service n) (ServiceAction n) where
  server service := service.node.server
  withServer service server := { service with node := { service.node with server := server } }
  taken service := service.node.taken
  step i service
    | .node (.raft _) => none
    | action => service.step i action
  boot i := .boot i (makePersister Op Saved) []
  starting := Service.starting
  crashes action := action == .node .restart

theorem host_step {n : Nat} {i : Fin n} {service service' : Service n} {action : ServiceAction n}
    (next : (host n).step i service action = some service') :
    (∀ input, action ≠ .node (.raft input)) ∧ service.step i action = some service' := by
  cases action with
  | node action =>
      cases action with
      | raft input => cases next
      | _ => exact ⟨by simp, next⟩
  | _ => exact ⟨by simp, next⟩

abbrev Deployment (n : Nat) := Deployed n Op Saved (Service n)

abbrev DeploymentAction (n : Nat) := DeployedAction n Op Saved (ServiceAction n)

namespace Deployment

variable {n : Nat}

/-- The server `i` of the service on its peer. -/
def node (d : Deployment n) (i : Fin n) : Node n := (d.services i).node

/-- The peers below the services. -/
def cluster (d : Deployment n) : Cluster n Op Saved := Deployed.cluster (host n) d

/-- `n` servers started on fresh `Persister`s. -/
def init (n : Nat) : Deployment n := Deployed.init (host n)

def step (d : Deployment n) (action : DeploymentAction n) : Option (Deployment n) :=
  Deployed.step (host n) d action

/-- The peers keep what they have committed. A command is appended in a term that the server has
won and still is in. -/
def keepsCommits (d : Deployment n) (action : DeploymentAction n) : Bool :=
  Deployed.keepsCommits (host n) d action

end Deployment

end Mit6824.KvRaft
