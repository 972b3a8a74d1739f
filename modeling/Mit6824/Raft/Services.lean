import Mit6824.Raft.Hosting

/-!
# Services on a cluster

A `Host` is a service on a Raft peer: its state has the peer as a part, and it takes steps of its
own between those of the peer. What a service does to its peer, it does itself: it calls `Start`, it
takes snapshots, and a crash takes it down with its peer. A `Deployed` service is one on each peer
of a cluster.

`Host.Replica` is what a service has to do with the messages of its channel so that all servers
follow one sequence of commands (`Replicates.step`). `State ops s p` says that a service has
consumed the first `p` commands of the sequence, and `Good ops k state` that a snapshot with the
label `k` may be restored; what these are is up to the service.
-/

namespace Mit6824

variable {n : Nat} {α σ S A : Type}

/-- The inputs that are the doing of the service on the peer. -/
def Input.ofService : Input n α σ → Bool
  | .startCheck _ | .startAppend _ | .takeSnapshots _ _ | .restart => true
  | _ => false

/-- A service on a Raft peer, with its states and its own steps. -/
structure Host (n : Nat) (α σ S A : Type) where
  server : S → Server n α σ
  withServer : S → Server n α σ → S
  /-- How many messages of the channel the service has taken, or lost in a crash. -/
  taken : S → Nat
  step : Fin n → S → A → Option S
  /-- The service on an empty `Persister`. -/
  boot : Fin n → S
  /-- The command and the term of a call of `Start` that is about to append. -/
  starting : S → A → Option (α × Int)
  crashes : A → Bool

structure Deployed (n : Nat) (α σ S : Type) where
  services : Fin n → S
  net : List (Packet n α σ)
  supported : List (Fin n × Int × Fin n)
  won : List (Fin n × Round n)

inductive DeployedAction (n : Nat) (α σ A : Type) where
  /-- A step of the peers. -/
  | peers (action : Action n α σ)
  /-- A step of the service on server `i`. -/
  | service (i : Fin n) (action : A)
  deriving DecidableEq

namespace Deployed

/-- The peers below the services. -/
def cluster (host : Host n α σ S A) (d : Deployed n α σ S) : Cluster n α σ :=
  { servers := fun i => host.server (d.services i), net := d.net, supported := d.supported
    won := d.won }

def withCluster (host : Host n α σ S A) (d : Deployed n α σ S) (c : Cluster n α σ) :
    Deployed n α σ S :=
  { services := fun i => host.withServer (d.services i) (c.servers i), net := c.net
    supported := c.supported, won := c.won }

/-- `n` services on fresh `Persister`s. -/
def init (host : Host n α σ S A) : Deployed n α σ S :=
  { services := host.boot, net := [], supported := [], won := [] }

variable {host : Host n α σ S A} {d d' : Deployed n α σ S} {i : Fin n}

theorem cluster_update (d : Deployed n α σ S) (i : Fin n) (s : S) :
    cluster host { d with services := Function.update d.services i s } = { d.cluster host with
      servers := Function.update (d.cluster host).servers i (host.server s) } := by
  simp only [cluster, Cluster.mk.injEq, and_true]
  funext j
  by_cases same : j = i
  · subst same
    simp
  · simp [same]

theorem cluster_idle {s : S} (server : host.server s = host.server (d.services i)) :
    cluster host { d with services := Function.update d.services i s } = d.cluster host := by
  have same : host.server s = (d.cluster host).servers i := server
  rw [cluster_update, same, Function.update_eq_self]

variable [DecidableEq α] [DecidableEq σ]

def step (host : Host n α σ S A) (d : Deployed n α σ S) :
    DeployedAction n α σ A → Option (Deployed n α σ S)
  | .peers action =>
      if ((d.cluster host).event action).any fun e => e.2.ofService then none
      else ((d.cluster host).step action).map (d.withCluster host)
  | .service i action =>
      (host.step i (d.services i) action).map fun s =>
        { d with services := Function.update d.services i s }

/-- The peers keep what they have committed. A command is appended in a term that the server has
won and still is in. -/
def keepsCommits (host : Host n α σ S A) (d : Deployed n α σ S) :
    DeployedAction n α σ A → Bool
  | .peers action => decide ((d.cluster host).Meets Cluster.keepsCommits action)
  | .service i action =>
      (!host.crashes action || (host.server (d.services i)).rf.recovers) &&
        (host.starting (d.services i) action).all fun (_, curTerm) =>
          (d.cluster host).hasWon i curTerm &&
            curTerm == (host.server (d.services i)).rf.currentTerm

/-- A step of the peers is one of the cluster, with an input that is not the doing of a service. -/
theorem peers_cases {action : Action n α σ} (next : d.step host (.peers action) = some d') :
    ∃ c, (d.cluster host).step action = some c ∧ d' = d.withCluster host c ∧
      ∀ e ∈ (d.cluster host).event action, e.2.ofService = false := by
  simp only [step] at next
  split_ifs at next with own
  obtain ⟨c, stepped, rfl⟩ := Option.map_eq_some_iff.1 next
  refine ⟨c, stepped, rfl, fun e event => Bool.eq_false_iff.2 fun does => own ?_⟩
  rw [Option.mem_def.1 event]
  exact does

theorem service_cases {action : A} (next : d.step host (.service i action) = some d') :
    ∃ s, host.step i (d.services i) action = some s ∧
      d' = { d with services := Function.update d.services i s } := by
  obtain ⟨s, stepped, rfl⟩ := Option.map_eq_some_iff.1 next
  exact ⟨s, stepped, rfl⟩

end Deployed

/-! ## What a service has to do -/

namespace Host

variable {Good : List α → Nat → σ → Prop} {State : List α → S → Nat → Prop}

/-- What a step of a service is to its peer, and what it makes of the sequence. -/
inductive Moves [DecidableEq α] [DecidableEq σ] (host : Host n α σ S A)
    (Good : List α → Nat → σ → Prop)
    (State : List α → S → Nat → Prop) (i : Fin n) (s : S) (a : A) (s' : S) : Prop where
  | idle (server : host.server s' = host.server s) (taken : host.taken s' = host.taken s)
      (state : ∀ {ops p}, State ops s p → State ops s' p)
  | start {comm : α} {curTerm index : Int} {rf : Raft α σ}
      (starting : host.starting s a = some (comm, curTerm))
      (appended : (host.server s).rf.startAppend comm curTerm = some (rf, index))
      (server : host.server s' = { host.server s with rf := rf })
      (taken : host.taken s' = host.taken s) (state : ∀ {ops p}, State ops s p → State ops s' p)
  | takeSnapshots {saved : σ} {index : Int}
      (captured : ∀ {ops p}, State ops s p → Good ops (index - 1).toNat saved)
      (stepped : (host.server s).step i (.takeSnapshots saved index) = some (host.server s', {}))
      (taken : host.taken s' = host.taken s) (state : ∀ {ops p}, State ops s p → State ops s' p)
  | apply {message : ApplyMsg α σ}
      (next : (host.server s).rf.applyCh[host.taken s]? = some message)
      (server : host.server s' = host.server s) (taken : host.taken s' = host.taken s + 1)
      (command : ∀ {p : Nat} {comm : Option α}, message = ⟨true, comm, p + 1, none⟩ →
        ∃ op, comm = some op ∧ ∀ {ops : List α}, ops[p]? = some op → State ops s p →
          State ops s' (p + 1))
      (snapshot : ∀ {ops p q saved}, message = ⟨false, none, 0, some saved⟩ → p ≤ q →
        Good ops q saved → State ops s p → State ops s' q)
  | restart (crashes : host.crashes a = true)
      (boots : host.server s' =
        .boot i (host.server s).rf.persister (host.server s).rf.applyCh)
      (taken : host.taken s' = (host.server s).rf.applyCh.length)
      (state : ∀ {ops p}, State ops s p → State ops s' 0)

/-- The service follows the messages of its channel. -/
structure Replica [DecidableEq α] [DecidableEq σ] (host : Host n α σ S A)
    (Good : List α → Nat → σ → Prop)
    (State : List α → S → Nat → Prop) : Prop where
  server_withServer : ∀ s server, host.server (host.withServer s server) = server
  withServer_server : ∀ s, host.withServer s (host.server s) = s
  taken_withServer : ∀ s server, host.taken (host.withServer s server) = host.taken s
  server_boot : ∀ i, host.server (host.boot i) = .boot i (makePersister α σ) []
  taken_boot : ∀ i, host.taken (host.boot i) = 0
  state_boot : ∀ {ops} i, State ops (host.boot i) 0
  state_withServer : ∀ {ops s p} server, State ops s p → State ops (host.withServer s server) p
  state_le : ∀ {ops s p}, State ops s p → p ≤ ops.length
  state_append : ∀ {ops s p} more, State ops s p → State (ops ++ more) s p
  good_append : ∀ {ops k saved} more, Good ops k saved → Good (ops ++ more) k saved
  moves : ∀ {i s a s'}, host.step i s a = some s' → host.Moves Good State i s a s'

/-- A service that has consumed the first `p` commands, and that the messages on their way lead
on. -/
structure Follows (host : Host n α σ S A) (Good : List α → Nat → σ → Prop)
    (State : List α → S → Nat → Prop) (ops : List α) (s : S) (p : Nat) : Prop where
  state : State ops s p
  supplies : (host.server s).rf.Supplies (Good ops) (host.taken s) p

end Host

namespace Deployed

variable {host : Host n α σ S A} {Good : List α → Nat → σ → Prop} {State : List α → S → Nat → Prop}
  {P : α → Prop} {ops : List α} {d d' : Deployed n α σ S} {i : Fin n}
  {action : DeployedAction n α σ A} {c : Cluster n α σ}

/-- What is known of a deployment: all that was applied anywhere is one sequence of commands, each
of which was delivered, and each server follows it. -/
structure Replicates (host : Host n α σ S A) (Good : List α → Nat → σ → Prop)
    (State : List α → S → Nat → Prop) (P : α → Prop) (ops : List α) (d : Deployed n α σ S) :
    Prop where
  agreed : (d.cluster host).Agreed
  sourced : (d.cluster host).Sourced P fun blob => Good ops blob.lastIndex.toNat blob.state
  ledger : ∀ {k : Nat} {op : α}, ops[k]? = some op →
    ∃ i, ⟨true, some op, k + 1, none⟩ ∈ (host.server (d.services i)).rf.applyCh
  follows : ∀ i, ∃ p, host.Follows Good State ops (d.services i) p

namespace Replicates

theorem mono {P' : α → Prop} (replicates : d.Replicates host Good State P ops)
    (weaker : ∀ op, P op → P' op) : d.Replicates host Good State P' ops :=
  ⟨replicates.agreed, replicates.sourced.mono weaker fun _ good => good, replicates.ledger,
    replicates.follows⟩

/-- What was applied is what the clients asked for. -/
theorem asked (replicates : d.Replicates host Good State P ops) {op : α} (member : op ∈ ops) :
    P op := by
  obtain ⟨k, found⟩ := List.mem_iff_getElem?.1 member
  obtain ⟨i, delivered⟩ := replicates.ledger found
  exact ((replicates.sourced.servers i).peer.channel _ delivered).command op rfl

/-- What was delivered anywhere is in the sequence, as far as this goes. -/
theorem mem_of_delivered (replicates : d.Replicates host Good State P ops) {op : α} {index : Int}
    (delivered : ⟨true, some op, index, none⟩ ∈ (host.server (d.services i)).rf.applyCh)
    (within : index ≤ ops.length) : op ∈ ops := by
  obtain ⟨k, rfl⟩ := replicates.agreed.exists_index delivered
  have found := List.getElem?_eq_getElem (l := ops) (i := k) (by omega)
  obtain ⟨j, delivered'⟩ := replicates.ledger found
  have same := Option.some.inj (replicates.agreed.command_eq delivered delivered')
  rw [← same] at found
  exact List.mem_of_getElem? found

end Replicates

variable [DecidableEq α] [DecidableEq σ]

/-- What a step is to the cluster: nothing, a step of its own, or the second half of `Start`. -/
inductive Below (host : Host n α σ S A) (Good : List α → Nat → σ → Prop)
    (State : List α → S → Nat → Prop) (d : Deployed n α σ S) (action : DeployedAction n α σ A)
    (c : Cluster n α σ) : Prop where
  | idle (same : c = d.cluster host)
  | step {a : Action n α σ} (stepped : (d.cluster host).step a = some c)
      (meets : (d.cluster host).Meets Cluster.keepsCommits a)
      (own : ∀ i input, a = .internal i input → input.ofService = true → input = .restart ∨
        ∃ saved index, input = .takeSnapshots saved index ∧
          ∀ {ops p}, State ops (d.services i) p → Good ops (index - 1).toNat saved)
  | start {i : Fin n} {a : A} {comm : α} {curTerm index : Int} {rf : Raft α σ}
      (calls : action = .service i a)
      (starting : host.starting (d.services i) a = some (comm, curTerm))
      (appended : ((d.cluster host).rf i).startAppend comm curTerm = some (rf, index))
      (won : (d.cluster host).hasWon i curTerm = true)
      (current : curTerm = ((d.cluster host).rf i).currentTerm)
      (peer : c = (d.cluster host).withPeer i rf)

theorem cluster_withCluster (replica : host.Replica Good State) (c : Cluster n α σ) :
    (d.withCluster host c).cluster host = c := by
  simp only [cluster, withCluster, replica.server_withServer]

theorem step_below (replica : host.Replica Good State) (next : d.step host action = some d')
    (kept : d.keepsCommits host action = true) :
    Below host Good State d action (d'.cluster host) := by
  cases action with
  | peers action =>
      obtain ⟨c, stepped, rfl, own⟩ := peers_cases next
      rw [cluster_withCluster replica]
      refine .step stepped (of_decide_eq_true kept) ?_
      rintro i input rfl does
      rw [own _ rfl] at does
      cases does
  | service i action =>
      obtain ⟨s, stepped, rfl⟩ := service_cases next
      simp only [keepsCommits, Bool.and_eq_true, Bool.or_eq_true, Bool.not_eq_true'] at kept
      obtain ⟨crash, starts⟩ := kept
      cases replica.moves stepped with
      | idle server _ _ | apply _ server _ _ _ => exact .idle (cluster_idle server)
      | start starting appended server _ _ =>
          rw [starting, Option.all_some, Bool.and_eq_true, beq_iff_eq] at starts
          refine .start rfl starting appended starts.1 starts.2 ?_
          rw [cluster_update, server]
          rfl
      | @takeSnapshots saved index captured taken _ _ =>
          refine .step (cluster_update d i s ▸ Cluster.step_silent rfl rfl taken) ?_ ?_
          · intro e event
            obtain rfl := Option.some.inj event
            rfl
          · rintro j input same _
            cases same
            exact Or.inr ⟨saved, index, rfl, captured⟩
      | restart crashes boots _ _ =>
          have recovers : ((d.cluster host).servers i).rf.recovers = true := by
            rw [crashes] at crash
            exact crash.resolve_left (by simp)
          have booted : ((d.cluster host).servers i).step i .restart =
              some (host.server s, {}) := by
            rw [boots]
            rfl
          refine .step (cluster_update d i s ▸ Cluster.step_silent rfl rfl booted) ?_ ?_
          · intro e event
            obtain rfl := Option.some.inj event
            simpa [Cluster.keepsCommits, Cluster.keepsLogs, Cluster.votesOnce, Server.keepsLog,
              Server.leadsOwnTerm, Server.keepsCommit, Server.shipment] using recovers
          · rintro j input same _
            cases same
            exact Or.inl rfl

/-! ## One sequence for all servers -/

theorem replicates_init (replica : host.Replica Good State) (P : α → Prop) :
    (init host).Replicates host Good State P [] := by
  have fresh : (init host).cluster host = Cluster.init n α σ := by
    simp only [cluster, init, replica.server_boot, Cluster.init]
  refine ⟨?_, ?_, fun found => by simp at found, fun i => ⟨0, replica.state_boot i, ?_⟩⟩
  · rw [fresh]
    exact Cluster.agreed_init n α σ
  · rw [fresh]
    exact Cluster.sourced_init n P _
  · rw [init, replica.server_boot, replica.taken_boot]
    exact .make n i [] (by simp [Persister.readable, makePersister])

namespace Replicates

/-- What a step of the peers does to a server. -/
theorem follows_peers (replicates : d.Replicates host Good State P ops)
    (replica : host.Replica Good State) {action : Action n α σ}
    (stepped : (d.cluster host).step action = some c)
    (own : ∀ e ∈ (d.cluster host).event action, e.2.ofService = false) (j : Fin n) :
    ∃ p, host.Follows Good State ops ((d.withCluster host c).services j) p := by
  obtain ⟨i, input, server, output, event, acts, servers, sent⟩ := Cluster.step_server stepped
  obtain ⟨p, follows⟩ := replicates.follows j
  have up : input ≠ .restart := by
    rintro rfl
    cases own _ event
  by_cases same : j = i
  · subst same
    have placed : (d.withCluster host c).services j = host.withServer (d.services j) server := by
      simp [withCluster, servers]
    rw [placed]
    refine ⟨p, replica.state_withServer server follows.state, ?_⟩
    rw [replica.server_withServer, replica.taken_withServer]
    refine (Server.step_moves acts).log.supplies (replicates.sourced.servers j).peer.standing up
      follows.supplies ?_
    rintro args blob rfl installs data
    obtain ⟨src, member⟩ := sent _ rfl
    exact ⟨(replicates.agreed.lt_label member installs data).le,
      replicates.sourced.requests member blob data⟩
  · have unchanged : (d.withCluster host c).services j = d.services j := by
      simp only [withCluster, servers, Function.update_of_ne same]
      exact replica.withServer_server _
    rw [unchanged]
    exact ⟨p, follows⟩

/-- What a step of a service does to its server; it may be the first to apply a command. -/
theorem follows_moves (replicates : d.Replicates host Good State P ops)
    (replica : host.Replica Good State) {a : A} {s' : S}
    (moves : host.Moves Good State i (d.services i) a s') :
    ∃ more, (∃ p, host.Follows Good State (ops ++ more) s' p) ∧ ∀ {k : Nat} {op : α},
      (ops ++ more)[k]? = some op →
        ops[k]? = some op ∨
          ⟨true, some op, k + 1, none⟩ ∈ (host.server (d.services i)).rf.applyCh := by
  obtain ⟨p, state, supplies⟩ := replicates.follows i
  have standing := (replicates.sourced.servers i).peer.standing
  have nothing : (∃ p, host.Follows Good State ops s' p) →
      ∃ more, (∃ p, host.Follows Good State (ops ++ more) s' p) ∧
      ∀ {k : Nat} {op : α}, (ops ++ more)[k]? = some op → ops[k]? = some op ∨
        ⟨true, some op, k + 1, none⟩ ∈ (host.server (d.services i)).rf.applyCh := by
    intro follows'
    refine ⟨[], ?_, fun found => Or.inl ?_⟩
    · rwa [List.append_nil]
    · rwa [List.append_nil] at found
  cases moves with
  | idle server taken kept =>
      refine nothing ⟨p, kept state, ?_⟩
      rw [server, taken]
      exact supplies
  | start starting appended server taken kept =>
      have moves : Server.LogMoves i (host.server (d.services i)) (.startAppend 0)
          (host.server s').rf := by
        rw [server]
        exact .startAppend appended
      refine nothing ⟨p, kept state, ?_⟩
      rw [taken]
      exact moves.supplies standing (by simp) supplies (by simp)
  | takeSnapshots captured stepped taken kept =>
      refine nothing ⟨p, kept state, ?_⟩
      rw [taken]
      exact (Server.step_moves stepped).log.supplies standing (by simp) supplies (by simp)
  | restart crashes boots taken fresh =>
      refine nothing ⟨0, fresh state, ?_⟩
      rw [boots, taken]
      refine .make n i _ fun blob read => ?_
      exact (replicates.sourced.servers i).peer.snapshot blob (Persister.snapshot_of_readable read)
  | apply next server taken command snapshot =>
      rcases supplies.take next with
        ⟨comm, shape, supplies⟩ | ⟨q, saved, shape, forward, good, supplies⟩
      · obtain ⟨op, rfl, kept⟩ := command shape
        subst shape
        have delivered := List.mem_of_getElem? next
        rcases (replica.state_le state).lt_or_eq with known | first
        · -- Somebody was given this command before.
          obtain ⟨j, delivered'⟩ := replicates.ledger (List.getElem?_eq_getElem known)
          have same := Option.some.inj (replicates.agreed.command_eq delivered delivered')
          refine nothing ⟨p + 1, kept ?_ state, ?_⟩
          · rw [List.getElem?_eq_getElem known, ← same]
          · rw [server, taken]
            exact supplies
        · refine ⟨[op], ⟨p + 1, kept ?_ (replica.state_append [op] state), ?_⟩, ?_⟩
          · rw [first, List.getElem?_concat_length]
          · rw [server, taken]
            exact supplies.mono fun _ _ good => replica.good_append [op] good
          · intro k other found
            rcases lt_or_ge k ops.length with old | new
            · rw [List.getElem?_append_left old] at found
              exact Or.inl found
            · have last := (List.getElem?_eq_some_iff.1 found).1
              obtain rfl : k = p := by
                rw [List.length_append, List.length_singleton] at last
                omega
              rw [first, List.getElem?_concat_length] at found
              obtain rfl := Option.some.inj found
              exact Or.inr delivered
      · refine nothing ⟨q, snapshot shape forward good state, ?_⟩
        rw [server, taken]
        exact supplies

/-- What the cluster keeps, and what comes into it. -/
theorem below (replicates : d.Replicates host Good State P ops)
    (below : Below host Good State d action c)
    (asks : ∀ {i a comm curTerm}, action = .service i a →
      host.starting (d.services i) a = some (comm, curTerm) → P comm) :
    c.Agreed ∧ (c.Sourced P fun blob => Good ops blob.lastIndex.toNat blob.state) ∧
      ∀ i, (host.server (d.services i)).rf.applyCh <+: (c.rf i).applyCh := by
  cases below with
  | idle same =>
      rw [same]
      exact ⟨replicates.agreed, replicates.sourced, fun i => List.prefix_rfl⟩
  | @step a stepped meets own =>
      refine ⟨replicates.agreed.step meets stepped, replicates.sourced.step ?_ stepped, ?_⟩
      · rintro i input rfl
        cases input with
        | request sent => simp [Cluster.step, Cluster.internal, Input.isInternal] at stepped
        | startCheck command => simpa using own i _ rfl rfl
        | takeSnapshots state index =>
            obtain ⟨saved, index', same, captured⟩ := (own i _ rfl rfl).resolve_left (by simp)
            cases same
            obtain ⟨p, follows⟩ := replicates.follows i
            exact fun term => captured follows.state
        | _ => exact trivial
      · intro j
        obtain ⟨i, input, server, output, _, acts, servers, _⟩ := Cluster.step_server stepped
        rw [Cluster.rf, servers]
        by_cases same : j = i
        · subst same
          rw [Function.update_self]
          exact (Server.step_moves acts).log.channel (replicates.sourced.servers j).peer.standing
        · rw [Function.update_of_ne same]
          exact List.prefix_rfl
  | @start i a comm curTerm index rf calls starting appended won current peer =>
      rw [peer]
      refine ⟨replicates.agreed.startAppend appended won current,
        replicates.sourced.startAppend appended (asks calls starting), fun j => ?_⟩
      obtain ⟨_, frame⟩ := Raft.startAppend_frame appended
      by_cases acts : j = i
      · subst acts
        simp only [Cluster.rf, Cluster.withPeer, Function.update_self, frame]
        exact List.prefix_rfl
      · simp only [Cluster.rf, Cluster.withPeer, Function.update_of_ne acts]
        exact List.prefix_rfl

/-- The servers go on following one sequence, which may grow. -/
theorem step (replicates : d.Replicates host Good State P ops)
    (replica : host.Replica Good State) (kept : d.keepsCommits host action = true)
    (asks : ∀ {i a comm curTerm}, action = .service i a →
      host.starting (d.services i) a = some (comm, curTerm) → P comm)
    (next : d.step host action = some d') :
    ∃ more, d'.Replicates host Good State P (ops ++ more) := by
  obtain ⟨agreed, sourced, channel⟩ := replicates.below (step_below replica next kept) asks
  cases action with
  | peers action =>
      obtain ⟨c, stepped, rfl, own⟩ := peers_cases next
      refine ⟨[], agreed, ?_, fun found => ?_, fun j => ?_⟩
      · rwa [List.append_nil]
      · rw [List.append_nil] at found
        obtain ⟨i, delivered⟩ := replicates.ledger found
        exact ⟨i, (channel i).subset delivered⟩
      · rw [List.append_nil]
        exact replicates.follows_peers replica stepped own j
  | service i action =>
      obtain ⟨s, stepped, rfl⟩ := service_cases next
      obtain ⟨more, follows, added⟩ := replicates.follows_moves replica (replica.moves stepped)
      refine ⟨more, agreed, sourced.mono (fun _ asked => asked) ?_, fun found => ?_, fun j => ?_⟩
      · exact fun _ good => replica.good_append more good
      · rcases added found with old | delivered
        · obtain ⟨j, delivered⟩ := replicates.ledger old
          exact ⟨j, (channel j).subset delivered⟩
        · exact ⟨i, (channel i).subset delivered⟩
      · by_cases acts : j = i
        · subst acts
          simpa using follows
        · obtain ⟨p, state, supplies⟩ := replicates.follows j
          simp only [Function.update_of_ne acts]
          exact ⟨p, replica.state_append more state,
            supplies.mono fun _ _ good => replica.good_append more good⟩

end Replicates

end Deployed

end Mit6824
