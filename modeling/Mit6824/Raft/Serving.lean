import Mit6824.Clients
import Mit6824.Raft.Services

/-!
# Services on a cluster and their clients

A `Serving` is a service on a Raft peer together with what its clients see of it: the requests that
come in, and what its handlers answer. `Serving.Lawful` is what is asked of the service alone, one
server at a time: a handler hands over the command of a request, and an answer rests on what the
server has consumed. Then the servers of a cluster make a service whose answers rest on one sequence
of commands (`Serving.replicated`).
-/

namespace Mit6824

variable {n : Nat} {α β σ τ S A κ χ : Type}

/-- A service on a Raft peer and what its clients see of it. -/
structure Serving (n : Nat) (α β σ S A : Type) where
  host : Host n α σ S A
  /-- The request that comes in. -/
  arrival : A → Option α
  /-- What the handler that has just gone on has answered as the leader. -/
  replies : S → A → List (α × β)
  /-- The commands of the calls that have come in. -/
  comms : S → List α
  /-- The condition on what happens to the peer. -/
  keepsPeer : S → Input n α σ → Bool
  /-- The condition on a step of the service. -/
  keepsService : S → A → Bool

namespace Serving

/-- The servers of a cluster, as the clients see them. -/
def servers [DecidableEq α] [DecidableEq σ] (serving : Serving n α β σ S A) :
    Clients.Servers n α β (Deployed n α σ S) (DeployedAction n α σ A) where
  init := .init serving.host
  step := Deployed.step serving.host
  arrival
    | .peers _ => none
    | .service i action => (serving.arrival action).map fun op => (i, op)
  replies d
    | .peers _ => []
    | .service i action => (serving.replies (d.services i) action).map fun reply => (i, reply)
  keeps d action :=
    d.keepsCommits serving.host action &&
      match action with
      | .peers action =>
          ((d.cluster serving.host).event action).all fun (i, input) =>
            serving.keepsPeer (d.services i) input
      | .service i action => serving.keepsService (d.services i) action

/-- What is asked of the service on one server. `Serves P i s` is what holds there between its
steps, if the clients have made the commands that `P` says. -/
structure Lawful [DecidableEq α] [DecidableEq σ] (serving : Serving n α β σ S A)
    (object : Numbered α β τ) (fits : α → Bool) (first : Int) (Good : List α → Nat → σ → Prop)
    (State : List α → S → Nat → Prop) (Serves : (α → Prop) → Fin n → S → Prop) : Prop where
  replica : serving.host.Replica Good State
  starting : ∀ {s a op term}, serving.host.starting s a = some (op, term) → op ∈ serving.comms s
  comms_withServer : ∀ s server,
    serving.comms (serving.host.withServer s server) = serving.comms s
  comms_boot : ∀ i, serving.comms (serving.host.boot i) = []
  comms_step : ∀ {i s a s' op}, serving.host.step i s a = some s' → op ∈ serving.comms s' →
    op ∈ serving.comms s ∨ serving.arrival a = some op
  serves_boot : ∀ {P} i, Serves P i (serving.host.boot i)
  serves_mono : ∀ {P P' : α → Prop} {i s}, Serves P i s → (∀ op, P op → P' op) → Serves P' i s
  serves_peer : ∀ {P i s input server output}, Serves P i s → serving.keepsPeer s input = true →
    input.ofService = false → (serving.host.server s).step i input = some (server, output) →
      Serves P i (serving.host.withServer s server)
  serves_step : ∀ {P i s a s'}, Serves P i s → object.Regular fits first P →
    serving.keepsService s a = true → (∀ op, serving.arrival a = some op → P op) →
    (∀ message ∈ (serving.host.server s).rf.applyCh, ∀ op ∈ message.command, P op) →
    serving.host.step i s a = some s' → Serves P i s'
  replied : ∀ {P ops i s p a s' op value}, Serves P i s → object.Regular fits first P →
    State ops s p → (∀ op ∈ ops, P op) → (∀ op ∈ serving.comms s, P op) →
    (∀ {index : Int} {op}, ⟨true, some op, index, none⟩ ∈ (serving.host.server s).rf.applyCh →
      index ≤ ops.length → op ∈ ops) →
    serving.keepsService s a = true → serving.host.step i s a = some s' →
    (op, value) ∈ serving.replies s' a →
      op ∈ serving.comms s ∧ object.Answered ops op value

/-- The servers follow one sequence, each keeps what it owes to those who wait, and the handlers
hold what the clients have made. -/
structure Sound (serving : Serving n α β σ S A) (Good : List α → Nat → σ → Prop)
    (State : List α → S → Nat → Prop) (Serves : (α → Prop) → Fin n → S → Prop) (P : α → Prop)
    (ops : List α) (d : Deployed n α σ S) : Prop where
  replicates : d.Replicates serving.host Good State P ops
  serves : ∀ i, Serves P i (d.services i)
  comms : ∀ i, ∀ op ∈ serving.comms (d.services i), P op

variable [DecidableEq α] [DecidableEq σ] {serving : Serving n α β σ S A} {object : Numbered α β τ}
  {fits : α → Bool} {first : Int} {Good : List α → Nat → σ → Prop}
  {State : List α → S → Nat → Prop} {Serves : (α → Prop) → Fin n → S → Prop} {P : α → Prop}
  {ops : List α} {d d' : Deployed n α σ S} {action : DeployedAction n α σ A}

namespace Sound

theorem serves_step (sound : serving.Sound Good State Serves P ops d)
    (lawful : serving.Lawful object fits first Good State Serves)
    (regular : object.Regular fits first P) (kept : serving.servers.keeps d action = true)
    (arrives : ∀ i op, serving.servers.arrival action = some (i, op) → P op)
    (next : d.step serving.host action = some d') : ∀ j, Serves P j (d'.services j) := by
  intro j
  have kept' := (Bool.and_eq_true_iff.1 kept).2
  cases action with
  | peers action =>
      obtain ⟨c, stepped, rfl, own⟩ := Deployed.peers_cases next
      obtain ⟨i, input, server, output, event, acts, servers, _⟩ := Cluster.step_server stepped
      simp only [Deployed.withCluster, servers]
      by_cases same : j = i
      · subst same
        rw [Function.update_self]
        simp only [event, Option.all_some] at kept'
        exact lawful.serves_peer (sound.serves j) kept' (own _ event) acts
      · rw [Function.update_of_ne same]
        have unchanged := lawful.replica.withServer_server (d.services j)
        exact unchanged.symm ▸ sound.serves j
  | service i action =>
      obtain ⟨s, stepped, rfl⟩ := Deployed.service_cases next
      by_cases same : j = i
      swap
      · simpa [same] using sound.serves j
      subst same
      simp only [Function.update_self]
      refine lawful.serves_step (sound.serves j) regular kept' (fun op arrival => ?_) ?_ stepped
      · exact arrives j op (by simp [servers, arrival])
      · exact fun message member op given =>
          ((sound.replicates.sourced.servers j).peer.channel message member).command op given

theorem comms_step (sound : serving.Sound Good State Serves P ops d)
    (lawful : serving.Lawful object fits first Good State Serves)
    (arrives : ∀ i op, serving.servers.arrival action = some (i, op) → P op)
    (next : d.step serving.host action = some d') :
    ∀ i, ∀ op ∈ serving.comms (d'.services i), P op := by
  intro i op member
  cases action with
  | peers action =>
      obtain ⟨c, _, rfl, _⟩ := Deployed.peers_cases next
      rw [Deployed.withCluster, lawful.comms_withServer] at member
      exact sound.comms i op member
  | service j action =>
      obtain ⟨s, stepped, rfl⟩ := Deployed.service_cases next
      by_cases same : i = j
      · subst same
        simp only [Function.update_self] at member
        rcases lawful.comms_step stepped member with old | new
        · exact sound.comms i op old
        · exact arrives i op (by simp [servers, new])
      · simp only [Function.update_of_ne same] at member
        exact sound.comms i op member

theorem step (sound : serving.Sound Good State Serves P ops d)
    (lawful : serving.Lawful object fits first Good State Serves)
    (regular : object.Regular fits first P) (kept : serving.servers.keeps d action = true)
    (arrives : ∀ i op, serving.servers.arrival action = some (i, op) → P op)
    (next : d.step serving.host action = some d') :
    ∃ more, serving.Sound Good State Serves P (ops ++ more) d' := by
  obtain ⟨more, replicates⟩ := sound.replicates.step lawful.replica (Bool.and_eq_true_iff.1 kept).1
    (fun _ starting => sound.comms _ _ (lawful.starting starting)) next
  exact ⟨more, replicates, sound.serves_step lawful regular kept arrives next,
    sound.comms_step lawful arrives next⟩

theorem replied (sound : serving.Sound Good State Serves P ops d)
    (lawful : serving.Lawful object fits first Good State Serves)
    (regular : object.Regular fits first P) (kept : serving.servers.keeps d action = true)
    (next : d.step serving.host action = some d') {i : Fin n} {op : α} {value : β}
    (replied : (i, op, value) ∈ serving.servers.replies d' action) :
    P op ∧ object.Answered ops op value := by
  cases action with
  | peers action => cases replied
  | service j action =>
      obtain ⟨s, stepped, rfl⟩ := Deployed.service_cases next
      obtain ⟨⟨op', value'⟩, given, equal⟩ := List.mem_map.1 replied
      cases equal
      simp only [Function.update_self] at given
      obtain ⟨p, state, _⟩ := sound.replicates.follows i
      obtain ⟨member, answered⟩ := lawful.replied (sound.serves i) regular state
        (fun op member => sound.replicates.asked member) (sound.comms i)
        (fun delivered within => sound.replicates.mem_of_delivered delivered within)
        (Bool.and_eq_true_iff.1 kept).2 stepped given
      exact ⟨sound.comms i op member, answered⟩

end Sound

/-- The servers of a cluster with clerks. -/
def setting (serving : Serving n α β σ S A) (object : Numbered α β τ) (fits : α → Bool)
    (clerks : Clients.Clerks n α κ χ) :
    Clients.Setting n α β τ (Deployed n α σ S) (DeployedAction n α σ A) κ χ :=
  { object := object, fits := fits, servers := serving.servers, clerks := clerks }

theorem replicated (clerks : Clients.Clerks n α κ χ)
    (lawful : serving.Lawful object fits clerks.first Good State Serves) :
    (serving.setting object fits clerks).Replicated (serving.Sound Good State Serves) where
  init P := by
    refine ⟨Deployed.replicates_init lawful.replica P, lawful.serves_boot, fun i op member => ?_⟩
    rw [setting, servers, Deployed.init, lawful.comms_boot] at member
    cases member
  mono sound weaker :=
    ⟨sound.replicates.mono weaker, fun i => lawful.serves_mono (sound.serves i) weaker,
      fun i op member => weaker op (sound.comms i op member)⟩
  asked sound member := sound.replicates.asked member
  step sound regular kept arrives next := sound.step lawful regular kept arrives next
  replied sound regular kept next replied := sound.replied lawful regular kept next replied

end Serving

end Mit6824
