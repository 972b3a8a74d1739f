import Mit6824.Raft.Cluster
import Mit6824.Raft.Moves

/-!
# Steps of the cluster

Every action is a step of one server. `Cluster.event` says of which one and with
which input, `Cluster.Meets` turns a condition on servers and inputs into one on
actions, and `step_cases` is the one place where `Cluster.step` is taken apart:
a step delivers a request, or is prompted by a packet that the server waits for
or by nothing at all.
-/

namespace Mit6824

namespace Cluster

variable {n : Nat} {α σ : Type}

/-- The server that acts, and its input. -/
def event (c : Cluster n α σ) : Action n α σ → Option (Fin n × Input n α σ)
  | .deliver packet =>
      match c.net[packet]? with
      | some (.request _ dst request) => some (dst, .request request)
      | _ => none
  | .voteReply packet =>
      match c.net[packet]? with
      | some (.reply src dst (.requestVote _) (.requestVote reply)) =>
          some (src, .voteReply dst reply)
      | _ => none
  | .entryReply packet sender =>
      match c.net[packet]? with
      | some (.reply src _ (.appendEntry _) (.appendEntry reply)) =>
          some (src, .entryReply sender reply)
      | _ => none
  | .snapShotReply packet =>
      match c.net[packet]? with
      | some (.reply src _ (.installSnapShot _) (.installSnapShot reply)) =>
          some (src, .snapShotReply reply)
      | _ => none
  | .retrySnapShotReply packet sender =>
      match c.net[packet]? with
      | some (.reply src _ (.installSnapShot _) (.installSnapShot reply)) =>
          some (src, .retrySnapShotReply sender reply)
      | _ => none
  | .internal i input => some (i, input)

/-- The condition holds of the server that acts and its input. -/
def Meets (condition : Cluster n α σ → Fin n → Input n α σ → Bool) (c : Cluster n α σ)
    (action : Action n α σ) : Prop :=
  ∀ e ∈ c.event action, condition c e.1 e.2

instance (condition : Cluster n α σ → Fin n → Input n α σ → Bool) (c : Cluster n α σ)
    (action : Action n α σ) : Decidable (c.Meets condition action) :=
  inferInstanceAs (Decidable (∀ e ∈ c.event action, condition c e.1 e.2 = true))

theorem Meets.of_event {condition : Cluster n α σ → Fin n → Input n α σ → Bool}
    {c : Cluster n α σ} {action : Action n α σ} (meets : c.Meets condition action) {i : Fin n}
    {input : Input n α σ} (event : c.event action = some (i, input)) :
    condition c i input = true :=
  meets (i, input) event

variable [DecidableEq α] [DecidableEq σ]

/-- What a server other than a handler may react to: a reply in the network that it waits for,
the end of a snapshot transfer that was given up, or its own clock, service and processes. -/
def Prompted (c : Cluster n α σ) (i : Fin n) : Input n α σ → Prop
  | .request _ => False
  | .voteReply peer reply =>
      ∃ args, .reply i peer (.requestVote args) (.requestVote reply) ∈ c.net ∧
        (c.servers i).awaitsVote args
  | .entryReply k reply =>
      ∃ peer args, .reply i peer (.appendEntry args) (.appendEntry reply) ∈ c.net ∧
        (c.servers i).awaitsEntry k peer args
  | .snapShotReply reply =>
      reply = Raft.lostReply ∨
        ∃ peer args, .reply i peer (.installSnapShot args) (.installSnapShot reply) ∈ c.net ∧
          (c.servers i).awaitsSnapShot peer args
  | .retrySnapShotReply k reply =>
      reply = Raft.lostReply ∨
        ∃ peer args, .reply i peer (.installSnapShot args) (.installSnapShot reply) ∈ c.net ∧
          (c.servers i).awaitsRetrySnapShot k peer args
  | _ => True

/-- The cluster after a handler of `dst`. -/
def answered (c : Cluster n α σ) (src dst : Fin n) (request : Request α σ) (server : Server n α σ)
    (reply : Reply) : Cluster n α σ :=
  { servers := Function.update c.servers dst server
    net := c.net ++ [.reply src dst request reply]
    supported := c.supported ++ ballot src dst request reply
    won := c.won }

/-- The cluster after any other step of `i`. -/
def acted (c : Cluster n α σ) (i : Fin n) (input : Input n α σ) (server : Server n α σ)
    (output : Output n α σ) : Cluster n α σ :=
  { servers := Function.update c.servers i server
    net := c.net ++ output.sends.map fun (dst, request) => .request i dst request
    supported := c.supported ++ c.candidacy i input
    won := c.won ++ output.won.toList.map fun round => (i, round) }

section Net

omit [DecidableEq α] [DecidableEq σ]

variable {c : Cluster n α σ} {src dst s d i : Fin n} {request r : Request α σ}
  {server : Server n α σ} {reply rep : Reply} {input : Input n α σ} {output : Output n α σ}

theorem request_mem_answered :
    Packet.request s d r ∈ (c.answered src dst request server reply).net ↔
      Packet.request s d r ∈ c.net := by
  simp [answered]

theorem reply_mem_answered :
    Packet.reply s d r rep ∈ (c.answered src dst request server reply).net ↔
      Packet.reply s d r rep ∈ c.net ∨ s = src ∧ d = dst ∧ r = request ∧ rep = reply := by
  simp [answered]

theorem request_mem_acted : Packet.request s d r ∈ (c.acted i input server output).net ↔
    Packet.request s d r ∈ c.net ∨ i = s ∧ (d, r) ∈ output.sends := by
  simp [acted, and_comm]

theorem reply_mem_acted : Packet.reply s d r rep ∈ (c.acted i input server output).net ↔
    Packet.reply s d r rep ∈ c.net := by
  simp [acted]

theorem mem_won_acted {round : Round n} : (s, round) ∈ (c.acted i input server output).won ↔
    (s, round) ∈ c.won ∨ i = s ∧ output.won = some round := by
  simp [acted, and_comm]

end Net

omit [DecidableEq α] [DecidableEq σ] in
theorem handle_output {server server' : Server n α σ} {request : Request α σ}
    {output : Output n α σ} (handled : server.handle request = some (server', output)) :
    ∃ reply, output = { reply := some reply } := by
  cases request with
  | requestVote args | appendEntry args | installSnapShot args =>
      obtain ⟨_, _, equal⟩ := Option.map_eq_some_iff.1 handled
      exact ⟨_, (congrArg Prod.snd equal).symm⟩

omit [DecidableEq α] [DecidableEq σ] in
theorem act_cases {c : Cluster n α σ} {i : Fin n} {input : Input n α σ} {c' : Cluster n α σ}
    {reply : Option Reply} (acts : c.act i input = some (c', reply)) :
    ∃ server output, (c.servers i).step i input = some (server, output) ∧
      reply = output.reply ∧
      c' = { c with
        servers := Function.update c.servers i server
        net := c.net ++ output.sends.map fun (dst, request) => .request i dst request
        won := c.won ++ output.won.toList.map fun round => (i, round) } := by
  obtain ⟨⟨server, output⟩, stepped, equal⟩ := Option.map_eq_some_iff.1 acts
  exact ⟨server, output, stepped, (congrArg Prod.snd equal).symm,
    (congrArg Prod.fst equal).symm⟩

omit [DecidableEq α] [DecidableEq σ] in
/-- A reply that is handed to a server is a step of it without a candidacy. -/
theorem acted_of_map {c c' : Cluster n α σ} {i : Fin n} {input : Input n α σ}
    (acts : (c.act i input).map Prod.fst = some c') (none : c.candidacy i input = []) :
    ∃ server output, (c.servers i).step i input = some (server, output) ∧
      c' = c.acted i input server output := by
  obtain ⟨⟨c₁, reply⟩, stepped, rfl⟩ := Option.map_eq_some_iff.1 acts
  obtain ⟨server, output, stepped', _, rfl⟩ := act_cases stepped
  exact ⟨server, output, stepped', by simp [acted, none]⟩

theorem step_cases {c c' : Cluster n α σ} {action : Action n α σ}
    (next : c.step action = some c') :
    (∃ src dst request server reply, .request src dst request ∈ c.net ∧
      c.event action = some (dst, .request request) ∧
      (c.servers dst).handle request = some (server, { reply := some reply }) ∧
      c' = c.answered src dst request server reply) ∨
    ∃ i input server output, c.Prompted i input ∧ c.event action = some (i, input) ∧
      (c.servers i).step i input = some (server, output) ∧
      c' = c.acted i input server output := by
  cases action with
  | deliver packet =>
      left
      simp only [step] at next
      split at next
      · rename_i src dst request found
        unfold deliver at next
        split at next
        · rename_i c₁ reply acts
          obtain ⟨server, output, stepped, replied, rfl⟩ := act_cases acts
          obtain ⟨reply', rfl⟩ := handle_output stepped
          cases replied
          refine ⟨src, dst, request, server, reply, List.mem_of_getElem? found, ?_, stepped, ?_⟩
          · simp [event, found]
          · simpa [answered] using next.symm
        · cases next
      · cases next
  | voteReply packet =>
      right
      simp only [step] at next
      split at next
      · rename_i src dst args reply found
        split_ifs at next with awaits
        obtain ⟨server, output, stepped, rfl⟩ := acted_of_map next rfl
        exact ⟨src, .voteReply dst reply, server, output,
          ⟨args, List.mem_of_getElem? found, awaits⟩,
          by simp [event, found], stepped, rfl⟩
      · cases next
  | entryReply packet sender =>
      right
      simp only [step] at next
      split at next
      · rename_i src dst args reply found
        split_ifs at next with awaits
        obtain ⟨server, output, stepped, rfl⟩ := acted_of_map next rfl
        exact ⟨src, .entryReply sender reply, server, output,
          ⟨dst, args, List.mem_of_getElem? found, awaits⟩,
          by simp [event, found], stepped, rfl⟩
      · cases next
  | snapShotReply packet =>
      right
      simp only [step] at next
      split at next
      · rename_i src dst args reply found
        split_ifs at next with awaits
        obtain ⟨server, output, stepped, rfl⟩ := acted_of_map next rfl
        exact ⟨src, .snapShotReply reply, server, output,
          Or.inr ⟨dst, args, List.mem_of_getElem? found, awaits⟩,
          by simp [event, found], stepped, rfl⟩
      · cases next
  | retrySnapShotReply packet sender =>
      right
      simp only [step] at next
      split at next
      · rename_i src dst args reply found
        split_ifs at next with awaits
        obtain ⟨server, output, stepped, rfl⟩ := acted_of_map next rfl
        exact ⟨src, .retrySnapShotReply sender reply, server, output,
          Or.inr ⟨dst, args, List.mem_of_getElem? found, awaits⟩,
          by simp [event, found], stepped, rfl⟩
      · cases next
  | internal i input =>
      right
      simp only [step, internal] at next
      split_ifs at next with isInternal
      obtain ⟨⟨c₁, reply⟩, stepped, rfl⟩ := Option.map_eq_some_iff.1 next
      obtain ⟨server, output, stepped', _, rfl⟩ := act_cases stepped
      refine ⟨i, input, server, output, ?_, rfl, stepped', rfl⟩
      cases input with
      | request _ | voteReply _ _ | entryReply _ _ => simp [Input.isInternal] at isInternal
      | snapShotReply reply | retrySnapShotReply _ reply =>
          exact Or.inl (by simpa [Input.isInternal] using isInternal)
      | _ => trivial

end Cluster

end Mit6824
