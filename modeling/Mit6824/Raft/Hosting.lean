import Mit6824.Raft.Provenance

/-!
# What a cluster is to its service

A service on a peer takes the messages of the apply channel one after the other. `Feed` says what
they do for it: from the index it has reached they lead it on, command by command, and a snapshot
never takes it back. That needs more than the peer alone: a snapshot is installed above the commit
index because the cluster agrees on what is committed (`Commits.lt_label`).

The service hands its commands to `Start` itself, so the second half of `Start` is a step of the
service. `Agreed.startAppend` is that step; for the cluster it is one of a server whose calls of
`Start` are other ones.
-/

namespace Mit6824

open Consensus

variable {n : Nat} {α σ : Type}

/-! ## The messages on their way -/

/-- The messages that lead a service from index `p` to index `k`: the commands come in the order of
their indexes, and a snapshot goes forward to an index that its state is good for. -/
inductive Feed (good : Nat → σ → Prop) : Nat → List (ApplyMsg α σ) → Nat → Prop where
  | done (p : Nat) : Feed good p [] p
  | command {p k : Nat} {command : Option α} {rest : List (ApplyMsg α σ)}
      (feed : Feed good (p + 1) rest k) : Feed good p (⟨true, command, p + 1, none⟩ :: rest) k
  | snapshot {p q k : Nat} {state : σ} {rest : List (ApplyMsg α σ)} (forward : p ≤ q)
      (fits : good q state) (feed : Feed good q rest k) :
      Feed good p (⟨false, none, 0, some state⟩ :: rest) k

namespace Feed

variable {good good' : Nat → σ → Prop} {p q k : Nat} {messages more : List (ApplyMsg α σ)}

theorem append (feed : Feed good p messages q) (feed' : Feed good q more k) :
    Feed good p (messages ++ more) k := by
  induction feed with
  | done _ => exact feed'
  | command _ ih => exact .command (ih feed')
  | snapshot forward fits _ ih => exact .snapshot forward fits (ih feed')

theorem mono (feed : Feed good p messages k) (weaker : ∀ q state, good q state → good' q state) :
    Feed good' p messages k := by
  induction feed with
  | done p => exact .done p
  | command _ ih => exact .command ih
  | snapshot forward fits _ ih => exact .snapshot forward (weaker _ _ fits) ih

theorem le (feed : Feed good p messages k) : p ≤ k := by
  induction feed with
  | done _ => exact le_rfl
  | command _ ih => omega
  | snapshot forward _ _ ih => exact forward.trans ih

/-- The messages that deliver a part of a log. -/
theorem of_deliveries {l : List (CommandTerm α)} {a count : Nat} (bound : a + count ≤ l.length) :
    Feed good a (deliveries σ l a count) (a + count) := by
  induction count generalizing a with
  | zero => exact .done a
  | succ count ih =>
      have found : l[a]? = some l[a] := List.getElem?_eq_getElem (by omega)
      have rest := @ih (a + 1) (by omega)
      simp only [deliveries, found]
      rw [Nat.add_right_comm] at rest
      exact .command rest

end Feed

namespace Raft

variable {rf rf' : Raft α σ} {good : Nat → σ → Prop} {taken p : Nat}

/-- A service that has taken so many messages and reached index `p` is led on to what is
committed. -/
structure Supplies (rf : Raft α σ) (good : Nat → σ → Prop) (taken p : Nat) : Prop where
  delivered : taken ≤ rf.applyCh.length
  feed : Feed good p (rf.applyCh.drop taken) rf.commitIndex.toNat

namespace Supplies

theorem mono {good' : Nat → σ → Prop} (supplies : rf.Supplies good taken p)
    (weaker : ∀ q state, good q state → good' q state) : rf.Supplies good' taken p :=
  ⟨supplies.delivered, supplies.feed.mono weaker⟩

/-- The peer puts more on the channel. -/
theorem append (supplies : rf.Supplies good taken p) {more : List (ApplyMsg α σ)}
    (channel : rf'.applyCh = rf.applyCh ++ more)
    (feed : Feed good rf.commitIndex.toNat more rf'.commitIndex.toNat) :
    rf'.Supplies good taken p := by
  refine ⟨?_, ?_⟩
  · rw [channel, List.length_append]
    exact supplies.delivered.trans (Nat.le_add_right _ _)
  · rw [channel, List.drop_append_of_le_length supplies.delivered]
    exact supplies.feed.append feed

theorem make (peers : Nat) (me : Int) {persister : Persister α σ} (applyCh : List (ApplyMsg α σ))
    (saved : ∀ blob ∈ persister.readable, good blob.lastIndex.toNat blob.state) :
    (make peers me persister applyCh).Supplies good applyCh.length 0 := by
  rw [make_eq]
  refine ⟨by simp, ?_⟩
  dsimp only
  rw [List.drop_left]
  cases read : persister.readable with
  | none => exact .done 0
  | some blob => exact .snapshot (Nat.zero_le _) (saved blob read) (.done _)

/-- What the service does with the next message: it is the command after the index it has reached,
or a snapshot that does not go back. -/
theorem take {message : ApplyMsg α σ} (supplies : rf.Supplies good taken p)
    (next : rf.applyCh[taken]? = some message) :
    (∃ command, message = ⟨true, command, p + 1, none⟩ ∧ rf.Supplies good (taken + 1) (p + 1)) ∨
    ∃ q state, message = ⟨false, none, 0, some state⟩ ∧ p ≤ q ∧ good q state ∧
      rf.Supplies good (taken + 1) q := by
  obtain ⟨inside, equal⟩ := List.getElem?_eq_some_iff.1 next
  obtain ⟨_, feed⟩ := supplies
  rw [List.drop_eq_getElem_cons inside, equal] at feed
  cases feed with
  | command feed => exact Or.inl ⟨_, rfl, inside, feed⟩
  | snapshot forward fits feed => exact Or.inr ⟨_, _, rfl, forward, fits, inside, feed⟩

end Supplies

end Raft

/-- A step of the peer that is no crash. -/
theorem Server.LogMoves.supplies {i : Fin n} {server : Server n α σ} {input : Input n α σ}
    {rf' : Raft α σ} {good : Nat → σ → Prop} {taken p : Nat} (moves : LogMoves i server input rf')
    (standing : server.rf.Standing) (up : input ≠ .restart)
    (supplies : server.rf.Supplies good taken p)
    (forward : ∀ args blob, input = .request (.installSnapShot args) →
      server.rf.installs args = true → args.data = some blob →
      server.rf.commitIndex ≤ blob.lastIndex ∧ good blob.lastIndex.toNat blob.state) :
    rf'.Supplies good taken p := by
  obtain ⟨l, window⟩ := standing.window
  have nonneg := window.commit_nonneg
  by_cases goesOn : server.goesOn input = true
  · obtain ⟨l', continues⟩ := moves.continues window goesOn
    have lower := continues.lower
    have within := continues.window.commit
    refine supplies.append continues.channel ?_
    have feed : Feed good server.rf.commitIndex.toNat (deliveries σ l' server.rf.commitIndex.toNat
        (rf'.commitIndex.toNat - server.rf.commitIndex.toNat)) _ := .of_deliveries (by omega)
    rwa [Nat.add_sub_cancel' (by omega)] at feed
  · cases moves with
    | restart => exact absurd rfl up
    | @installSnapShot args blob installs data _ =>
        obtain ⟨above, fits⟩ := forward args blob rfl installs data
        exact supplies.append rfl (.snapshot (Int.toNat_le_toNat above) fits (.done _))
    | same same =>
        refine ⟨same.channel ▸ supplies.delivered, ?_⟩
        rw [same.channel, same.commit]
        exact supplies.feed
    | _ => exact absurd rfl goesOn

/-- Nothing is taken from the channel. -/
theorem Server.LogMoves.channel {i : Fin n} {server : Server n α σ} {input : Input n α σ}
    {rf' : Raft α σ} (moves : LogMoves i server input rf') (standing : server.rf.Standing) :
    server.rf.applyCh <+: rf'.applyCh := by
  obtain ⟨l, window⟩ := standing.window
  by_cases goesOn : server.goesOn input = true
  · obtain ⟨l', continues⟩ := moves.continues window goesOn
    rw [continues.channel]
    exact List.prefix_append _ _
  · cases moves with
    | same same => rw [same.channel]
    | installSnapShot _ _ _ => exact List.prefix_append _ _
    | restart =>
        rw [Raft.make_eq]
        exact List.prefix_append _ _
    | _ => exact absurd rfl goesOn

/-! ## The cluster below the service -/

namespace Cluster

variable {c c' : Cluster n α σ} {h : ClusterHistory n α} {i : Fin n}

/-- A snapshot is installed above the commit index: up to there the follower has the entries that
the leader has, so that it keeps its log. -/
theorem Commits.lt_label (commits : c.Commits h) (refines : c.Refines h) {src dst : Fin n}
    {args : InstallSnapShotArgs σ} {blob : Snapshot σ}
    (sent : .request src dst (.installSnapShot args) ∈ c.net)
    (installs : (c.rf dst).installs args = true) (data : args.data = some blob) :
    (c.rf dst).commitIndex < blob.lastIndex := by
  obtain ⟨leads, k, index, reach, lastTerm, label⟩ := refines.requests sent
  obtain ⟨_, _, decided⟩ := commits.requests sent
  have stands := refines.stands dst
  have nonneg := stands.holds.nonneg
  have commit := stands.commit
  have last := stands.holds.getLastLogIndex
  simp only [Raft.installs, Bool.and_eq_true, Bool.not_eq_true', decide_eq_false_iff_not,
    not_lt, not_le, Bool.and_eq_false_imp, decide_eq_true_eq, beq_eq_false_iff_ne] at installs
  obtain ⟨⟨_, above⟩, differs⟩ := installs
  obtain ⟨blob', found, same, _⟩ := label (by omega)
  obtain rfl := Option.some.inj (data.symm.trans found)
  by_contra! below
  have inside : k ≤ (c.rf dst).commitIndex.toNat := by omega
  rw [index, Int.toNat_natCast] at decided
  have front : (h.log dst).take k = (h.ledger args.term).take k := by
    have own : ((h.log dst).take (c.rf dst).commitIndex.toNat).take k = (h.log dst).take k := by
      rw [List.take_take, min_eq_left inside]
    have size : ((h.log dst).take (c.rf dst).commitIndex.toNat).length =
        (c.rf dst).commitIndex.toNat := by
      rw [List.length_take]
      omega
    rcases (commits.committed dst).compare Majority.meet refines.inv decided with within | within
    · rw [← own, take_eq_of_isPrefix within (by omega), List.take_take, min_self]
    · rw [← own, ← take_eq_of_isPrefix within (by rw [List.length_take]; omega), List.take_take,
        min_self]
  obtain ⟨entry, slot, term, _⟩ := stands.holds.slot_at (k := k) (by omega) (by omega)
  refine differs (by omega) ?_
  rw [index, slot, Option.map_some, term, lastTerm, termAt, termAt, front]

/-- What a run under the condition keeps. -/
structure Agreed (c : Cluster n α σ) : Prop where
  routed : c.Routed
  ballots : c.Ballots
  history : ∃ h, c.Refines h ∧ c.Commits h

theorem agreed_init (n : Nat) (α σ : Type) : (init n α σ).Agreed :=
  ⟨routed_init n α σ, ballots_init n α σ, _, refines_init n α σ, commits_init n α σ⟩

namespace Agreed

/-- One command for each index. -/
theorem command_eq (agreed : c.Agreed) {j : Fin n} {command command' : Option α} {index : Int}
    {state state' : Option σ} (delivered : ⟨true, command, index, state⟩ ∈ (c.rf i).applyCh)
    (delivered' : ⟨true, command', index, state'⟩ ∈ (c.rf j).applyCh) : command = command' := by
  obtain ⟨h, refines, commits⟩ := agreed.history
  exact (commits.delivered delivered).command_eq refines.inv (commits.delivered delivered') rfl rfl
    rfl

theorem exists_index (agreed : c.Agreed) {command : Option α} {index : Int} {state : Option σ}
    (delivered : ⟨true, command, index, state⟩ ∈ (c.rf i).applyCh) : ∃ k : Nat, index = k + 1 := by
  obtain ⟨h, _, commits⟩ := agreed.history
  obtain ⟨_, _, k, _, _, _, _, found⟩ := commits.delivered delivered rfl
  exact ⟨k, found⟩

theorem lt_label (agreed : c.Agreed) {src dst : Fin n} {args : InstallSnapShotArgs σ}
    {blob : Snapshot σ} (sent : .request src dst (.installSnapShot args) ∈ c.net)
    (installs : (c.rf dst).installs args = true) (data : args.data = some blob) :
    (c.rf dst).commitIndex < blob.lastIndex := by
  obtain ⟨h, refines, commits⟩ := agreed.history
  exact commits.lt_label refines sent installs data

end Agreed

/-- The cluster with other calls of `Start` under way. -/
def withStarts (c : Cluster n α σ) (starts : Fin n → List (α × Int)) : Cluster n α σ :=
  { c with servers := fun i => { c.servers i with starts := starts i } }

/-- The cluster with another peer on server `i`. -/
def withPeer (c : Cluster n α σ) (i : Fin n) (rf : Raft α σ) : Cluster n α σ :=
  { c with servers := Function.update c.servers i { c.servers i with rf := rf } }

theorem Agreed.withStarts (agreed : c.Agreed) (starts : Fin n → List (α × Int)) :
    (c.withStarts starts).Agreed := by
  obtain ⟨routed, ballots, h, refines, commits⟩ := agreed
  refine ⟨⟨fun i => ?_, routed.requests, routed.replies, routed.counting, routed.won⟩,
    ⟨ballots.once, ballots.granted, ballots.standing, ballots.won⟩, h, ?_, ?_⟩
  · exact ⟨(routed.placed i).me, (routed.placed i).peers, (routed.placed i).phase,
      (routed.placed i).senders⟩
  · exact ⟨refines.inv, refines.term, refines.nonneg, refines.stands, refines.votes,
      refines.rounds, refines.won, refines.requests, refines.replies⟩
  · exact ⟨commits.committed, commits.delivered, commits.waiting, commits.matched,
      commits.requests, commits.replies⟩

theorem Sourced.withStarts {P : α → Prop} {Q : Snapshot σ → Prop} (sourced : c.Sourced P Q)
    {starts : Fin n → List (α × Int)} (started : ∀ i, ∀ start ∈ starts i, P start.1) :
    (c.withStarts starts).Sourced P Q :=
  ⟨fun i => ⟨(sourced.servers i).peer, started i⟩, sourced.requests⟩

variable [DecidableEq α] [DecidableEq σ]

theorem Agreed.step {action : Action n α σ} (agreed : c.Agreed)
    (kept : c.Meets keepsCommits action) (next : c.step action = some c') : c'.Agreed := by
  obtain ⟨routed, ballots, h, refines, commits⟩ := agreed
  have once : c.Meets votesOnce action := by
    intro e event
    have := kept e event
    simp only [keepsCommits, keepsLogs, Bool.and_eq_true] at this
    exact this.1.1.1
  have routed' := routed.step next
  have ballots' := ballots.step routed once next
  obtain ⟨h', _, refines', commits'⟩ := commits.step refines routed routed' ballots' kept next
  exact ⟨routed', ballots', h', refines', commits'⟩

/-- The server that acts in a step; a request that it handles was sent to it. -/
theorem step_server {action : Action n α σ} (next : c.step action = some c') :
    ∃ i input server output, c.event action = some (i, input) ∧
      (c.servers i).step i input = some (server, output) ∧
      c'.servers = Function.update c.servers i server ∧
      ∀ request, input = .request request → ∃ src, .request src i request ∈ c.net := by
  rcases step_cases next with
    ⟨src, dst, request, server, reply, sent, event, handled, rfl⟩ |
    ⟨i, input, server, output, prompted, event, stepped, rfl⟩
  · refine ⟨dst, _, server, _, event, handled, rfl, fun other same => ?_⟩
    cases same
    exact ⟨src, sent⟩
  · refine ⟨i, input, server, output, event, stepped, rfl, ?_⟩
    rintro request rfl
    exact prompted.elim

/-- A step that sends nothing. -/
theorem step_silent {input : Input n α σ} {server : Server n α σ} (own : input.isInternal = true)
    (unsupported : c.candidacy i input = [])
    (stepped : (c.servers i).step i input = some (server, {})) :
    c.step (.internal i input) = some { c with servers := Function.update c.servers i server } := by
  simp [Cluster.step, internal, own, act, stepped, unsupported]

section StartAppend

variable {command : α} {curTerm index : Int} {rf' : Raft α σ}

/-- The second half of `Start` is a step of the cluster that has no other call of it. -/
theorem step_startAppend (appended : (c.rf i).startAppend command curTerm = some (rf', index)) :
    ∃ c₁, (c.withStarts fun _ => [(command, curTerm)]).step (.internal i (.startAppend 0)) =
      some c₁ ∧ c.withPeer i rf' = c₁.withStarts fun j => (c.servers j).starts := by
  have stepped : ((c.withStarts fun _ => [(command, curTerm)]).servers i).step i
      (.startAppend 0) = some ({ c.servers i with rf := rf', starts := [] }, {}) := by
    change ((c.rf i).startAppend command curTerm).map _ = _
    rw [appended]
    rfl
  refine ⟨_, step_silent rfl rfl stepped, ?_⟩
  simp only [withPeer, Cluster.withStarts, Cluster.mk.injEq, and_true]
  funext j
  by_cases same : j = i
  · subst same
    simp only [Function.update_self]
  · simp only [Function.update_of_ne same]

/-- A service starts a command on a peer that leads the term it has won. -/
theorem Agreed.startAppend (agreed : c.Agreed)
    (appended : (c.rf i).startAppend command curTerm = some (rf', index))
    (won : c.hasWon i curTerm = true) (current : curTerm = (c.rf i).currentTerm) :
    (c.withPeer i rf').Agreed := by
  obtain ⟨c₁, next, equal⟩ := step_startAppend appended
  rw [equal]
  refine ((agreed.withStarts _).step (fun e event => ?_) next).withStarts _
  obtain rfl := Option.some.inj event
  have leads : (c.hasWon i curTerm && curTerm == (c.rf i).currentTerm) = true := by
    rw [won, beq_iff_eq.2 current, Bool.and_self]
  simp only [keepsCommits, keepsLogs, votesOnce, Server.keepsLog, Server.keepsCommit,
    Server.shipment, Option.all_none, Bool.true_and, Bool.and_true]
  exact leads

theorem Sourced.startAppend {P : α → Prop} {Q : Snapshot σ → Prop} (sourced : c.Sourced P Q)
    (appended : (c.rf i).startAppend command curTerm = some (rf', index)) (brings : P command) :
    (c.withPeer i rf').Sourced P Q := by
  obtain ⟨c₁, next, equal⟩ := step_startAppend appended
  rw [equal]
  refine ((sourced.withStarts fun _ start member => ?_).step ?_ next).withStarts
    fun j => (sourced.servers j).starts
  · rw [List.mem_singleton.1 member]
    exact brings
  · intro j input same
    cases same
    exact trivial

end StartAppend

end Cluster

end Mit6824
