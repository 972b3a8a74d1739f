import Mathlib.Data.Int.Interval
import Mit6824.Raft.Commitment
import Mit6824.Raft.Delivery

/-!
# Commitments are kept

Under `Cluster.keepsCommits` the history of a run also has the acknowledgements that
its leaders count and the commitments they make (`Commits.step`, `agreed`). Beyond
`keepsLogs` the condition leaves out the steps with which a leader takes a follower to
have what it does not have: a snapshot that was lost, a reply to a message of an earlier
leadership, a next index that is ahead of the follower. It also leaves out a commit of an
entry of an earlier term, or of one that is not on more than half of the servers.
-/

namespace Mit6824

open Consensus

variable {n : Nat} {α σ : Type}

/-! ## The condition -/

namespace Raft

/-- The follower has said that it has everything up to the new match index `m`. -/
def confirms (rf : Raft α σ) (sender : Sender n α σ) (reply : AppendEntryReply) (m : Int) :
    Bool :=
  reply.commitIndex != 0 ||
    decide (m ≤ sender.appEn.prevLogIndex + sender.appEn.entries.length) ||
    rf.matchIndex[sender.ind.val]? == some m

/-- If the commit rule is used with the new match index `m`, and picks an index above the commit
index, then the entry there is of the current term, and more than half of the servers have it. -/
def countsOwnTerm (rf : Raft α σ) (sender : Sender n α σ) (m : Int) : Bool :=
  decide (m < sender.prevLogIndex) || decide (m ≤ rf.commitIndex) ||
    (rf.setProgress sender.ind m).toBeCommitIndex.all fun median =>
      decide (median ≤ rf.commitIndex) ||
        (rf.entryAt median).any (fun entry => entry.term == rf.currentTerm) &&
          decide (n < 2 * (Finset.univ.filter fun j : Fin n =>
            (rf.setProgress sender.ind m).matchIndex[j.val]?.any (median ≤ ·)).card)

theorem countsOwnTerm_cases {rf : Raft α σ} {sender : Sender n α σ} {m median : Int}
    (counts : rf.countsOwnTerm sender m = true) (far : sender.prevLogIndex ≤ m)
    (beyond : rf.commitIndex < m)
    (picked : (rf.setProgress sender.ind m).toBeCommitIndex = some median) :
    median ≤ rf.commitIndex ∨
      (∃ entry, rf.entryAt median = some entry ∧ entry.term = rf.currentTerm) ∧
        n < 2 * (Finset.univ.filter fun j : Fin n =>
          (rf.matchIndex.set sender.ind m)[j.val]?.any (median ≤ ·)).card := by
  rw [countsOwnTerm, decide_eq_false (not_lt.2 far), decide_eq_false (not_le.2 beyond),
    Bool.false_or, Bool.false_or, picked, Option.all_some, Bool.or_eq_true, Bool.and_eq_true,
    decide_eq_true_eq, decide_eq_true_eq, Option.any_eq_true] at counts
  refine counts.imp_right fun ⟨⟨entry, found, own⟩, majority⟩ => ⟨⟨entry, found, ?_⟩, majority⟩
  simpa using own

end Raft

namespace Server

/-- The server runs `LeaderProcess` in a term it has won. -/
def reigns (server : Server n α σ) (won : Int → Bool) : Bool :=
  server.phase.isLeader && won server.rf.currentTerm

/-- The follower, the snapshot and the reply with which a transfer ends. -/
def shipment (server : Server n α σ) :
    Input n α σ → Option (Fin n × InstallSnapShotArgs σ × InstallSnapShotReply)
  | .snapShotReply reply =>
      match server.phase with
      | .snapshotting _ _ _ ind _ args => some (ind, args, reply)
      | _ => none
  | .retrySnapShotReply k reply =>
      server.senders[k]?.bind fun sender =>
        sender.snapshot.map fun args => (sender.ind, args, reply)
  | _ => none

/-- A snapshot is answered in its own term only. What a reigning leader counts answers a message
of its own term, and a snapshot it counts has arrived. -/
def keepsCommit (server : Server n α σ) (won : Int → Bool) : Input n α σ → Bool
  | .request (.installSnapShot args) => decide (args.term ≤ server.rf.currentTerm)
  | .entryReply k reply =>
      server.senders[k]?.all fun sender =>
        !reply.success || sender.appEn.entries.isEmpty ||
          if server.reigns won then
            sender.appEn.term == server.rf.currentTerm &&
              (server.rf.newMatch sender.ind sender.appEn reply).all fun m =>
                server.rf.confirms sender reply m && server.rf.countsOwnTerm sender m
          else server.rf.leaderNum != server.rf.me
  | input =>
      (server.shipment input).all fun (_, args, reply) =>
        !server.reigns won || reply.errCode == 1 ||
          args.term == server.rf.currentTerm && (reply.errCode != 0 || reply.success)

/-- What the condition says where a match index is set. -/
theorem counts_of_keepsCommit {server : Server n α σ} {won : Int → Bool} {k : Nat}
    {reply : AppendEntryReply} {sender : Sender n α σ} {m : Int}
    (kept : server.keepsCommit won (.entryReply k reply) = true)
    (found : server.senders[k]? = some sender) (success : reply.success = true)
    (nonempty : sender.appEn.entries ≠ [])
    (reached : server.rf.newMatch sender.ind sender.appEn reply = some m) :
    if server.reigns won then
      sender.appEn.term = server.rf.currentTerm ∧ server.rf.confirms sender reply m = true ∧
        server.rf.countsOwnTerm sender m = true
    else server.rf.leaderNum ≠ server.rf.me := by
  simp only [keepsCommit, found, Option.all_some, success, Bool.not_true, Bool.false_or,
    List.isEmpty_eq_false_iff.2 nonempty, reached] at kept
  split_ifs at kept ⊢ with reigns
  · simpa only [Bool.and_eq_true, beq_iff_eq] using kept
  · exact bne_iff_ne.1 kept

end Server

namespace Cluster

def keepsCommits [DecidableEq α] (c : Cluster n α σ) (i : Fin n) (input : Input n α σ) : Bool :=
  c.keepsLogs i input && (c.servers i).keepsCommit (c.hasWon i) input

end Cluster

/-! ## What a step does to the commit and match indices -/

namespace Server

variable {i : Fin n} {server server' : Server n α σ} {input : Input n α σ}
  {output : Output n α σ}

theorem handle_frame {request : Request α σ}
    (handled : server.handle request = some (server', output)) :
    server'.phase = server.phase ∧ server'.rf.matchIndex = server.rf.matchIndex := by
  cases request with
  | requestVote args =>
      obtain ⟨⟨rf, _⟩, voted, equal⟩ := Option.map_eq_some_iff.1 handled
      cases equal
      rcases Raft.requestVote_cases voted with
        ⟨rfl, _⟩ | ⟨_, _, rfl, _⟩ | ⟨_, _, _, _, rfl⟩ | ⟨_, _, _, _, _, rfl⟩
      all_goals exact ⟨rfl, rfl⟩
  | appendEntry args =>
      obtain ⟨_, appended, equal⟩ := Option.map_eq_some_iff.1 handled
      cases equal
      exact ⟨rfl, (Raft.appendEntry_role appended).2.2.1⟩
  | installSnapShot args =>
      obtain ⟨⟨rf, _⟩, installed, equal⟩ := Option.map_eq_some_iff.1 handled
      cases equal
      rcases Raft.installSnapShot_cases installed with
        ⟨rfl, _⟩ | ⟨rfl, _⟩ | ⟨rfl, _⟩ | ⟨_, _, _, _, _, _, _, _, rfl⟩
      all_goals exact ⟨rfl, rfl⟩

section

variable (moves : Moves i server input server' output)
  (own : ∀ request, input ≠ .request request) (other : ∀ k reply, input ≠ .entryReply k reply)
include moves own other

/-- The match indices of a leader are reset at the start, its own is set by `Start`, and one is
set at the end of a snapshot transfer. -/
theorem Moves.matchIndex (leads : server'.phase.isLeader = true) :
    output.won = none ∧
      (server'.rf.matchIndex = List.replicate server.rf.peers 0 ∨
        server.phase.isLeader = true ∧
          (server'.rf.matchIndex = server.rf.matchIndex ∨
            (∃ k, input = .startAppend k) ∧ server'.rf.matchIndex =
              server.rf.matchIndex.set server.rf.me.toNat server'.rf.getLastLogIndex ∨
            ∃ ind args reply, server.shipment input = some (ind, args, reply) ∧
              server'.rf.matchIndex = (server.rf.snapShotReply ind args reply).matchIndex)) := by
  cases moves with
  | requestVote _ | appendEntry _ | installSnapShot _ => exact absurd rfl (own _)
  | entryReply _ _ _ _ => exact absurd rfl (other _ _)
  | lead _ _ started =>
      rw [Raft.startLeader_frame started]
      exact ⟨rfl, Or.inl rfl⟩
  | heartbeat phase | distributed phase | snapshot phase _ _ | leaderNotified phase =>
      exact ⟨rfl, Or.inr ⟨by rw [phase]; rfl, Or.inl rfl⟩⟩
  | distribute phase _ spawned =>
      obtain ⟨_, frame⟩ := spawn_rf spawned
      rw [frame]
      exact ⟨(spawn_phase spawned).2, Or.inr ⟨by rw [phase]; rfl, Or.inl rfl⟩⟩
  | snapShotReply phase spawned =>
      obtain ⟨_, frame⟩ := spawn_rf spawned
      rw [frame]
      exact ⟨(spawn_phase spawned).2, Or.inr ⟨by rw [phase]; rfl,
        Or.inr (Or.inr ⟨_, _, _, by simp [shipment, phase], rfl⟩)⟩⟩
  | retrySnapShotReply found waits _ proceeds =>
      obtain ⟨_, frame⟩ := proceed_rf proceeds
      obtain ⟨phase, won⟩ := proceed_phase proceeds
      rw [frame]
      exact ⟨won, Or.inr ⟨phase ▸ leads,
        Or.inr (Or.inr ⟨_, _, _, by simp [shipment, found, waits], rfl⟩)⟩⟩
  | startAppend _ appended =>
      obtain ⟨rfl, rfl⟩ := Raft.startAppend_frame appended
      refine ⟨rfl, Or.inr ⟨leads, Or.inr (Or.inl ⟨⟨_, rfl⟩, ?_⟩)⟩⟩
      simp only [Raft.persist, Raft.getLastLogIndex, List.length_append, List.length_singleton]
      congr 1
      push_cast
      omega
  | takeSnapshots _ taken =>
      rcases Raft.takeSnapshots_cases taken with rfl | ⟨_, _, _, _, _, _, rfl⟩
      all_goals exact ⟨rfl, Or.inr ⟨leads, Or.inl rfl⟩⟩
  | entryGivenUp | entryAgain _ | notLeader _ | startCheck _ | followerNotified _ =>
      exact ⟨rfl, Or.inr ⟨leads, Or.inl rfl⟩⟩
  | startRound _ _ | victory _ _ _ _ | outdated _ _ | counted _ _ | roundTimeout _
  | roundNotified _ | follow _ _ | termTimeout _ | deposed _ _ | followerTimeout _ | restart =>
      cases leads

end

/-- How a leader comes to wait for a snapshot. -/
theorem Moves.snapshotting (moves : Moves i server input server' output) {cache : TermCache}
    {logLen : Int} {todo : List (Fin n)} {ind : Fin n} {appEn : AppendEntryArgs α}
    {shipped : InstallSnapShotArgs σ}
    (phase' : server'.phase = .snapshotting cache logLen todo ind appEn shipped) :
    server.phase = .snapshotting cache logLen todo ind appEn shipped ∨
      (ind, .installSnapShot server'.rf.snapShotArgs) ∈ output.sends ∧
        appEn.term = server'.rf.currentTerm ∧ appEn.leaderCommit = server'.rf.commitIndex := by
  cases moves with
  | requestVote _ | appendEntry _ | installSnapShot _ | followerNotified _ | entryGivenUp
  | entryAgain _ | notLeader _ | startCheck _ | startAppend _ _ | takeSnapshots _ _ =>
      exact Or.inl phase'
  | snapshot _ entry _ =>
      cases phase'
      obtain ⟨_, _, rfl⟩ := Raft.newEntry_eq entry
      exact Or.inr ⟨List.mem_singleton_self _, rfl, rfl⟩
  | distribute _ _ spawned | snapShotReply _ spawned =>
      rw [(spawn_phase spawned).1] at phase'
      cases phase'
  | entryReply _ _ _ proceeds | retrySnapShotReply _ _ _ proceeds =>
      exact Or.inl ((proceed_phase proceeds).1 ▸ phase')
  | _ => cases phase'

end Server

/-! ## Moving on in the history -/

namespace Cluster

variable {c : Cluster n α σ} {h h' : ClusterHistory n α} {i : Fin n} {input : Input n α σ}
  {server : Server n α σ} {output : Output n α σ}

/-- The history may remember more acknowledgements and commitments. -/
theorem Refines.later (refines : c.Refines h) (steps : ProtocolSteps n h h')
    (term : h'.term = h.term) (log : h'.log = h.log) (vote : h'.vote = h.vote) :
    c.Refines h' := by
  obtain ⟨inv', ext⟩ := History.Steps.inv_extends refines.inv steps
  refine ⟨inv', ?_, ?_, ?_, ?_, ?_, ?_, ?_, ?_⟩
  · rw [term]
    exact refines.term
  · rw [term]
    exact refines.nonneg
  · rw [log]
    exact refines.stands
  · intro v t d
    rw [vote]
    exact refines.votes
  · rw [term]
    exact refines.rounds
  · intro j round member
    rw [term]
    obtain ⟨reached, leads⟩ := refines.won member
    exact ⟨reached, fun same => ext.leader (leads same)⟩
  · exact fun sent => (refines.requests sent).mono refines.inv steps
  · exact fun sent => (refines.replies sent).mono refines.inv steps

/-- A server may acknowledge what it has in its log. -/
theorem Refines.acknowledge (refines : c.Refines h) {t : Int} {k : Nat}
    (led : h.leader t ≠ none) (present : h.term i = t) (has : (h.ledger t).take k <+: h.log i)
    (bound : k ≤ (h.ledger t).length) :
    ∃ h', ProtocolSteps n h h' ∧ h'.term = h.term ∧ h'.log = h.log ∧ (i, t, k) ∈ h'.acked ∧
      c.Refines h' := by
  have steps : ProtocolSteps n h (h.accept i t k) := .single (.accept led present.le bound)
  have term : (h.accept i t k).term = h.term := by
    simp only [History.accept]
    rw [← present, Function.update_eq_self]
  have log : (h.accept i t k).log = h.log := by
    simp only [History.accept]
    rw [graft_of_has has, Function.update_eq_self]
  exact ⟨_, steps, term, log, Set.mem_insert _ _, refines.later steps term log rfl⟩

/-- A server that has won the term it comes to was in it before. -/
theorem Refines.stays (refines : c.Refines h) (steps : ProtocolSteps n h h')
    (won : c.hasWon i (h'.term i) = true) : h'.term i = h.term i := by
  obtain ⟨_, ext⟩ := History.Steps.inv_extends refines.inv steps
  obtain ⟨round, member, term⟩ := hasWon_iff.1 won
  exact le_antisymm (term ▸ (refines.won member).1) (ext.term i)

/-- What was committed is still decided where the log has kept it. -/
theorem Commits.still (commits : c.Commits h) (inv : ProtocolInv n h)
    (steps : ProtocolSteps n h h') {k : Nat} (le : k ≤ (c.rf i).commitIndex.toNat)
    (same : (h'.log i).take k = (h.log i).take k) :
    h'.Decided (h'.term i) ((h'.log i).take k) := by
  obtain ⟨_, ext⟩ := History.Steps.inv_extends inv steps
  rw [same]
  refine ((commits.committed i).extend inv ext).mono (ext.term i) ?_
  rw [← min_eq_left le, ← List.take_take]
  exact List.take_prefix _ _

/-- What a server has decided, it has in common with the leader of its term. -/
theorem Refines.take_ledger (refines : c.Refines h) {t : Int} {k : Nat} (led : h.leader t ≠ none)
    (present : h.term i = t) (decided : h.Decided (h.term i) ((h.log i).take k))
    (bound : k ≤ (h.log i).length) :
    k ≤ (h.ledger t).length ∧ (h.ledger t).take k = (h.log i).take k := by
  have within := decided.isPrefix_ledger Majority.meet refines.inv led present.le
  have length : ((h.log i).take k).length = k := by
    rw [List.length_take, min_eq_left bound]
  have reach : k ≤ (h.ledger t).length := length ▸ within.length_le
  refine ⟨reach, ?_⟩
  rw [← take_eq_of_isPrefix within length.ge, List.take_take, min_self]

/-- Two grounded logs agree up to an index where the term of the one is that of a later index of
the other. -/
theorem take_eq_of_termAt {l l' : List (CommandTerm α)}
    (grounded : h.Grounded CommandTerm.term l) (grounded' : h.Grounded CommandTerm.term l')
    {p b : Nat} (le : p ≤ b) (bound : p ≤ l.length) (bound' : b ≤ l'.length)
    (same : termAt l p = termAt l' b) : l.take p = l'.take p := by
  cases p with
  | zero => rfl
  | succ q =>
      obtain ⟨r, rfl⟩ : ∃ r, b = r + 1 := ⟨b - 1, by omega⟩
      have found : l[q]? = some (l[q]) := List.getElem?_eq_getElem (by omega)
      have found' : l'[r]? = some (l'[r]) := List.getElem?_eq_getElem (by omega)
      rw [termAt_succ found, termAt_succ found'] at same
      have within := (grounded found).2
      have within' := (grounded' found').2
      rw [← same] at within'
      have shorter : l.take (q + 1) <+: l'.take (r + 1) := by
        refine List.prefix_of_prefix_length_le within within' ?_
        simp only [List.length_take]
        omega
      have := take_eq_of_isPrefix shorter (k := q + 1) (by simp only [List.length_take]; omega)
      rwa [List.take_take, List.take_take, min_self, min_eq_left le] at this

/-! ## Handlers -/

section Handlers

variable {src dst : Fin n} {request : Request α σ} {reply : Reply}

theorem rf_answered : (c.answered src dst request server reply).rf dst = server.rf := by
  simp [Cluster.rf, answered]

/-- A handler of `dst`. -/
theorem Commits.answered_of (commits : c.Commits h) (refines : c.Refines h)
    (steps : ProtocolSteps n h h') (still : Concerns dst h h')
    (handled : (c.servers dst).handle request = some (server, { reply := some reply }))
    (committed : h'.Decided (h'.term dst) ((h'.log dst).take server.rf.commitIndex.toNat))
    (delivered : ∀ {message}, message ∈ server.rf.applyCh →
      message ∈ (c.rf dst).applyCh ∨ message.Settled h')
    (told : reply.Told h' dst request) :
    (c.answered src dst request server reply).Commits h' := by
  obtain ⟨_, ext⟩ := History.Steps.inv_extends refines.inv steps
  obtain ⟨phase, matchIndex⟩ := Server.handle_frame handled
  refine commits.update refines.inv steps still rfl (fun _ member => member) committed delivered
    ?_ ?_ ?_ ?_
  · intro cache logLen todo ind appEn shipped waits
    rw [phase] at waits
    exact (commits.waiting waits).mono refines.inv steps
  · intro leads won j m found positive
    rw [phase] at leads
    rw [matchIndex] at found
    have same := refines.stays steps won
    rw [same] at won ⊢
    exact ext.ackedBy (commits.matched leads won found positive)
  · intro s d r member
    exact Or.inl (request_mem_answered.1 member)
  · intro s d r rep member
    rcases reply_mem_answered.1 member with old | ⟨rfl, rfl, rfl, rfl⟩
    · exact Or.inl old
    · exact Or.inr told

/-- A handler of `dst` whose reply tells that the log agrees with the ledger of `t` up to `k`. -/
theorem Commits.answered_acknowledge (commits : c.Commits h) (refines : c.Refines h)
    (steps : ProtocolSteps n h h') (still : Concerns dst h h')
    (handled : (c.servers dst).handle request = some (server, { reply := some reply }))
    (refines' : (c.answered src dst request server reply).Refines h')
    (committed : h'.Decided (h'.term dst) ((h'.log dst).take server.rf.commitIndex.toNat))
    (channel : server.rf.applyCh = (c.rf dst).applyCh) {t : Int} {k : Nat}
    (led : h'.leader t ≠ none) (present : h'.term dst = t) (reach : k ≤ (h'.ledger t).length)
    (front : (h'.ledger t).take k = (h'.log dst).take k)
    (told : ∀ {h'' : ClusterHistory n α}, (dst, t, k) ∈ h''.acked → reply.Told h'' dst request) :
    ∃ h'', ProtocolSteps n h h'' ∧ (c.answered src dst request server reply).Refines h'' ∧
      (c.answered src dst request server reply).Commits h'' := by
  obtain ⟨h'', steps', terms, logs, acked, refines''⟩ :=
    refines'.acknowledge led present (front ▸ List.take_prefix _ _) reach
  have still' : Concerns dst h h'' := by
    intro j other
    rw [terms, logs]
    exact still j other
  obtain ⟨_, ext'⟩ := History.Steps.inv_extends refines'.inv steps'
  refine ⟨h'', steps.trans steps', refines'', commits.answered_of refines (steps.trans steps')
    still' handled ?_ ?_ (told acked)⟩
  · rw [terms, logs]
    exact committed.extend refines'.inv ext'
  · intro message member
    rw [channel] at member
    exact Or.inl member

theorem Commits.requestVote (commits : c.Commits h) (refines : c.Refines h)
    {args : RequestVoteArgs} (sent : .request src dst (.requestVote args) ∈ c.net)
    (handled : (c.servers dst).handle (.requestVote args) =
      some (server, { reply := some reply }))
    (ballots' : (c.answered src dst (.requestVote args) server reply).Ballots) :
    ∃ h', ProtocolSteps n h h' ∧ (c.answered src dst (.requestVote args) server reply).Refines h' ∧
      (c.answered src dst (.requestVote args) server reply).Commits h' := by
  obtain ⟨h', steps, still, log, refines'⟩ := refines.requestVote sent handled ballots'
  obtain ⟨⟨rf, answer⟩, voted, equal⟩ := Option.map_eq_some_iff.1 handled
  cases equal
  have same : rf.commitIndex = (c.servers dst).rf.commitIndex ∧
      rf.applyCh = (c.servers dst).rf.applyCh := by
    rcases Raft.requestVote_cases voted with
      ⟨rfl, _⟩ | ⟨_, _, rfl, _⟩ | ⟨_, _, _, _, rfl⟩ | ⟨_, _, _, _, _, rfl⟩
    all_goals exact ⟨rfl, rfl⟩
  refine ⟨h', steps, refines', commits.answered_of refines steps still handled ?_ ?_ trivial⟩
  · dsimp only
    rw [same.1]
    exact commits.still refines.inv steps le_rfl (by rw [log])
  · intro message member
    dsimp only at member
    rw [same.2] at member
    exact Or.inl member

/-- The messages for the entries of a decided log. -/
theorem settled_of_deliveries {t : Int} {l : List (CommandTerm α)} {a k : Nat}
    (decided : h.Decided t (l.take k)) {message : ApplyMsg α σ}
    (member : message ∈ deliveries σ l a (k - a)) : message.Settled h := by
  obtain ⟨m, entry, lower, upper, found, rfl⟩ := mem_deliveries member
  refine fun _ => ⟨t, l.take k, m, entry, decided, ?_, rfl, rfl⟩
  rw [List.getElem?_take_of_lt (by omega), found]

theorem Commits.appendEntry [DecidableEq α] (commits : c.Commits h) (refines : c.Refines h)
    {args : AppendEntryArgs α} (sent : .request src dst (.appendEntry args) ∈ c.net)
    (handled : (c.servers dst).handle (.appendEntry args) =
      some (server, { reply := some reply }))
    (kept : (c.servers dst).keepsLog (.request (.appendEntry args)) = true) :
    ∃ h', ProtocolSteps n h h' ∧ (c.answered src dst (.appendEntry args) server reply).Refines h' ∧
      (c.answered src dst (.appendEntry args) server reply).Commits h' := by
  obtain ⟨h', steps, still, agree, refines'⟩ := refines.appendEntry sent handled kept
  obtain ⟨inv', ext⟩ := History.Steps.inv_extends refines.inv steps
  obtain ⟨⟨rf, answer⟩, appended, equal⟩ := Option.map_eq_some_iff.1 handled
  cases equal
  dsimp only at agree
  have term' : rf.currentTerm = h'.term dst := by simpa [rf_answered] using refines'.term dst
  have stands' : rf.Stands (h'.log dst) := by simpa [rf_answered] using refines'.stands dst
  obtain ⟨leads, b, le, bound', prevTerm, _⟩ := refines.requests sent
  have led : h.leader args.term ≠ none := by simp [leads]
  -- The commit index has not moved.
  have unmoved : rf.commitIndex = (c.rf dst).commitIndex →
      h'.Decided (h'.term dst) ((h'.log dst).take rf.commitIndex.toNat) := by
    intro same
    exact commits.still refines.inv steps (by rw [same]) agree
  rcases (refines.stands dst).appendEntry appended with
    ⟨_, rfl, denied⟩ | ⟨current, moved, ⟨_, channel, same, answer'⟩ |
      ⟨p, k', prev, committed, bound, sameTerm, success, zero, reach, commit, channel, _⟩⟩
  · refine ⟨h', steps, refines', commits.answered_of refines steps still handled (unmoved rfl)
      (fun member => Or.inl member) ?_⟩
    intro success
    simp [denied] at success
  · have decided := unmoved same
    -- What is below the commit index is also in the ledger of the message's term.
    have bound := stands'.commit
    obtain ⟨reach, front⟩ := refines'.take_ledger (k := rf.commitIndex.toNat) (ext.led led)
      (term'.symm.trans moved) decided (by omega)
    refine commits.answered_acknowledge refines steps still handled refines' decided channel
      (ext.led led) (term'.symm.trans moved) reach front ?_
    intro h'' acked success _
    rcases answer' with denied | ⟨_, _, told⟩
    · simp [denied] at success
    · rw [told, ← same]
      exact acked
  · have decided : h'.Decided (h'.term dst) ((h'.log dst).take rf.commitIndex.toNat) := by
      by_cases raised : (c.rf dst).commitIndex < rf.commitIndex
      · obtain ⟨_, _, decided⟩ := commits.requests sent
        have front := take_eq_of_termAt (refines.inv.grounded dst) (refines.inv.ledgerGrounded led)
          (show p ≤ b by omega) bound bound' (sameTerm.trans prevTerm)
        have within : (h.log dst).take rf.commitIndex.toNat <+:
            (h.ledger args.term).take args.leaderCommit.toNat := by
          rw [show rf.commitIndex.toNat = min rf.commitIndex.toNat p by omega, ← List.take_take,
            front, List.take_take, show min rf.commitIndex.toNat p =
              min rf.commitIndex.toNat args.leaderCommit.toNat by omega, ← List.take_take]
          exact List.take_prefix _ _
        rw [agree, ← term', moved]
        exact (decided.extend refines.inv ext).mono le_rfl within
      · exact unmoved (by omega)
    refine ⟨h', steps, refines', commits.answered_of refines steps still handled decided ?_ ?_⟩
    · intro message member
      dsimp only at member
      rw [channel] at member
      rcases List.mem_append.1 member with old | new
      · exact Or.inl old
      · rw [agree, commit, Int.toNat_natCast] at decided
        exact Or.inr (settled_of_deliveries decided new)
    · intro _ told
      exact absurd zero told

theorem Commits.installSnapShot [DecidableEq α] (commits : c.Commits h) (refines : c.Refines h)
    {args : InstallSnapShotArgs σ} (sent : .request src dst (.installSnapShot args) ∈ c.net)
    (handled : (c.servers dst).handle (.installSnapShot args) =
      some (server, { reply := some reply }))
    (kept : (c.servers dst).keepsLog (.request (.installSnapShot args)) = true)
    (notAhead : args.term ≤ (c.servers dst).rf.currentTerm) :
    ∃ h', ProtocolSteps n h h' ∧
      (c.answered src dst (.installSnapShot args) server reply).Refines h' ∧
      (c.answered src dst (.installSnapShot args) server reply).Commits h' := by
  obtain ⟨h', steps, still, outcome, refines'⟩ := refines.installSnapShot sent handled kept
  obtain ⟨inv', ext⟩ := History.Steps.inv_extends refines.inv steps
  have term : (c.servers dst).rf.currentTerm = h.term dst := refines.term dst
  have decided : h'.Decided (h'.term dst) ((h'.log dst).take server.rf.commitIndex.toNat) := by
    rcases outcome with ⟨same, log⟩ | ⟨commit, log⟩
    · rw [same]
      exact commits.still refines.inv steps le_rfl (by rw [log])
    · obtain ⟨_, _, decided⟩ := commits.requests sent
      rw [commit, log, List.take_take, min_self]
      refine (decided.extend refines.inv ext).mono ?_ List.prefix_rfl
      exact notAhead.trans (term ▸ ext.term dst)
  obtain ⟨⟨rf, answer⟩, installed, equal⟩ := Option.map_eq_some_iff.1 handled
  cases equal
  have term' : rf.currentTerm = h'.term dst := by simpa [rf_answered] using refines'.term dst
  have stands' : rf.Stands (h'.log dst) := by simpa [rf_answered] using refines'.stands dst
  obtain ⟨leads, k, index, reach, lastTerm, _⟩ :=
    (refines.requests sent).mono refines.inv steps
  have led : h'.leader args.term ≠ none := by simp [leads]
  have nonneg := stands'.holds.nonneg
  have base := stands'.base
  have commit := stands'.commit
  rcases Raft.installSnapShot_cases installed with
    ⟨rfl, _, code, _⟩ | ⟨rfl, current, _, code, value⟩ | ⟨rfl, current, above, within, code, slot⟩ |
      ⟨_, _, code, _, _, blob, _, _, rfl⟩
  · refine ⟨h', steps, refines', commits.answered_of refines steps still handled decided
      (fun member => Or.inl member) ⟨fun code' => ?_, fun code' => ?_⟩⟩
    all_goals omega
  · -- The snapshot of the follower is committed, and so in the ledger.
    have present : h'.term dst = args.term := term' ▸ le_antisymm current notAhead
    obtain ⟨reach', front⟩ := refines'.take_ledger
      (k := (c.servers dst).rf.lastIndexInSnapshot.toNat) led present
      (decided.mono le_rfl (by
        rw [← min_eq_left (Int.toNat_le_toNat base), ← List.take_take]
        exact List.take_prefix _ _)) (by omega)
    refine commits.answered_acknowledge refines steps still handled refines' decided rfl led
      present reach' front ?_
    intro h'' acked
    refine ⟨fun _ => ?_, fun code' => by omega⟩
    rw [value]
    exact acked
  · -- The logs have one term at the index of the snapshot.
    have present : h'.term dst = args.term := term' ▸ le_antisymm current notAhead
    have last := stands'.holds.getLastLogIndex
    rw [index] at slot
    obtain ⟨entry, slot', entryTerm, _⟩ := stands'.holds.slot_at (k := k) (by omega) (by omega)
    rw [slot', Option.map_some, entryTerm] at slot
    have front := take_eq_of_termAt (inv'.grounded dst) (inv'.ledgerGrounded led) (le_refl k)
      (by omega) reach ((Option.some.inj slot).trans lastTerm)
    refine commits.answered_acknowledge refines steps still handled refines' decided rfl led
      present reach front.symm ?_
    intro h'' acked
    refine ⟨fun code' => by omega, fun _ => ?_⟩
    rw [index, Int.toNat_natCast]
    exact acked
  · refine ⟨h', steps, refines', commits.answered_of refines steps still handled decided ?_
      ⟨fun code' => ?_, fun code' => ?_⟩⟩
    · intro message member
      rcases List.mem_append.1 member with old | new
      · exact Or.inl old
      · obtain rfl := List.mem_singleton.1 new
        exact Or.inr fun valid => by simp at valid
    all_goals omega

end Handlers

/-! ## Other steps -/

theorem rf_acted : (c.acted i input server output).rf i = server.rf := by
  simp [Cluster.rf, acted]

/-- A step of a server that handles no request. -/
theorem Commits.acted_of (commits : c.Commits h) (refines : c.Refines h)
    (steps : ProtocolSteps n h h') (still : Concerns i h h')
    (stepped : (c.servers i).step i input = some (server, output))
    (placed : (c.servers i).Placed i)
    (leads : (c.servers i).leadsOwnTerm (c.hasWon i) input = true)
    (refines' : (c.acted i input server output).Refines h')
    (committed : h'.Decided (h'.term i) ((h'.log i).take server.rf.commitIndex.toNat))
    (delivered : ∀ {message}, message ∈ server.rf.applyCh →
      message ∈ (c.rf i).applyCh ∨ message.Settled h')
    (matched : server.phase.isLeader = true →
      (c.acted i input server output).hasWon i (h'.term i) = true →
      ∀ {j : Fin n} {m : Int}, server.rf.matchIndex[j.val]? = some m → 0 < m →
        h'.Acked j (h'.term i) m.toNat) :
    (c.acted i input server output).Commits h' := by
  have moves := Server.step_moves stepped
  have term' : server.rf.currentTerm = h'.term i := by simpa [rf_acted] using refines'.term i
  have stands' : server.rf.Stands (h'.log i) := by simpa [rf_acted] using refines'.stands i
  -- Whoever has won its term tells the truth about its commit index.
  have own : ∀ {t index}, c.hasWon i t = true → t = server.rf.currentTerm →
      index ≤ server.rf.commitIndex → Told h' t index := by
    intro t index won current le
    obtain ⟨leader, log⟩ := refines.leads steps won (current.trans term').symm
    refine ⟨by simp [leader], ?_, ?_⟩
    · rw [← log]
      exact le.trans stands'.commit
    · rw [← log]
      refine committed.mono (current.trans term').ge ?_
      rw [← min_eq_left (Int.toNat_le_toNat le), ← List.take_take]
      exact List.take_prefix _ _
  have nonneg := stands'.commit_nonneg
  refine commits.update refines.inv steps still rfl ?_ committed delivered ?_ matched ?_ ?_
  · intro j round other member
    rcases mem_won_acted.1 member with old | ⟨rfl, _⟩
    · exact old
    · exact absurd rfl other
  · intro cache logLen todo ind appEn shipped phase
    rcases moves.snapshotting phase with before | ⟨sent, term, commit⟩
    · exact (commits.waiting before).mono refines.inv steps
    · have won : c.hasWon i server.rf.currentTerm = true := moves.spoken placed leads sent
      exact own (term ▸ won) term commit.le
  · intro src dst request member
    rcases request_mem_acted.1 member with old | ⟨rfl, sent⟩
    · exact Or.inl old
    · right
      have drafts := moves.sends sent
      have spoken := moves.spoken placed leads sent
      cases request with
      | requestVote args => exact trivial
      | appendEntry args =>
          obtain ⟨won, current, _⟩ := spoken
          rcases drafts.2 with commit | zero | ⟨_, _, _, _, _, _, phase, term, commit⟩
          · exact own won current commit.le
          · exact own won current (zero ▸ nonneg)
          · have told := (commits.waiting phase).mono refines.inv steps
            rwa [← term, ← commit] at told
      | installSnapShot args =>
          obtain rfl : args = server.rf.snapShotArgs := drafts
          exact own spoken rfl stands'.base
  · intro src dst request reply member
    exact Or.inl (reply_mem_acted.1 member)

/-- The reply that ends a snapshot transfer is in the network, or nothing came. -/
theorem shipped_of_prompted [DecidableEq α] [DecidableEq σ] (prompted : c.Prompted i input)
    {ind : Fin n} {args : InstallSnapShotArgs σ} {reply : InstallSnapShotReply}
    (shipped : (c.servers i).shipment input = some (ind, args, reply)) :
    reply = Raft.lostReply ∨
      .reply i ind (.installSnapShot args) (.installSnapShot reply) ∈ c.net := by
  cases input with
  | snapShotReply answer =>
      simp only [Server.shipment] at shipped
      split at shipped
      · rename_i phase
        cases shipped
        rcases prompted with lost | ⟨peer, args', sent, awaits⟩
        · exact Or.inl lost
        · simp only [Server.awaitsSnapShot, phase, Bool.and_eq_true, beq_iff_eq] at awaits
          obtain ⟨rfl, rfl⟩ := awaits
          exact Or.inr sent
      · cases shipped
  | retrySnapShotReply k answer =>
      simp only [Server.shipment, Option.bind_eq_some_iff, Option.map_eq_some_iff] at shipped
      obtain ⟨sender, found, args₀, waits, equal⟩ := shipped
      cases equal
      rcases prompted with lost | ⟨peer, args', sent, awaits⟩
      · exact Or.inl lost
      · simp only [Server.awaitsRetrySnapShot, found, waits, Bool.and_eq_true, beq_iff_eq,
          Option.some.injEq] at awaits
        obtain ⟨rfl, rfl⟩ := awaits
        exact Or.inr sent
  | _ => cases shipped

theorem getElem?_set_cases {l : List Int} {a b : Nat} {x y : Int}
    (found : (l.set a x)[b]? = some y) : a = b ∧ x = y ∨ l[b]? = some y := by
  rw [List.getElem?_set] at found
  split_ifs at found with same inside
  · exact Or.inl ⟨same, Option.some.inj found⟩
  · exact Or.inr found

/-- Where the end of a snapshot transfer sets a match index, the follower has acknowledged it. -/
theorem Commits.shipped [DecidableEq α] [DecidableEq σ] (commits : c.Commits h)
    (refines : c.Refines h) (prompted : c.Prompted i input) {ind j : Fin n}
    {args : InstallSnapShotArgs σ} {reply : InstallSnapShotReply} {m : Int}
    (shipment : (c.servers i).shipment input = some (ind, args, reply))
    (kept : reply.errCode = 1 ∨ args.term = h.term i ∧ (reply.errCode = 0 → reply.success = true))
    (found : ((c.rf i).snapShotReply ind args reply).matchIndex[j.val]? = some m) :
    (c.rf i).matchIndex[j.val]? = some m ∨ h.Acked j (h.term i) m.toNat := by
  have lost := shipped_of_prompted prompted shipment
  rcases (c.rf i).snapShotReply_progress ind args reply with
    same | ⟨old, same⟩ | ⟨done, same⟩
  · exact Or.inl (same ▸ found)
  · rw [same] at found
    rcases getElem?_set_cases found with ⟨place, rfl⟩ | unchanged
    · obtain rfl : ind = j := Fin.ext place
      obtain ⟨term, _⟩ := kept.resolve_left (by omega)
      rcases lost with rfl | sent
      · simp [Raft.lostReply] at old
      · exact Or.inr (Or.inl ⟨_, le_rfl, term ▸ (commits.replies sent).1 old⟩)
    · exact Or.inl unchanged
  · rw [same] at found
    rcases getElem?_set_cases found with ⟨place, rfl⟩ | unchanged
    · obtain rfl : ind = j := Fin.ext place
      obtain ⟨term, arrived⟩ := kept.resolve_left (by omega)
      rcases lost with rfl | sent
      · simp [Raft.lostReply] at arrived
      · refine Or.inr (Or.inl ⟨_, le_rfl, term ▸ ?_⟩)
        rcases done with kept | installed
        · exact (commits.replies sent).2 kept
        · exact refines.replies sent installed
    · exact Or.inl unchanged

/-- The reply that a goroutine handles is in the network. -/
theorem entry_of_prompted [DecidableEq α] [DecidableEq σ] {k : Nat} {reply : AppendEntryReply}
    (prompted : c.Prompted i (.entryReply k reply)) {sender : Sender n α σ}
    (found : (c.servers i).senders[k]? = some sender) :
    .reply i sender.ind (.appendEntry sender.appEn) (.appendEntry reply) ∈ c.net := by
  obtain ⟨peer, args, sent, awaits⟩ := prompted
  simp only [Server.awaitsEntry, found, Bool.and_eq_true, beq_iff_eq] at awaits
  obtain ⟨⟨rfl, rfl⟩, _⟩ := awaits
  exact sent

/-- Where a success sets a match index, the follower has acknowledged it. -/
theorem Commits.recorded (commits : c.Commits h) (refines : c.Refines h)
    {reply : AppendEntryReply} {sender : Sender n α σ} {j : Fin n} {m m' : Int}
    (sent : .reply i sender.ind (.appendEntry sender.appEn) (.appendEntry reply) ∈ c.net)
    (success : reply.success = true) (nonempty : sender.appEn.entries ≠ [])
    (term : sender.appEn.term = h.term i)
    (reached : (c.rf i).newMatch sender.ind sender.appEn reply = some m)
    (confirms : (c.rf i).confirms sender reply m = true)
    (found : ((c.rf i).matchIndex.set sender.ind m)[j.val]? = some m') :
    (c.rf i).matchIndex[j.val]? = some m' ∨ h.Acked j (h.term i) m'.toNat := by
  rcases getElem?_set_cases found with ⟨place, rfl⟩ | unchanged
  · obtain rfl : sender.ind = j := Fin.ext place
    by_cases zero : reply.commitIndex = 0
    · simp only [Raft.confirms, zero, bne_self_eq_false, Bool.false_or, Bool.or_eq_true,
        decide_eq_true_eq, beq_iff_eq] at confirms
      rcases confirms with sent' | already
      · refine Or.inr (Or.inl ⟨_, ?_, term ▸ refines.replies sent success zero nonempty⟩)
        omega
      · exact Or.inl already
    · rw [Raft.newMatch, if_pos zero] at reached
      obtain rfl := Option.some.inj reached
      exact Or.inr (Or.inl ⟨_, le_rfl, term ▸ commits.replies sent success zero⟩)
  · exact Or.inl unchanged

/-- A reigning leader whose match indices are acknowledged commits the entry the rule picks, if it
is of its term and on more than half of the servers. -/
theorem Refines.commit (refines : c.Refines h) (matchIndex : List Int) (median : Nat)
    {entry : CommandTerm α} (leader : h.leader (h.term i) = some i)
    (matched : ∀ {j : Fin n} {m : Int}, matchIndex[j.val]? = some m → 0 < m →
      h.Acked j (h.term i) m.toNat)
    (majority : n < 2 * (Finset.univ.filter fun j : Fin n =>
      matchIndex[j.val]?.any ((median : Int) ≤ ·)).card)
    (positive : 0 < median) (found : (h.log i)[median - 1]? = some entry)
    (own : entry.term = h.term i) :
    ∃ h', ProtocolSteps n h h' ∧ h'.term = h.term ∧ h'.log = h.log ∧
      h'.Decided (h'.term i) ((h'.log i).take median) ∧ c.Refines h' := by
  have led : h.leader (h.term i) ≠ none := by simp [leader]
  have log := (refines.inv.leaders leader).log rfl
  obtain ⟨k, rfl⟩ : ∃ k, median = k + 1 := ⟨median - 1, by omega⟩
  have acks : ∀ j ∈ (↑(Finset.univ.filter fun j : Fin n =>
      matchIndex[j.val]?.any (((k + 1 : Nat) : Int) ≤ ·)) : Set (Fin n)),
      h.Acked j (h.term i) (k + 1) := by
    intro j member
    simp only [Finset.coe_filter, Finset.mem_univ, true_and, Set.mem_ofPred_eq,
      Option.any_eq_true, decide_eq_true_eq] at member
    obtain ⟨m, place, le⟩ := member
    exact (matched place (by omega)).mono (by omega)
  have steps : ProtocolSteps n h (h.commit (h.term i) (k + 1)) :=
    .single (.commit led ⟨_, majority, rfl⟩ acks (log ▸ found) own)
  refine ⟨_, steps, rfl, rfl, ?_, refines.later steps rfl rfl rfl⟩
  refine Or.inr ⟨h.term i, k + 1, le_rfl, Set.mem_insert _ _, ?_⟩
  exact (show (h.log i).take (k + 1) <+: (h.ledger (h.term i)).take (k + 1) by rw [log])

section Acts

variable [DecidableEq α] [DecidableEq σ] (commits : c.Commits h) (refines : c.Refines h)
  (routed : c.Routed) (steps : ProtocolSteps n h h') (still : Concerns i h h')
  (grown : h.log i <+: h'.log i) (prompted : c.Prompted i input)
  (kept : c.keepsCommits i input = true)
  (stepped : (c.servers i).step i input = some (server, output))
  (refines' : (c.acted i input server output).Refines h')
include commits refines routed steps still grown prompted kept stepped refines'

/-- A step that handles no reply to `AppendEntry`. -/
theorem Commits.acted_other (other : ∀ k reply, input ≠ .entryReply k reply) :
    (c.acted i input server output).Commits h' := by
  have moves := Server.step_moves stepped
  have placed := routed.placed i
  have own : ∀ request, input ≠ .request request := by
    rintro request rfl
    exact prompted
  simp only [keepsCommits, keepsLogs, Bool.and_eq_true] at kept
  obtain ⟨⟨⟨_, keepsLog⟩, leads⟩, keepsCommit⟩ := kept
  obtain ⟨_, ext⟩ := History.Steps.inv_extends refines.inv steps
  have stands := refines.stands i
  have base := stands.base
  have commit := stands.commit
  have nonneg := stands.commit_nonneg
  have term : (c.servers i).rf.currentTerm = h.term i := refines.term i
  have decided : ∀ {index : Int}, index ≤ (c.rf i).commitIndex →
      h'.Decided (h'.term i) ((h'.log i).take index.toNat) := fun le =>
    commits.still refines.inv steps (Int.toNat_le_toNat le)
      (take_eq_of_isPrefix grown (by omega)).symm
  refine commits.acted_of refines steps still stepped placed leads refines' ?_ ?_ ?_
  · rcases moves.commitIndex own other with ⟨same, _⟩ | ⟨rfl, rfl⟩
    · exact decided same.le
    · have restored := Raft.make_commitIndex
        (Server.recovers_of_keepsLog keepsLog rfl)
      rw [placed.peers, placed.me] at restored
      exact decided (restored.trans_le base)
  · intro message member
    rcases moves.commitIndex own other with ⟨_, channel⟩ | ⟨_, rfl⟩
    · rw [channel] at member
      exact Or.inl member
    · obtain ⟨_, _, _, _, messages, _, frame, silent⟩ :=
        Raft.make_frame n (i : Nat) (c.servers i).rf.persister (c.servers i).rf.applyCh
      simp only [Server.boot, frame] at member
      rcases List.mem_append.1 member with old | new
      · exact Or.inl old
      · exact Or.inr fun valid => by simp [silent _ new] at valid
  · intro leads' won' j m found positive
    obtain ⟨unwon, outcome⟩ := moves.matchIndex own other leads'
    have won : c.hasWon i (h'.term i) = true := by simpa [hasWon, acted, unwon] using won'
    obtain ⟨leader, log⟩ := refines.leads steps won rfl
    have same := refines.stays steps won
    rw [same] at won leader log ⊢
    rcases outcome with
      reset | ⟨leads, unchanged | ⟨_, started⟩ | ⟨ind, args, reply, shipment, set⟩⟩
    · rw [reset, List.getElem?_replicate] at found
      split_ifs at found
      cases found
      exact absurd positive (lt_irrefl _)
    · rw [unchanged] at found
      exact ext.ackedBy (commits.matched leads won found positive)
    · rw [started] at found
      rcases getElem?_set_cases found with ⟨place, rfl⟩ | unchanged
      · obtain rfl : i = j := Fin.ext (by rw [placed.me] at place; omega)
        have stands' : server.rf.Stands (h'.log i) := by simpa [rf_acted] using refines'.stands i
        have last := stands'.holds.getLastLogIndex
        rw [log] at last
        exact Or.inr ⟨leader, by omega⟩
      · exact ext.ackedBy (commits.matched leads won unchanged positive)
    · rw [set] at found
      have reigns : (c.servers i).reigns (c.hasWon i) = true := by
        rw [Server.reigns, leads, term, won, Bool.true_and]
      have sound : reply.errCode = 1 ∨
          args.term = h.term i ∧ (reply.errCode = 0 → reply.success = true) := by
        have allowed : (((c.servers i).shipment input).all fun (_, args, reply) =>
            !(c.servers i).reigns (c.hasWon i) || reply.errCode == 1 ||
              args.term == (c.servers i).rf.currentTerm &&
                (reply.errCode != 0 || reply.success)) = true := by
          cases input with
          | entryReply k reply => exact absurd rfl (other k reply)
          | request request => exact absurd rfl (own request)
          | _ => exact keepsCommit
        simp only [shipment, Option.all_some, reigns, term, Bool.not_true, Bool.false_or,
          Bool.or_eq_true, Bool.and_eq_true, beq_iff_eq, bne_iff_ne] at allowed
        exact allowed.imp_right fun sound => ⟨sound.1, fun zero =>
          sound.2.resolve_left fun nonzero => nonzero zero⟩
      rcases commits.shipped refines prompted shipment sound found with unchanged | acked
      · exact ext.ackedBy (commits.matched leads won unchanged positive)
      · exact ext.ackedBy acked

/-- A step that handles a reply to `AppendEntry`. -/
theorem Commits.acted_reply {k : Nat} {reply : AppendEntryReply}
    (equal : input = .entryReply k reply) :
    ∃ h'', ProtocolSteps n h h'' ∧ (c.acted i input server output).Refines h'' ∧
      (c.acted i input server output).Commits h'' := by
  subst equal
  have placed := routed.placed i
  simp only [keepsCommits, keepsLogs, Bool.and_eq_true] at kept
  obtain ⟨⟨_, leads⟩, keepsCommit⟩ := kept
  obtain ⟨inv', ext⟩ := History.Steps.inv_extends refines.inv steps
  have stands := refines.stands i
  have nonneg := stands.commit_nonneg
  have term : (c.servers i).rf.currentTerm = h.term i := refines.term i
  obtain ⟨k₀, committed⟩ : ∃ k₀ : Nat, (c.rf i).commitIndex = k₀ :=
    ⟨(c.rf i).commitIndex.toNat, by omega⟩
  obtain ⟨sender, rf, next, waiting, found, handled, frame, phase, unwon⟩ :=
    (Server.step_moves stepped).onReply
  obtain ⟨leaderNum, k', nextIndex, matchIndex, _, lower, upper, progress, rfl⟩ :=
    stands.window.onReply committed handled
  have sent := entry_of_prompted prompted found
  have term' : h'.term i = h.term i := by
    rw [← refines'.term i, rf_acted, frame]
    exact term
  have front : (h'.log i).take k' = (h.log i).take k' := (take_eq_of_isPrefix grown upper).symm
  have commitIndex' : server.rf.commitIndex.toNat = k' := by
    rw [frame]
    rfl
  have matched : server.phase.isLeader = true →
      (c.acted i (.entryReply k reply) server output).hasWon i (h'.term i) = true →
      ∀ {j : Fin n} {m : Int}, server.rf.matchIndex[j.val]? = some m → 0 < m →
        h'.Acked j (h'.term i) m.toNat := by
    intro leads' won' j m place positive
    have won : c.hasWon i (h.term i) = true := by simpa [hasWon, acted, unwon, term'] using won'
    rw [phase] at leads'
    rw [term']
    rw [frame] at place
    have before : (c.rf i).matchIndex[j.val]? = some m ∨ h.Acked j (h.term i) m.toNat := by
      rcases progress with ⟨_, same⟩ | ⟨success, nonempty, m', reached, set, _⟩
      · exact Or.inl (same ▸ place)
      · have sound := Server.counts_of_keepsCommit keepsCommit found success nonempty reached
        rw [if_pos (by rw [Server.reigns, leads', term, won, Bool.true_and])] at sound
        exact commits.recorded refines sent success nonempty (sound.1.trans term) reached
          sound.2.1 (set ▸ place)
    rcases before with old | acked
    · exact ext.ackedBy (commits.matched leads' won old positive)
    · exact ext.ackedBy acked
  have delivered : ∀ {h'' : ClusterHistory n α}, h''.Decided (h''.term i) ((h.log i).take k') →
      ∀ {message}, message ∈ server.rf.applyCh →
        message ∈ (c.rf i).applyCh ∨ message.Settled h'' := by
    intro h'' decided message member
    rw [frame] at member
    rcases List.mem_append.1 member with old | new
    · exact Or.inl old
    · exact Or.inr (settled_of_deliveries decided new)
  by_cases raised : k' = k₀
  · have decided : h'.Decided (h'.term i) ((h'.log i).take k') :=
      commits.still refines.inv steps (by omega) front
    refine ⟨h', steps, refines', commits.acted_of refines steps still stepped placed leads
      refines' (by rwa [commitIndex']) (delivered (front ▸ decided)) matched⟩
  · -- The commit rule has picked a new index.
    rcases progress with ⟨same, _⟩ | ⟨success, nonempty, m, reached, set, same | rule⟩
    · exact absurd same raised
    · exact absurd same raised
    obtain ⟨far, beyond, own, median, picked, equal⟩ := rule
    have sound := Server.counts_of_keepsCommit keepsCommit found success nonempty reached
    split_ifs at sound with reigns
    swap
    · exact absurd own sound
    have counts : (c.rf i).countsOwnTerm sender m = true := sound.2.2
    rcases Raft.countsOwnTerm_cases counts far (by omega) picked with
      low | ⟨⟨entry, place, ownTerm⟩, majority⟩
    · omega
    simp only [Server.reigns, Bool.and_eq_true, term] at reigns
    obtain ⟨leads', won⟩ := reigns
    have base := stands.base
    rw [stands.holds.entryAt (by omega)] at place
    have inside := (List.getElem?_eq_some_iff.1 place).1
    obtain rfl : k' = median := by omega
    have won' : (c.acted i (.entryReply k reply) server output).hasWon i (h'.term i) = true := by
      simpa [hasWon, acted, unwon, term'] using won
    obtain ⟨leader, _⟩ := refines.leads steps won term'
    obtain ⟨h'', steps', terms, logs, decided, refines''⟩ := refines'.commit (i := i)
      server.rf.matchIndex k' (by rw [term']; exact leader)
      (matched (phase ▸ leads') won') (by simpa only [frame, set] using majority) (by omega)
      (getElem?_of_isPrefix grown place) (by rw [term', ownTerm]; exact term)
    obtain ⟨_, ext'⟩ := History.Steps.inv_extends inv' steps'
    have still' : Concerns i h h'' := by
      intro j other
      rw [terms, logs]
      exact still j other
    refine ⟨h'', steps.trans steps', refines'', commits.acted_of refines (steps.trans steps')
      still' stepped placed leads refines'' (by rwa [commitIndex']) (delivered ?_) ?_⟩
    · rwa [logs, front] at decided
    · intro leads'' won'' j m place positive
      rw [terms] at won'' ⊢
      exact ext'.ackedBy (matched leads'' won'' place positive)

end Acts

/-! ## Runs -/

variable [DecidableEq α] [DecidableEq σ]

theorem Commits.acted (commits : c.Commits h) (refines : c.Refines h) (routed : c.Routed)
    (routed' : (c.acted i input server output).Routed)
    (ballots' : (c.acted i input server output).Ballots) (prompted : c.Prompted i input)
    (kept : c.keepsCommits i input = true)
    (stepped : (c.servers i).step i input = some (server, output)) :
    ∃ h', ProtocolSteps n h h' ∧ (c.acted i input server output).Refines h' ∧
      (c.acted i input server output).Commits h' := by
  have logs : c.keepsLogs i input = true := (Bool.and_eq_true _ _ ▸ kept :).1
  obtain ⟨h', steps, still, grown, refines'⟩ :=
    refines.acted routed routed' ballots' prompted logs stepped
  by_cases replied : ∃ k reply, input = .entryReply k reply
  · obtain ⟨k, reply, equal⟩ := replied
    exact commits.acted_reply refines routed steps still grown prompted kept stepped refines' equal
  · refine ⟨h', steps, refines', commits.acted_other refines routed steps still grown prompted kept
      stepped refines' ?_⟩
    exact fun k reply equal => replied ⟨k, reply, equal⟩

omit [DecidableEq σ] in
theorem Commits.answered {src dst : Fin n} {request : Request α σ} {reply : Reply}
    (commits : c.Commits h) (refines : c.Refines h) (sent : .request src dst request ∈ c.net)
    (handled : (c.servers dst).handle request = some (server, { reply := some reply }))
    (kept : c.keepsCommits dst (.request request) = true)
    (ballots' : (c.answered src dst request server reply).Ballots) :
    ∃ h', ProtocolSteps n h h' ∧ (c.answered src dst request server reply).Refines h' ∧
      (c.answered src dst request server reply).Commits h' := by
  simp only [keepsCommits, keepsLogs, Bool.and_eq_true] at kept
  obtain ⟨⟨⟨_, keepsLog⟩, _⟩, keepsCommit⟩ := kept
  cases request with
  | requestVote args => exact commits.requestVote refines sent handled ballots'
  | appendEntry args => exact commits.appendEntry refines sent handled keepsLog
  | installSnapShot args =>
      exact commits.installSnapShot refines sent handled keepsLog (of_decide_eq_true keepsCommit)

/-- Each step of the cluster is matched by steps of the protocol that also record what is
acknowledged and committed. -/
theorem Commits.step {c' : Cluster n α σ} {action : Action n α σ} (commits : c.Commits h)
    (refines : c.Refines h) (routed : c.Routed) (routed' : c'.Routed) (ballots' : c'.Ballots)
    (kept : c.Meets keepsCommits action) (next : c.step action = some c') :
    ∃ h', ProtocolSteps n h h' ∧ c'.Refines h' ∧ c'.Commits h' := by
  rcases step_cases next with
    ⟨src, dst, request, server, reply, sent, event, handled, rfl⟩ |
    ⟨i, input, server, output, prompted, event, stepped, rfl⟩
  · exact commits.answered refines sent handled (kept.of_event event) ballots'
  · exact commits.acted refines routed routed' ballots' prompted (kept.of_event event) stepped

/-- What a run under the condition keeps. -/
theorem agreed {c : Cluster n α σ}
    (run : Reaches Cluster.step (Meets keepsCommits) (init n α σ) c) :
    ∃ h, c.Refines h ∧ c.Commits h := by
  have kept : c.Routed ∧ c.Ballots ∧ ∃ h, c.Refines h ∧ c.Commits h := by
    refine run.invariant (fun c => c.Routed ∧ c.Ballots ∧ ∃ h, c.Refines h ∧ c.Commits h)
      ⟨routed_init n α σ, ballots_init n α σ, _, refines_init n α σ, commits_init n α σ⟩ ?_
    rintro c c' action ⟨routed, ballots, h, refines, commits⟩ kept next
    have once : c.Meets votesOnce action := by
      intro e event
      have := kept e event
      simp only [keepsCommits, keepsLogs, Bool.and_eq_true] at this
      exact this.1.1.1
    have routed' := routed.step next
    have ballots' := ballots.step routed once next
    obtain ⟨h', _, refines', commits'⟩ :=
      commits.step refines routed routed' ballots' kept next
    exact ⟨routed', ballots', h', refines', commits'⟩
  exact kept.2.2

end Cluster

end Mit6824
