import Mathlib.Data.Finset.Card
import Mit6824.Raft.Events
import Mit6824.Raft.Messages
import Mit6824.Raft.Moves

/-!
# Who sends what to whom

Facts of every run, whatever happens in it: a server knows its own number, sends
to others only, and signs what it sends; and a round counts each vote it is given
once.
-/

namespace Mit6824

variable {n : Nat} {α σ : Type}

/-- The request names its sender. A snapshot carries the leader its sender believes in, which
nobody reads. -/
def Request.SentBy (src : Fin n) : Request α σ → Prop
  | .requestVote args => args.candidateID = (src : Nat)
  | .appendEntry args => args.leaderID = (src : Nat)
  | .installSnapShot _ => True

/-- The followers that `LeaderProcess` serves are other servers. -/
def Phase.Targets (i : Fin n) : Phase n α σ → Prop
  | .distributing _ _ todo => ∀ ind ∈ todo, ind ≠ i
  | .snapshotting _ _ todo ind appEn _ =>
      (∀ ind ∈ todo, ind ≠ i) ∧ ind ≠ i ∧ appEn.leaderID = (i : Nat)
  | _ => True

namespace Server

structure Placed (i : Fin n) (server : Server n α σ) : Prop where
  me : server.rf.me = (i : Nat)
  peers : server.rf.peers = n
  phase : server.phase.Targets i
  senders : ∀ sender ∈ server.senders, sender.ind ≠ i ∧ sender.appEn.leaderID = (i : Nat)

variable {i : Fin n} {server server' : Server n α σ} {input : Input n α σ}
  {output : Output n α σ}

theorem others_ne {j : Fin n} (member : j ∈ others i) : j ≠ i := by
  simpa [others] using member

theorem placed_boot (i : Fin n) (persister : Persister α σ) (applyCh : List (ApplyMsg α σ)) :
    (boot i persister applyCh).Placed i := by
  obtain ⟨_, _, _, _, _, _, frame, _⟩ := Raft.make_frame n (i : Nat) persister applyCh
  refine ⟨?_, ?_, trivial, by simp [boot]⟩
  · simp [boot, frame]
  · simp [boot, frame]

namespace Placed

/-- Steps that keep the number of the server and its goroutines. -/
theorem keep (placed : server.Placed i) {rf : Raft α σ} {phase : Phase n α σ}
    {starts : List (α × Int)} (me : rf.me = server.rf.me) (peers : rf.peers = server.rf.peers)
    (targets : phase.Targets i) :
    Placed i { rf := rf, phase := phase, senders := server.senders, starts := starts } :=
  ⟨me.trans placed.me, peers.trans placed.peers, targets, placed.senders⟩

theorem spawn (placed : server.Placed i) {cache : TermCache} {logLen : Int} {ind : Fin n}
    {appEn : AppendEntryArgs α} (other : ind ≠ i) (signed : appEn.leaderID = (i : Nat))
    (spawned : server.spawn cache logLen ind appEn = some (server', output)) :
    server'.Placed i ∧
      ∀ dst request, (dst, request) ∈ output.sends → dst ≠ i ∧ request.SentBy i := by
  rcases spawn_cases spawned with ⟨_, rfl, rfl⟩ | ⟨appEn', filled, _, rfl, rfl⟩
  · exact ⟨placed.keep rfl rfl placed.phase, by simp⟩
  · obtain ⟨_, _, leader, _⟩ := Raft.fillEntry_cuts filled
    have signed' : appEn'.leaderID = (i : Nat) := leader.trans signed
    refine ⟨⟨placed.me, placed.peers, placed.phase, ?_⟩, ?_⟩
    · intro sender member
      rcases List.mem_append.1 member with old | new
      · exact placed.senders sender old
      · obtain rfl := List.mem_singleton.1 new
        exact ⟨other, signed'⟩
    · rintro dst request sent
      obtain ⟨rfl, rfl⟩ : dst = ind ∧ request = .appendEntry appEn' := by simpa using sent
      exact ⟨other, signed'⟩

theorem proceed (placed : server.Placed i) {k : Nat} {sender : Sender n α σ} {next : Next α}
    (other : sender.ind ≠ i) (signed : sender.appEn.leaderID = (i : Nat))
    (message : ∀ {appEn appEnTerm}, next = .retry appEn appEnTerm →
      appEn.leaderID = sender.appEn.leaderID)
    (proceeds : server.proceed k sender next = (server', output)) :
    server'.Placed i ∧
      ∀ dst request, (dst, request) ∈ output.sends → dst ≠ i ∧ request.SentBy i := by
  rcases proceed_cases proceeds with
    ⟨_, rfl, rfl⟩ | ⟨appEn, _, retry, _, rfl, rfl⟩ | ⟨_, rfl, rfl⟩
  · exact ⟨⟨placed.me, placed.peers, placed.phase, fun s member =>
      placed.senders s (List.mem_of_mem_eraseIdx member)⟩, by simp⟩
  · have signed' : appEn.leaderID = (i : Nat) := (message retry).trans signed
    refine ⟨⟨placed.me, placed.peers, placed.phase, ?_⟩, ?_⟩
    · intro s member
      rcases List.mem_or_eq_of_mem_set member with old | rfl
      · exact placed.senders s old
      · exact ⟨other, signed'⟩
    · rintro dst request sent
      obtain ⟨rfl, rfl⟩ : dst = sender.ind ∧ request = .appendEntry appEn := by simpa using sent
      exact ⟨other, signed'⟩
  · refine ⟨⟨placed.me, placed.peers, placed.phase, ?_⟩, ?_⟩
    · intro s member
      rcases List.mem_or_eq_of_mem_set member with old | rfl
      · exact placed.senders s old
      · exact ⟨other, signed⟩
    · rintro dst request sent
      obtain ⟨rfl, rfl⟩ : dst = sender.ind ∧ request = .installSnapShot _ := by simpa using sent
      exact ⟨other, trivial⟩

theorem snapShotReply (rf : Raft α σ) (ind : Nat) (args : InstallSnapShotArgs σ)
    (reply : InstallSnapShotReply) :
    (rf.snapShotReply ind args reply).me = rf.me ∧
      (rf.snapShotReply ind args reply).peers = rf.peers := by
  rcases rf.snapShotReply_cases ind args reply with ⟨_, frame⟩ | ⟨_, _, _, frame⟩
  · rw [frame]
    exact ⟨rfl, rfl⟩
  · rw [frame]
    exact ⟨rfl, rfl⟩

/-- A step leaves the server in its place, and what it sends is signed and goes to others. -/
theorem step (placed : server.Placed i) (moves : Moves i server input server' output) :
    server'.Placed i ∧
      ∀ dst request, (dst, request) ∈ output.sends → dst ≠ i ∧ request.SentBy i := by
  cases moves with
  | requestVote handled =>
      rcases Raft.requestVote_cases handled with
        ⟨rfl, _⟩ | ⟨_, _, rfl, _⟩ | ⟨_, _, _, _, rfl⟩ | ⟨_, _, _, _, _, rfl⟩
      all_goals exact ⟨placed.keep rfl rfl placed.phase, by simp⟩
  | appendEntry handled =>
      obtain ⟨me, peers, _⟩ := Raft.appendEntry_role handled
      exact ⟨placed.keep me peers placed.phase, by simp⟩
  | installSnapShot handled =>
      rcases Raft.installSnapShot_cases handled with
        ⟨rfl, _⟩ | ⟨rfl, _⟩ | ⟨rfl, _⟩ | ⟨_, _, _, _, _, _, _, _, rfl⟩
      all_goals exact ⟨placed.keep rfl rfl placed.phase, by simp⟩
  | startRound _ _ =>
      refine ⟨placed.keep rfl rfl trivial, ?_⟩
      intro dst request sent
      obtain ⟨peer, member, rfl, rfl⟩ : ∃ peer ∈ others i, peer = dst ∧
          Request.requestVote server.rf.voteRequest = request := by simpa using sent
      exact ⟨others_ne member, placed.me⟩
  | victory _ _ _ _ | outdated _ _ | counted _ _ | roundTimeout _ | roundNotified _
  | follow _ _ | termTimeout _ | deposed _ _ | leaderNotified _ | followerTimeout _
  | distributed _ =>
      exact ⟨placed.keep rfl rfl trivial, by simp⟩
  | followerNotified _ => exact ⟨placed.keep rfl rfl placed.phase, by simp⟩
  | lead _ _ started =>
      rw [Raft.startLeader_frame started]
      exact ⟨placed.keep rfl rfl trivial, by simp⟩
  | heartbeat _ => exact ⟨placed.keep rfl rfl fun _ member => others_ne member, by simp⟩
  | snapshot phase entry _ =>
      have targets := placed.phase
      rw [phase] at targets
      obtain ⟨_, _, rfl⟩ := Raft.newEntry_eq entry
      refine ⟨placed.keep rfl rfl ⟨fun j member => targets j (.tail _ member),
        targets _ (.head _), placed.me⟩, ?_⟩
      rintro dst request sent
      obtain ⟨rfl, rfl⟩ : dst = _ ∧ request = .installSnapShot _ := by simpa using sent
      exact ⟨targets _ (.head _), trivial⟩
  | distribute phase entry spawned =>
      have targets := placed.phase
      rw [phase] at targets
      obtain ⟨_, _, rfl⟩ := Raft.newEntry_eq entry
      refine Placed.spawn (placed.keep rfl rfl ?_) (targets _ (.head _)) placed.me spawned
      exact fun j member => targets j (.tail _ member)
  | snapShotReply phase spawned =>
      have targets := placed.phase
      rw [phase] at targets
      obtain ⟨todo, other, signed⟩ := targets
      obtain ⟨me, peers⟩ := snapShotReply server.rf _ _ _
      refine Placed.spawn (placed.keep me peers ?_) other signed spawned
      exact todo
  | entryReply found _ handled proceeds =>
      obtain ⟨other, signed⟩ := placed.senders _ (List.mem_of_getElem? found)
      refine Placed.proceed (placed.keep ?_ ?_ placed.phase) other signed ?_ proceeds
      · obtain ⟨_, _, _, _, _, _, _, rfl⟩ := Raft.onReply_frame handled
        rfl
      · obtain ⟨_, _, _, _, _, _, _, rfl⟩ := Raft.onReply_frame handled
        rfl
      · rintro appEn appEnTerm rfl
        exact (Raft.onReply_cuts handled).2.2.1
  | entryGivenUp =>
      exact ⟨⟨placed.me, placed.peers, placed.phase, fun s member =>
        placed.senders s (List.mem_of_mem_eraseIdx member)⟩, by simp⟩
  | entryAgain found =>
      refine ⟨⟨placed.me, placed.peers, placed.phase, ?_⟩, by simp⟩
      intro s member
      rcases List.mem_or_eq_of_mem_set member with old | rfl
      · exact placed.senders s old
      · obtain ⟨other, signed⟩ := placed.senders _ (List.mem_of_getElem? found)
        exact ⟨other, signed⟩
  | retrySnapShotReply found _ handled proceeds =>
      obtain ⟨other, signed⟩ := placed.senders _ (List.mem_of_getElem? found)
      obtain ⟨me, peers⟩ := snapShotReply server.rf _ _ _
      refine Placed.proceed (placed.keep me peers placed.phase) other signed ?_ proceeds
      rintro appEn appEnTerm rfl
      exact (Raft.afterSnapShot_cuts handled).2.2.1
  | notLeader _ | startCheck _ => exact ⟨placed.keep rfl rfl placed.phase, by simp⟩
  | startAppend _ appended =>
      obtain ⟨_, rfl⟩ := Raft.startAppend_frame appended
      exact ⟨placed.keep rfl rfl placed.phase, by simp⟩
  | takeSnapshots _ taken =>
      rcases Raft.takeSnapshots_cases taken with rfl | ⟨_, _, _, _, _, _, rfl⟩
      all_goals exact ⟨placed.keep rfl rfl placed.phase, by simp⟩
  | restart => exact ⟨placed_boot i _ _, by simp⟩

end Placed

/-- What is known about a request that a step sends: it is made of the state after the step. Only
a message that had to wait for a snapshot tells an older commit index. -/
def Drafts (server server' : Server n α σ) (input : Input n α σ) : Request α σ → Prop
  | .requestVote args => input = .startRound ∧ args = server.rf.voteRequest
  | .appendEntry args => server'.rf.Cuts args ∧
      (args.leaderCommit = server'.rf.commitIndex ∨ args.leaderCommit = 0 ∨
        ∃ cache logLen todo ind appEn shipped,
          server.phase = .snapshotting cache logLen todo ind appEn shipped ∧
          args.term = appEn.term ∧ args.leaderCommit = appEn.leaderCommit)
  | .installSnapShot args => args = server'.rf.snapShotArgs

theorem spawn_sends {cache : TermCache} {logLen : Int} {ind : Fin n} {appEn : AppendEntryArgs α}
    (spawned : server.spawn cache logLen ind appEn = some (server', output)) {dst : Fin n}
    {request : Request α σ} (sent : (dst, request) ∈ output.sends) :
    ∃ appEn', request = .appendEntry appEn' ∧ server'.rf.Cuts appEn' ∧
      appEn'.term = appEn.term ∧ appEn'.leaderCommit = appEn.leaderCommit := by
  rcases spawn_cases spawned with ⟨_, rfl, rfl⟩ | ⟨appEn', filled, _, rfl, rfl⟩
  · simp at sent
  · obtain ⟨cuts, term, _, _, commit⟩ := Raft.fillEntry_cuts filled
    exact ⟨appEn', (by simpa using sent : _ ∧ _).2, cuts, term, commit⟩

theorem proceed_sends {k : Nat} {sender : Sender n α σ} {next : Next α}
    (message : ∀ {appEn appEnTerm}, next = .retry appEn appEnTerm → server.rf.Cuts appEn ∧
      (appEn.leaderCommit = server.rf.commitIndex ∨ appEn.leaderCommit = 0))
    (proceeds : server.proceed k sender next = (server', output)) {dst : Fin n}
    {request : Request α σ} (sent : (dst, request) ∈ output.sends) (before : Server n α σ) :
    Drafts before server' input request := by
  rcases proceed_cases proceeds with
    ⟨_, rfl, rfl⟩ | ⟨appEn, _, retry, _, rfl, rfl⟩ | ⟨_, rfl, rfl⟩
  · simp at sent
  · obtain ⟨_, rfl⟩ : _ ∧ request = .appendEntry appEn := by simpa using sent
    obtain ⟨cuts, own | zero⟩ := message retry
    · exact ⟨cuts, Or.inl own⟩
    · exact ⟨cuts, Or.inr (Or.inl zero)⟩
  · obtain ⟨_, rfl⟩ : _ ∧ request = .installSnapShot _ := by simpa using sent
    exact rfl

theorem Moves.sends (moves : Moves i server input server' output) {dst : Fin n}
    {request : Request α σ} (sent : (dst, request) ∈ output.sends) :
    Drafts server server' input request := by
  cases moves with
  | startRound _ _ =>
      obtain ⟨_, _, _, rfl⟩ : ∃ peer ∈ others i, peer = dst ∧
          Request.requestVote server.rf.voteRequest = request := by simpa using sent
      exact ⟨rfl, rfl⟩
  | snapshot _ _ _ =>
      obtain ⟨_, rfl⟩ : _ ∧ request = .installSnapShot _ := by simpa using sent
      exact rfl
  | distribute _ entry spawned =>
      obtain ⟨_, _, rfl⟩ := Raft.newEntry_eq entry
      obtain ⟨_, frame⟩ := spawn_rf spawned
      obtain ⟨appEn', rfl, cuts, _, commit⟩ := spawn_sends spawned sent
      refine ⟨cuts, Or.inl ?_⟩
      rw [commit, frame]
  | snapShotReply phase spawned =>
      obtain ⟨appEn', rfl, cuts, term, commit⟩ := spawn_sends spawned sent
      exact ⟨cuts, Or.inr (Or.inr ⟨_, _, _, _, _, _, phase, term, commit⟩)⟩
  | entryReply _ _ handled proceeds =>
      refine proceed_sends ?_ proceeds sent server
      rintro appEn appEnTerm rfl
      obtain ⟨cuts, _, _, _, commit⟩ := Raft.onReply_cuts handled
      exact ⟨cuts, commit⟩
  | retrySnapShotReply _ _ handled proceeds =>
      refine proceed_sends ?_ proceeds sent server
      rintro appEn appEnTerm rfl
      obtain ⟨cuts, _, _, _, commit⟩ := Raft.afterSnapShot_cuts handled
      exact ⟨cuts, Or.inr commit⟩
  | _ => cases sent

end Server

namespace Cluster

/-- The votes for `i` that the round has counted: as many as it says, one of them its own, and
each of the others the answer of another peer to the request of this round. -/
def Counted (c : Cluster n α σ) (i : Fin n) (round : Round n) : Prop :=
  ∃ voters : Finset (Fin n), i ∉ voters ∧ voters.card + 1 = round.granted ∧
    ∀ v ∈ voters, v ∈ round.answered ∧ ∃ reply : RequestVoteReply, reply.voteGranted = true ∧
      .reply i v (.requestVote round.args) (.requestVote reply) ∈ c.net

/-- What holds in every run. -/
structure Routed (c : Cluster n α σ) : Prop where
  placed : ∀ i, (c.servers i).Placed i
  requests : ∀ {src dst request}, .request src dst request ∈ c.net →
    dst ≠ src ∧ request.SentBy src
  replies : ∀ {src dst request reply}, .reply src dst request reply ∈ c.net →
    dst ≠ src ∧ request.SentBy src
  counting : ∀ {i round}, (c.servers i).phase = .candidate round → c.Counted i round
  won : ∀ {i round}, (i, round) ∈ c.won → majority n ≤ round.granted ∧ c.Counted i round

theorem Counted.mono {c c' : Cluster n α σ} {i : Fin n} {round : Round n}
    (counted : c.Counted i round) (grows : ∀ packet ∈ c.net, packet ∈ c'.net) :
    c'.Counted i round := by
  obtain ⟨voters, notSelf, size, votes⟩ := counted
  refine ⟨voters, notSelf, size, fun v member => ?_⟩
  obtain ⟨answered, reply, granted, sent⟩ := votes v member
  exact ⟨answered, reply, granted, grows _ sent⟩

/-- One more reply to the round is counted. -/
theorem Counted.count {c : Cluster n α σ} {i peer : Fin n} {round : Round n}
    {reply : RequestVoteReply} (counted : c.Counted i round) (first : peer ∉ round.answered)
    (other : peer ≠ i)
    (sent : .reply i peer (.requestVote round.args) (.requestVote reply) ∈ c.net) :
    c.Counted i (round.count peer reply) := by
  obtain ⟨voters, notSelf, size, votes⟩ := counted
  by_cases granted : reply.voteGranted = true
  · refine ⟨insert peer voters, ?_, ?_, ?_⟩
    · simp [notSelf, other.symm]
    · have new : peer ∉ voters := fun member => first (votes peer member).1
      simp [Round.count, granted, Finset.card_insert_of_notMem new, size]
    · intro v member
      rcases Finset.mem_insert.1 member with rfl | old
      · exact ⟨.head _, reply, granted, sent⟩
      · obtain ⟨answered, reply', granted', sent'⟩ := votes v old
        exact ⟨.tail _ answered, reply', granted', sent'⟩
  · refine ⟨voters, notSelf, by simp [Round.count, granted, size], fun v member => ?_⟩
    obtain ⟨answered, reply', granted', sent'⟩ := votes v member
    exact ⟨.tail _ answered, reply', granted', sent'⟩

theorem routed_init (n : Nat) (α σ : Type) : (init n α σ).Routed where
  placed i := Server.placed_boot i _ _
  requests sent := by simp [init] at sent
  replies sent := by simp [init] at sent
  counting phase := by simp [init, Server.boot] at phase
  won member := by simp [init] at member

variable {c c' : Cluster n α σ}

theorem Routed.answered (routed : c.Routed) {src dst : Fin n} {request : Request α σ}
    {server : Server n α σ} {reply : Reply} (sent : .request src dst request ∈ c.net)
    (handled : (c.servers dst).handle request = some (server, { reply := some reply })) :
    (c.answered src dst request server reply).Routed := by
  have moves : Server.Moves dst (c.servers dst) (.request request) server _ :=
    Server.step_moves handled
  have grows : ∀ packet ∈ c.net, packet ∈ (c.answered src dst request server reply).net :=
    fun packet member => List.mem_append_left _ member
  refine ⟨?_, ?_, ?_, ?_, ?_⟩
  · intro i
    by_cases acts : i = dst
    · subst acts
      simpa [Cluster.answered] using ((routed.placed i).step moves).1
    · simpa [Cluster.answered, acts] using routed.placed i
  · intro s d r member
    exact routed.requests (request_mem_answered.1 member)
  · intro s d r rep member
    rcases reply_mem_answered.1 member with old | ⟨rfl, rfl, rfl, rfl⟩
    · exact routed.replies old
    · exact routed.requests sent
  · intro i round phase
    refine Counted.mono ?_ grows
    by_cases acts : i = dst
    · subst acts
      have phase' : server.phase = .candidate round := by
        simpa [Cluster.answered] using phase
      rcases moves.candidate phase' with same | ⟨other, _⟩ | ⟨_, _, _, other, _⟩
      · exact routed.counting same
      · cases other
      · cases other
    · exact routed.counting (by simpa [Cluster.answered, acts] using phase)
  · intro i round member
    have old : (i, round) ∈ c.won := member
    exact ⟨(routed.won old).1, (routed.won old).2.mono grows⟩

theorem awaitsVote_round {server : Server n α σ} {args : RequestVoteArgs} {round : Round n}
    (awaits : server.awaitsVote args) (phase : server.phase = .candidate round) :
    round.args = args := by
  simpa [Server.awaitsVote, phase] using awaits

variable [DecidableEq α] [DecidableEq σ]

/-- A reply that reaches its round is counted as one more vote. -/
theorem Routed.count (routed : c.Routed) {i peer : Fin n} {reply : RequestVoteReply}
    {round : Round n} (prompted : c.Prompted i (.voteReply peer reply))
    (phase : (c.servers i).phase = .candidate round) (first : peer ∉ round.answered) :
    c.Counted i (round.count peer reply) := by
  obtain ⟨args, sent, awaits⟩ := prompted
  obtain rfl := awaitsVote_round awaits phase
  exact (routed.counting phase).count first (routed.replies sent).1 sent

theorem Routed.acted (routed : c.Routed) {i : Fin n} {input : Input n α σ}
    {server : Server n α σ} {output : Output n α σ} (prompted : c.Prompted i input)
    (stepped : (c.servers i).step i input = some (server, output)) :
    (c.acted i input server output).Routed := by
  have moves := Server.step_moves stepped
  have grows : ∀ packet ∈ c.net, packet ∈ (c.acted i input server output).net :=
    fun packet member => List.mem_append_left _ member
  obtain ⟨placed, sends⟩ := (routed.placed i).step moves
  refine ⟨?_, ?_, ?_, ?_, ?_⟩
  · intro j
    by_cases acts : j = i
    · subst acts
      simpa [Cluster.acted] using placed
    · simpa [Cluster.acted, acts] using routed.placed j
  · intro src dst request member
    rcases request_mem_acted.1 member with old | ⟨rfl, sent⟩
    · exact routed.requests old
    · exact sends dst request sent
  · intro src dst request reply member
    exact routed.replies (reply_mem_acted.1 member)
  · intro j round phase
    refine Counted.mono ?_ grows
    by_cases acts : j = i
    · subst acts
      have phase' : server.phase = .candidate round := by simpa [Cluster.acted] using phase
      rcases moves.candidate phase' with
        same | ⟨rfl, rfl, _⟩ | ⟨round₀, peer, reply, rfl, before, first, rfl⟩
      · exact routed.counting same
      · exact ⟨∅, by simp⟩
      · exact routed.count prompted before first
    · exact routed.counting (by simpa [Cluster.acted, acts] using phase)
  · intro j round member
    rcases mem_won_acted.1 member with old | ⟨rfl, won⟩
    · exact ⟨(routed.won old).1, (routed.won old).2.mono grows⟩
    · obtain ⟨round₀, peer, reply, rfl, before, first, granted, enough, rfl⟩ := moves.won won
      refine ⟨by simpa [Round.count, granted] using enough, ?_⟩
      exact (routed.count prompted before first).mono grows

theorem Routed.step {action : Action n α σ} (routed : c.Routed)
    (next : c.step action = some c') : c'.Routed := by
  rcases step_cases next with
    ⟨src, dst, request, server, reply, sent, _, handled, rfl⟩ |
    ⟨i, input, server, output, prompted, _, stepped, rfl⟩
  · exact routed.answered sent handled
  · exact routed.acted prompted stepped

end Cluster

end Mit6824
