import Mathlib.Data.Fintype.Card
import Mit6824.Raft.Routing

/-!
# Elections

When does `GetState` tell the truth? Four steps can leave `leaderNum` equal to
`me` under a term that this server has not won: the denial of a vote in a later
term, a victory after the term has moved on, the term timer, and the answer to an
outdated snapshot, which names server `0` as the leader. `Server.keepsTerm`
excludes just these. In a run without them a leader has won its term; if, besides,
no server supports two candidates of one term, then a term has one leader.
-/

namespace Mit6824

variable {n : Nat} {α σ : Type}

namespace Server

/-- The step does not leave this server the leader of a term it has not won. -/
def keepsTerm (server : Server n α σ) : Input n α σ → Bool
  | .request (.requestVote args) =>
      decide (server.rf.leaderNum = server.rf.me → server.rf.currentTerm < args.term →
        ¬server.rf.Behind args)
  | .voteReply _ reply =>
      match server.phase with
      | .candidate round =>
          decide (reply.voteGranted = true → majority n ≤ round.granted + 1 →
            server.rf.currentTerm = round.args.term)
      | _ => true
  | .termTimeout => decide (server.rf.leaderNum ≠ server.rf.me)
  | .snapShotReply reply | .retrySnapShotReply _ reply =>
      decide (reply.errCode = 1 → reply.value ≠ server.rf.me)
  | _ => true

variable {i : Fin n} {server server' : Server n α σ} {input : Input n α σ}
  {output : Output n α σ}

/-- What a step says about the leadership of the server afterwards: there is none, or the step
has won the term, or nothing about it has changed. -/
def RoleAfter (i : Fin n) (server server' : Server n α σ) (output : Output n α σ) : Prop :=
  server'.rf.leaderNum ≠ (i : Nat) ∨
  (∃ round, output.won = some round ∧ round.args.term = server'.rf.currentTerm ∧
    server'.phase = .roundOver) ∨
  server'.rf.leaderNum = server.rf.leaderNum ∧ server'.rf.currentTerm = server.rf.currentTerm

theorem snapShotReply_role (placed : server.Placed i) {ind : Nat} {args : InstallSnapShotArgs σ}
    {reply : InstallSnapShotReply} (kept : reply.errCode = 1 → reply.value ≠ server.rf.me) :
    (server.rf.snapShotReply ind args reply).leaderNum ≠ (i : Nat) ∨
      (server.rf.snapShotReply ind args reply).leaderNum = server.rf.leaderNum ∧
        (server.rf.snapShotReply ind args reply).currentTerm = server.rf.currentTerm := by
  rcases server.rf.snapShotReply_cases ind args reply with ⟨stale, frame⟩ | ⟨_, _, _, frame⟩
  · left
    rw [frame, ← placed.me]
    exact kept stale
  · right
    rw [frame]
    exact ⟨rfl, rfl⟩

theorem neg_one_ne (i : Fin n) : (-1 : Int) ≠ (i : Nat) := by
  omega

/-- A step that keeps the term, by a server that is no leader while it is a candidate. -/
theorem role_step (placed : server.Placed i)
    (standing : ∀ round, server.phase = .candidate round → server.rf.leaderNum ≠ (i : Nat))
    (signed : ∀ request, input = .request request → ∃ src, i ≠ src ∧ request.SentBy src)
    (kept : server.keepsTerm input = true) (moves : Moves i server input server' output) :
    RoleAfter i server server' output := by
  have me := placed.me
  cases moves with
  | requestVote handled =>
      obtain ⟨src, other, candidate⟩ := signed _ rfl
      rcases Raft.requestVote_cases handled with
        ⟨rfl, _⟩ | ⟨later, behind, rfl, _⟩ | ⟨_, _, _, _, rfl⟩ | ⟨_, _, _, _, _, rfl⟩
      · exact Or.inr (Or.inr ⟨rfl, rfl⟩)
      · left
        intro leads
        simp only [keepsTerm, decide_eq_true_eq] at kept
        exact kept (by rw [me]; exact leads) later behind
      · left
        intro leads
        have : (src : Int) = (i : Nat) := candidate.symm.trans leads
        exact other (Fin.ext (by omega))
      · exact Or.inr (Or.inr ⟨rfl, rfl⟩)
  | appendEntry handled =>
      obtain ⟨src, other, leader⟩ := signed _ rfl
      obtain ⟨_, _, _, ⟨term, same⟩ | ⟨_, _, changed⟩⟩ := Raft.appendEntry_role handled
      · exact Or.inr (Or.inr ⟨same, term⟩)
      · left
        dsimp only
        rw [changed, me]
        split_ifs with leads
        · intro wrong
          have : (src : Int) = (i : Nat) := leader.symm.trans wrong
          exact other (Fin.ext (by omega))
        · exact leads
  | installSnapShot handled =>
      rcases Raft.installSnapShot_cases handled with
        ⟨rfl, _⟩ | ⟨rfl, _⟩ | ⟨rfl, _⟩ | ⟨_, _, _, _, _, _, _, _, rfl⟩
      all_goals exact Or.inr (Or.inr ⟨rfl, rfl⟩)
  | startRound _ _ | followerTimeout _ => exact Or.inl (neg_one_ne i)
  | victory phase _ granted enough =>
      refine Or.inr (Or.inl ⟨_, rfl, ?_, rfl⟩)
      simp only [keepsTerm, phase, decide_eq_true_eq] at kept
      exact (kept granted enough).symm
  | outdated phase _ | roundTimeout phase => exact Or.inl (standing _ phase)
  | termTimeout _ =>
      left
      simp only [keepsTerm, decide_eq_true_eq, me] at kept
      exact kept
  | lead _ _ started =>
      rw [Raft.startLeader_frame started]
      exact Or.inr (Or.inr ⟨rfl, rfl⟩)
  | distribute _ _ spawned =>
      obtain ⟨_, frame⟩ := spawn_rf spawned
      exact Or.inr (Or.inr ⟨by rw [frame], by rw [frame]⟩)
  | snapShotReply _ spawned =>
      obtain ⟨_, frame⟩ := spawn_rf spawned
      simp only [keepsTerm, decide_eq_true_eq] at kept
      simp only [RoleAfter, frame]
      rcases snapShotReply_role placed kept with other | same
      · exact Or.inl other
      · exact Or.inr (Or.inr same)
  | entryReply _ _ handled proceeds =>
      obtain ⟨_, frame⟩ := proceed_rf proceeds
      obtain ⟨_, _, _, _, _, _, same | gone, rfl⟩ := Raft.onReply_frame handled
      · exact Or.inr (Or.inr ⟨by rw [frame]; exact same, by rw [frame]⟩)
      · left
        rw [frame]
        dsimp only
        rw [gone]
        exact neg_one_ne i
  | retrySnapShotReply _ _ _ proceeds =>
      obtain ⟨_, frame⟩ := proceed_rf proceeds
      simp only [keepsTerm, decide_eq_true_eq] at kept
      simp only [RoleAfter, frame]
      rcases snapShotReply_role placed kept with other | same
      · exact Or.inl other
      · exact Or.inr (Or.inr same)
  | startAppend _ appended =>
      obtain ⟨_, rfl⟩ := Raft.startAppend_frame appended
      exact Or.inr (Or.inr ⟨rfl, rfl⟩)
  | takeSnapshots _ taken =>
      rcases Raft.takeSnapshots_cases taken with rfl | ⟨_, _, _, _, _, _, rfl⟩
      all_goals exact Or.inr (Or.inr ⟨rfl, rfl⟩)
  | restart =>
      left
      obtain ⟨_, _, _, _, _, _, frame, _⟩ :=
        Raft.make_frame n (i : Nat) server.rf.persister server.rf.applyCh
      simp only [boot, frame]
      exact neg_one_ne i
  | _ => exact Or.inr (Or.inr ⟨rfl, rfl⟩)

end Server

namespace Cluster

/-- A leader has won its term, and a candidate is not a leader. -/
structure Seated (c : Cluster n α σ) : Prop where
  leads : ∀ {i}, (c.rf i).leaderNum = (i : Nat) →
    ∃ round, (i, round) ∈ c.won ∧ round.args.term = (c.rf i).currentTerm
  standing : ∀ {i round}, (c.servers i).phase = .candidate round →
    (c.rf i).leaderNum ≠ (i : Nat)

theorem seated_init (n : Nat) (α σ : Type) : (init n α σ).Seated where
  leads {i} leads := by
    obtain ⟨_, _, _, _, _, _, frame, _⟩ :=
      Raft.make_frame n (i : Nat) (makePersister α σ) []
    simp only [init, rf, Server.boot, frame] at leads
    exact absurd leads (Server.neg_one_ne i)
  standing phase := by simp [init, Server.boot] at phase

/-- The leadership of the server that acts. -/
theorem Seated.update {c c' : Cluster n α σ} (seated : c.Seated) (routed : c.Routed) {i : Fin n}
    {input : Input n α σ} {server : Server n α σ} {output : Output n α σ}
    (signed : ∀ request, input = .request request → ∃ src, i ≠ src ∧ request.SentBy src)
    (kept : (c.servers i).keepsTerm input = true)
    (moves : Server.Moves i (c.servers i) input server output)
    (servers : c'.servers = Function.update c.servers i server)
    (won : ∀ w, w ∈ c'.won ↔ w ∈ c.won ∨ ∃ round, output.won = some round ∧ w = (i, round)) :
    c'.Seated := by
  have role : Server.RoleAfter i (c.servers i) server output :=
    Server.role_step (routed.placed i) (fun _ => seated.standing) signed kept moves
  refine ⟨?_, ?_⟩
  · intro j leads
    by_cases acts : j = i
    · subst acts
      simp only [rf, servers, Function.update_self] at leads ⊢
      rcases role with other | ⟨round, won', term, _⟩ | ⟨same, term⟩
      · exact absurd leads other
      · exact ⟨round, (won _).2 (Or.inr ⟨round, won', rfl⟩), term⟩
      · obtain ⟨round, old, term'⟩ := seated.leads (same.symm.trans leads)
        exact ⟨round, (won _).2 (Or.inl old), term'.trans term.symm⟩
    · simp only [rf, servers, Function.update_of_ne acts] at leads ⊢
      obtain ⟨round, old, term⟩ := seated.leads leads
      exact ⟨round, (won _).2 (Or.inl old), term⟩
  · intro j round phase
    by_cases acts : j = i
    · subst acts
      simp only [rf, servers, Function.update_self] at phase ⊢
      rcases role with other | ⟨_, _, _, finished⟩ | ⟨same, _⟩
      · exact other
      · rw [finished] at phase
        cases phase
      · rcases moves.candidate phase with before | ⟨_, _, gone⟩ | ⟨_, _, _, _, before, _⟩
        · exact same.trans_ne (seated.standing before)
        · rw [gone]
          exact Server.neg_one_ne j
        · exact same.trans_ne (seated.standing before)
    · simp only [rf, servers, Function.update_of_ne acts] at phase ⊢
      exact seated.standing phase

variable [DecidableEq α] [DecidableEq σ] {c c' : Cluster n α σ}

theorem Seated.step (seated : c.Seated) (routed : c.Routed) {action : Action n α σ}
    (kept : c.Meets (fun c i input => (c.servers i).keepsTerm input) action)
    (next : c.step action = some c') : c'.Seated := by
  rcases step_cases next with
    ⟨src, dst, request, server, reply, sent, event, handled, rfl⟩ |
    ⟨i, input, server, output, prompted, event, stepped, rfl⟩
  · refine seated.update routed ?_ (kept.of_event event) (Server.step_moves handled) rfl ?_
    · intro _ equal
      cases equal
      exact ⟨src, routed.requests sent⟩
    · simp [answered]
  · refine seated.update routed ?_ (kept.of_event event) (Server.step_moves stepped) rfl ?_
    · rintro _ rfl
      exact absurd prompted not_false
    · intro w
      cases won : output.won <;> simp [acted, won]

/-- Server `0` of three stands in term `1` and wins with the vote of server `1`. -/
def firstElection (α σ : Type) : List (Action 3 α σ) :=
  [.internal 0 .startRound, .internal 0 .roundTimeout, .internal 0 .startRound, .deliver 2,
    .voteReply 4]

/-- In term `term` server `i` has supported nobody but `candidate`. -/
def Pledged (c : Cluster n α σ) (i : Fin n) (term candidate : Int) : Prop :=
  ∀ s ∈ c.supported, s.1 = i → s.2.1 = term → ((s.2.2 : Nat) : Int) = candidate

instance (c : Cluster n α σ) (i : Fin n) (term candidate : Int) :
    Decidable (c.Pledged i term candidate) :=
  inferInstanceAs (Decidable (∀ s ∈ c.supported, _))

/-- The server does not support a second candidate of one term, be it itself, and a round is
won with more than half of all votes. -/
def votesOnce (c : Cluster n α σ) (i : Fin n) : Input n α σ → Bool
  | .request (.requestVote args) =>
      decide ((c.rf i).grants args = true → c.Pledged i args.term args.candidateID)
  | .startRound => decide (c.Pledged i (c.rf i).currentTerm (c.rf i).me)
  | .voteReply _ reply =>
      match (c.servers i).phase with
      | .candidate round =>
          decide (reply.voteGranted = true → majority n ≤ round.granted + 1 →
            n < 2 * (round.granted + 1))
      | _ => true
  | _ => true

/-- What is known about the votes of a run in which every server votes once in a term. -/
structure Ballots (c : Cluster n α σ) : Prop where
  once : ∀ {v term d d'}, (v, term, d) ∈ c.supported → (v, term, d') ∈ c.supported → d = d'
  granted : ∀ {src dst args reply},
    .reply src dst (.requestVote args) (.requestVote reply) ∈ c.net →
    reply.voteGranted = true → (dst, args.term, src) ∈ c.supported
  standing : ∀ {i round}, (c.servers i).phase = .candidate round →
    (i, round.args.term, i) ∈ c.supported
  won : ∀ {i round}, (i, round) ∈ c.won →
    (i, round.args.term, i) ∈ c.supported ∧ n < 2 * round.granted

omit [DecidableEq α] [DecidableEq σ] in
theorem ballots_init (n : Nat) (α σ : Type) : (init n α σ).Ballots where
  once member := by simp [init] at member
  granted sent := by simp [init] at sent
  standing phase := by simp [init, Server.boot] at phase
  won member := by simp [init] at member

omit [DecidableEq α] [DecidableEq σ] in
/-- One more vote of a server that is pledged to the candidate. -/
theorem Ballots.once_append {v : Fin n} {term : Int} {d : Fin n} (ballots : c.Ballots)
    (pledged : c.Pledged v term ((d : Nat) : Int)) {v' : Fin n} {term' : Int} {d₁ d₂ : Fin n}
    (first : (v', term', d₁) ∈ c.supported ++ [(v, term, d)])
    (second : (v', term', d₂) ∈ c.supported ++ [(v, term, d)]) : d₁ = d₂ := by
  have same : ∀ {e : Fin n}, (v, term, e) ∈ c.supported → e = d := by
    intro e member
    have equal : ((e : Nat) : Int) = (d : Nat) := pledged _ member rfl rfl
    exact Fin.ext (by omega)
  simp only [List.mem_append, List.mem_singleton, Prod.mk.injEq] at first second
  rcases first with old | ⟨rfl, rfl, rfl⟩
  · rcases second with old' | ⟨rfl, rfl, rfl⟩
    · exact ballots.once old old'
    · exact same old
  · rcases second with old' | ⟨_, _, rfl⟩
    · exact (same old').symm
    · rfl

omit [DecidableEq α] [DecidableEq σ] in
theorem Ballots.answered (ballots : c.Ballots) (routed : c.Routed) {src dst : Fin n}
    {request : Request α σ} {server : Server n α σ} {reply : Reply}
    (sent : .request src dst request ∈ c.net) (once : c.votesOnce dst (.request request) = true)
    (handled : (c.servers dst).handle request = some (server, { reply := some reply })) :
    (c.answered src dst request server reply).Ballots := by
  have moves : Server.Moves dst (c.servers dst) (.request request) server _ :=
    Server.step_moves handled
  have grows : ∀ s ∈ c.supported, s ∈ (c.answered src dst request server reply).supported :=
    fun s member => List.mem_append_left _ member
  refine ⟨?_, ?_, ?_, ?_⟩
  · intro v term d d' first second
    by_cases vote : ballot src dst request reply = []
    · simp only [Cluster.answered, vote, List.append_nil] at first second
      exact ballots.once first second
    · -- A vote was granted, so that the request is a `RequestVote`.
      cases moves with
      | appendEntry _ | installSnapShot _ => exact absurd rfl vote
      | @requestVote args rf answer voted =>
          have granted : answer.voteGranted = true := by
            by_contra denied
            exact vote (by simp [ballot, denied])
          simp only [Cluster.answered, ballot, granted, if_true] at first second
          simp only [votesOnce, decide_eq_true_eq] at once
          have pledged := once (Raft.requestVote_grants voted granted)
          rw [(routed.requests sent).2] at pledged
          exact ballots.once_append pledged first second
  · intro s d args answer member granted
    rcases reply_mem_answered.1 member with old | ⟨rfl, rfl, rfl, rfl⟩
    · exact grows _ (ballots.granted old granted)
    · simp [Cluster.answered, ballot, granted]
  · intro i round phase
    apply grows
    by_cases acts : i = dst
    · subst acts
      have phase' : server.phase = .candidate round := by
        simpa [Cluster.answered] using phase
      rcases moves.candidate phase' with same | ⟨other, _⟩ | ⟨_, _, _, other, _⟩
      · exact ballots.standing same
      · cases other
      · cases other
    · exact ballots.standing (by simpa [Cluster.answered, acts] using phase)
  · intro i round member
    obtain ⟨self, enough⟩ := ballots.won (show (i, round) ∈ c.won from member)
    exact ⟨grows _ self, enough⟩

theorem Ballots.acted (ballots : c.Ballots) (routed : c.Routed) {i : Fin n} {input : Input n α σ}
    {server : Server n α σ} {output : Output n α σ} (prompted : c.Prompted i input)
    (once : c.votesOnce i input = true)
    (stepped : (c.servers i).step i input = some (server, output)) :
    (c.acted i input server output).Ballots := by
  have moves := Server.step_moves stepped
  have grows : ∀ s ∈ c.supported, s ∈ (c.acted i input server output).supported :=
    fun s member => List.mem_append_left _ member
  refine ⟨?_, ?_, ?_, ?_⟩
  · intro v term d d' first second
    cases input with
    | startRound =>
        simp only [votesOnce, decide_eq_true_eq] at once
        rw [show (c.rf i).me = (i : Nat) from (routed.placed i).me] at once
        exact ballots.once_append once first second
    | _ =>
        simp only [Cluster.acted, candidacy, List.append_nil] at first second
        exact ballots.once first second
  · intro src dst args reply member granted
    exact grows _ (ballots.granted (reply_mem_acted.1 member) granted)
  · intro j round phase
    by_cases acts : j = i
    · subst acts
      have phase' : server.phase = .candidate round := by simpa [Cluster.acted] using phase
      rcases moves.candidate phase' with
        same | ⟨rfl, rfl, _⟩ | ⟨round₀, peer, reply, rfl, before, _, rfl⟩
      · exact grows _ (ballots.standing same)
      · simp [Cluster.acted, candidacy, Raft.voteRequest, rf]
      · have self := ballots.standing before
        exact grows _ self
    · exact grows _ (ballots.standing (by simpa [Cluster.acted, acts] using phase))
  · intro j round member
    rcases mem_won_acted.1 member with old | ⟨rfl, won⟩
    · obtain ⟨self, enough⟩ := ballots.won old
      exact ⟨grows _ self, enough⟩
    · obtain ⟨round₀, peer, reply, rfl, before, _, granted, enough, rfl⟩ := moves.won won
      simp only [votesOnce, before, decide_eq_true_eq] at once
      have self := ballots.standing before
      refine ⟨grows _ self, ?_⟩
      simpa [Round.count, granted] using once granted enough

theorem Ballots.step (ballots : c.Ballots) (routed : c.Routed) {action : Action n α σ}
    (once : c.Meets votesOnce action) (next : c.step action = some c') : c'.Ballots := by
  rcases step_cases next with
    ⟨src, dst, request, server, reply, sent, event, handled, rfl⟩ |
    ⟨i, input, server, output, prompted, event, stepped, rfl⟩
  · exact ballots.answered routed sent (once.of_event event) handled
  · exact ballots.acted routed prompted (once.of_event event) stepped

omit [DecidableEq α] [DecidableEq σ] in
/-- Those who helped to win a round: more than half of all servers. -/
theorem Ballots.supporters (ballots : c.Ballots) (routed : c.Routed) {i : Fin n} {round : Round n}
    (won : (i, round) ∈ c.won) :
    ∃ supporters : Finset (Fin n), n < 2 * supporters.card ∧
      ∀ v ∈ supporters, (v, round.args.term, i) ∈ c.supported := by
  obtain ⟨self, enough⟩ := ballots.won won
  obtain ⟨_, voters, notSelf, size, votes⟩ := routed.won won
  refine ⟨insert i voters, ?_, ?_⟩
  · rw [Finset.card_insert_of_notMem notSelf, size]
    exact enough
  · intro v member
    rcases Finset.mem_insert.1 member with rfl | other
    · exact self
    · obtain ⟨_, reply, granted, sent⟩ := votes v other
      exact ballots.granted sent granted

end Cluster

/-- Any two sets of more than half of the servers have a server in common. -/
theorem majorities_meet {s t : Finset (Fin n)} (more : n < 2 * s.card) (more' : n < 2 * t.card) :
    ∃ v, v ∈ s ∧ v ∈ t := by
  by_contra disjoint
  have apart : Disjoint s t := by
    rw [Finset.disjoint_left]
    exact fun v inS inT => disjoint ⟨v, inS, inT⟩
  have bound := Finset.card_le_univ (s ∪ t)
  rw [Finset.card_union_of_disjoint apart, Fintype.card_fin] at bound
  omega

namespace Cluster

variable {c c' : Cluster n α σ}

variable [DecidableEq α] [DecidableEq σ]

/-- No step takes a leader to a term it has not won, and every server votes once in a term. -/
def fairElection (c : Cluster n α σ) (i : Fin n) (input : Input n α σ) : Bool :=
  (c.servers i).keepsTerm input && c.votesOnce i input

/-- What `fairElection` keeps. -/
theorem elected (run : Reaches step (Meets fairElection) (init n α σ) c) :
    c.Seated ∧ c.Ballots ∧ c.Routed := by
  refine run.invariant (fun c => c.Seated ∧ c.Ballots ∧ c.Routed)
    ⟨seated_init n α σ, ballots_init n α σ, routed_init n α σ⟩ ?_
  rintro c c' action ⟨seated, ballots, routed⟩ fair next
  refine ⟨seated.step routed ?_ next, ballots.step routed ?_ next, routed.step next⟩
  · intro e event
    have := fair e event
    simp only [fairElection, Bool.and_eq_true] at this
    exact this.1
  · intro e event
    have := fair e event
    simp only [fairElection, Bool.and_eq_true] at this
    exact this.2

end Cluster

end Mit6824
