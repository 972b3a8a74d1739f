import Mit6824.Raft.Terms

/-!
# One vote for each term

A server supports a candidate when it grants its `RequestVote`, and itself when it begins a round.
`votedFor` does not say whom it supported: it is set to the server itself in its first round and
never again, and it is not saved. What keeps a server to one candidate is that the term of a
request it grants is usually later than its own. There are three ways around that: a request of
the same term from a log with a later last term, a request of a later term that is granted while
a round is about to begin, and a crash in a term in which the server has voted. Without them every
server supports at most one candidate in a term (`one_vote_per_term`).
-/

namespace Mit6824

variable {n : Nat} {α σ : Type}

namespace Server

variable {i : Fin n} {server server' : Server n α σ} {input : Input n α σ}
  {output : Output n α σ}

/-- The term and the candidate that the server supports with this step. -/
def support (server : Server n α σ) : Input n α σ → Output n α σ → List (Int × Int)
  | .request (.requestVote args), output =>
      match output.reply with
      | some (.requestVote reply) =>
          if reply.voteGranted then [(args.term, args.candidateID)] else []
      | _ => []
  | .startRound, _ => [(server.rf.currentTerm, server.rf.me)]
  | _, _ => []

theorem support_cases (server : Server n α σ) (input : Input n α σ) (output : Output n α σ) :
    server.support input output = [] ∨
    (∃ args reply, input = .request (.requestVote args) ∧
      output.reply = some (.requestVote reply) ∧ reply.voteGranted = true ∧
      server.support input output = [(args.term, args.candidateID)]) ∨
    input = .startRound ∧ server.support input output =
      [(server.rf.currentTerm, server.rf.me)] := by
  unfold support
  split
  · split
    · split_ifs with granted
      · exact Or.inr (Or.inl ⟨_, _, rfl, ‹_›, granted, rfl⟩)
      · exact Or.inl rfl
    · exact Or.inl rfl
  · exact Or.inr (Or.inr ⟨rfl, rfl⟩)
  · exact Or.inl rfl

/-- How a server can come to begin a round. -/
theorem Moves.startRound_cases (moves : Moves i server input server' output)
    (phase' : server'.phase = .startRound) :
    server.phase = .startRound ∨ server.rf.currentTerm < server'.rf.currentTerm ∨
      input = .restart := by
  cases moves with
  | requestVote _ | appendEntry _ | installSnapShot _ | followerNotified _ | entryGivenUp
  | entryAgain _ | notLeader _ | startCheck _ | startAppend _ _ | takeSnapshots _ _ =>
      exact Or.inl phase'
  | roundTimeout _ | termTimeout _ | followerTimeout _ =>
      exact Or.inr (Or.inl (Int.lt_succ _))
  | startRound _ _ | counted _ _ | victory _ _ _ _ | outdated _ _ | roundNotified _ | lead _ _ _
  | follow _ _ | heartbeat _ | distributed _ | snapshot _ _ _ | deposed _ _ | leaderNotified _ =>
      cases phase'
  | distribute _ _ spawned | snapShotReply _ spawned =>
      rw [(spawn_phase spawned).1] at phase'
      cases phase'
  | entryReply _ _ _ proceeds | retrySnapShotReply _ _ _ proceeds =>
      exact Or.inl ((proceed_phase proceeds).1 ▸ phase')
  | restart => exact Or.inr (Or.inr rfl)

theorem savedTerm_snapShotReply (saved : server.rf.savedTerm = server.rf.currentTerm) {ind : Nat}
    {args : InstallSnapShotArgs σ} {reply : InstallSnapShotReply} (other : reply.errCode ≠ 1) :
    (server.rf.snapShotReply ind args reply).savedTerm =
      (server.rf.snapShotReply ind args reply).currentTerm := by
  rcases server.rf.snapShotReply_cases ind args reply with ⟨stale, _⟩ | ⟨_, _, _, frame⟩
  · exact absurd stale other
  · rw [frame]
    exact saved

end Server

theorem Raft.savedTerm_make (peers : Nat) (me : Int) (persister : Persister α σ)
    (applyCh : List (ApplyMsg α σ)) :
    (make peers me persister applyCh).savedTerm =
      (make peers me persister applyCh).currentTerm := by
  rw [make_eq]
  rfl

theorem Raft.savedTerm_appendEntry {rf rf' : Raft α σ} {args : AppendEntryArgs α}
    {reply : AppendEntryReply} (saved : rf.savedTerm = rf.currentTerm)
    (handled : rf.appendEntry args = some (rf', reply)) : rf'.savedTerm = rf'.currentTerm := by
  rcases appendEntry_frame handled with ⟨_, rfl⟩ | ⟨_, _, _, _, _, _, rfl, _⟩
  · exact saved
  · rfl

namespace Server

variable {i : Fin n} {server server' : Server n α σ} {input : Input n α σ}
  {output : Output n α σ}

/-- Apart from the answer to an outdated snapshot, the term is saved with every change. -/
theorem Moves.savedTerm (moves : Moves i server input server' output)
    (saved : server.rf.savedTerm = server.rf.currentTerm)
    (shipped : ∀ reply, (input = .snapShotReply reply ∨ ∃ k, input = .retrySnapShotReply k reply) →
      reply.errCode ≠ 1) :
    server'.rf.savedTerm = server'.rf.currentTerm := by
  cases moves with
  | requestVote handled =>
      rcases Raft.requestVote_cases handled with
        ⟨rfl, _⟩ | ⟨_, _, rfl, _⟩ | ⟨_, _, _, _, rfl⟩ | ⟨_, _, _, _, _, rfl⟩
      · exact saved
      · rfl
      · rfl
      · exact saved
  | appendEntry handled => exact Raft.savedTerm_appendEntry saved handled
  | installSnapShot handled =>
      rcases Raft.installSnapShot_cases handled with
        ⟨rfl, _⟩ | ⟨rfl, _⟩ | ⟨rfl, _⟩ | ⟨_, _, _, _, _, _, _, _, rfl⟩
      all_goals exact saved
  | outdated _ _ | roundTimeout _ | termTimeout _ | followerTimeout _ => rfl
  | lead _ _ started =>
      rw [Raft.startLeader_frame started]
      exact saved
  | distribute _ _ spawned =>
      obtain ⟨_, frame⟩ := spawn_rf spawned
      rw [frame]
      exact saved
  | snapShotReply _ spawned =>
      obtain ⟨_, frame⟩ := spawn_rf spawned
      rw [frame]
      exact savedTerm_snapShotReply saved (shipped _ (Or.inl rfl))
  | entryReply _ _ handled proceeds =>
      obtain ⟨_, frame⟩ := proceed_rf proceeds
      obtain ⟨_, _, _, _, _, _, _, rfl⟩ := Raft.onReply_frame handled
      rw [frame]
      exact saved
  | retrySnapShotReply _ _ _ proceeds =>
      obtain ⟨_, frame⟩ := proceed_rf proceeds
      rw [frame]
      exact savedTerm_snapShotReply saved (shipped _ (Or.inr ⟨_, rfl⟩))
  | startAppend _ appended =>
      obtain ⟨_, rfl⟩ := Raft.startAppend_frame appended
      rfl
  | takeSnapshots _ taken =>
      rcases Raft.takeSnapshots_cases taken with rfl | ⟨_, _, _, _, _, _, rfl⟩
      · exact saved
      · rfl
  | restart =>
      exact Raft.savedTerm_make n i server.rf.persister server.rf.applyCh
  | _ => exact saved

end Server

/-! ## Runs -/

/-- A server with all that it ever supported. -/
structure Voter (n : Nat) (α σ : Type) where
  server : Server n α σ
  votes : List (Int × Int)

namespace Voter

variable {i : Fin n} {voter voter' : Voter n α σ} {input : Input n α σ}

def start (i : Fin n) : Voter n α σ :=
  ⟨.boot i (makePersister α σ) [], []⟩

def next (i : Fin n) (voter : Voter n α σ) (input : Input n α σ) : Option (Voter n α σ) :=
  (voter.server.step i input).map fun (server, output) =>
    ⟨server, voter.votes ++ voter.server.support input output⟩

/-- Where the server has stood for election before, no request of its own term comes from a log
with a later last term. While a round is about to begin, a request of a later term comes from a
log that is behind. There is no crash in a term in which the server supported another one. The
term does not come from the answer to a snapshot. -/
def keepsVote (voter : Voter n α σ) : Input n α σ → Bool
  | .request (.requestVote args) =>
      decide (voter.server.rf.currentTerm = args.term →
        voter.server.rf.votedFor = voter.server.rf.me →
        args.lastLogTerm ≤ voter.server.rf.lastTerm) &&
      match voter.server.phase with
      | .startRound =>
          decide (voter.server.rf.currentTerm < args.term → voter.server.rf.Behind args)
      | _ => true
  | .restart => voter.votes.all fun vote =>
      vote.1 != voter.server.rf.currentTerm || vote.2 == voter.server.rf.me
  | .snapShotReply reply | .retrySnapShotReply _ reply => reply.errCode != 1
  | _ => true

/-- The term of a vote is not later than the server's. A server that is about to begin a round has
supported nobody else in its term. -/
structure Once (i : Fin n) (voter : Voter n α σ) : Prop where
  placed : voter.server.Placed i
  saved : voter.server.rf.savedTerm = voter.server.rf.currentTerm
  bound : ∀ vote ∈ voter.votes, vote.1 ≤ voter.server.rf.currentTerm
  round : voter.server.phase = .startRound → ∀ vote ∈ voter.votes,
    vote.1 = voter.server.rf.currentTerm → vote.2 = (i : Nat)
  once : ∀ {term candidate candidate'}, (term, candidate) ∈ voter.votes →
    (term, candidate') ∈ voter.votes → candidate = candidate'

namespace Once

theorem start (i : Fin n) : (Voter.start i : Voter n α σ).Once i where
  placed := Server.placed_boot i _ _
  saved := rfl
  bound := by simp [Voter.start]
  round := by simp [Voter.start]
  once member := by simp [Voter.start] at member

/-- A step without a vote. -/
theorem silent (once : voter.Once i) {server : Server n α σ} (placed : server.Placed i)
    (saved : server.rf.savedTerm = server.rf.currentTerm)
    (later : voter.server.rf.currentTerm ≤ server.rf.currentTerm)
    (round : server.phase = .startRound → voter.server.rf.currentTerm = server.rf.currentTerm →
      ∀ vote ∈ voter.votes, vote.1 = voter.server.rf.currentTerm → vote.2 = (i : Nat)) :
    Once i ⟨server, voter.votes⟩ where
  placed := placed
  saved := saved
  bound vote member := (once.bound vote member).trans later
  round phase vote member term := by
    have same : voter.server.rf.currentTerm = server.rf.currentTerm :=
      le_antisymm later (term ▸ once.bound vote member)
    exact round phase same vote member (term.trans same.symm)
  once := once.once

/-- A vote in a term in which the server has supported nobody else. -/
theorem vote (once : voter.Once i) {server : Server n α σ} (placed : server.Placed i)
    (saved : server.rf.savedTerm = server.rf.currentTerm)
    (later : voter.server.rf.currentTerm ≤ server.rf.currentTerm)
    (phase : server.phase ≠ .startRound) {candidate : Int}
    (free : ∀ vote ∈ voter.votes, vote.1 = server.rf.currentTerm → vote.2 = candidate) :
    Once i ⟨server, voter.votes ++ [(server.rf.currentTerm, candidate)]⟩ where
  placed := placed
  saved := saved
  bound vote member := by
    rcases List.mem_append.1 member with old | new
    · exact (once.bound vote old).trans later
    · rw [List.mem_singleton.1 new]
  round begins := absurd begins phase
  once first second := by
    simp only [List.mem_append, List.mem_singleton, Prod.mk.injEq] at first second
    rcases first with old | ⟨rfl, rfl⟩
    · rcases second with old' | ⟨rfl, rfl⟩
      · exact once.once old old'
      · exact free _ old rfl
    · rcases second with old' | ⟨_, rfl⟩
      · exact (free _ old' rfl).symm
      · rfl

theorem step (once : voter.Once i) (kept : voter.keepsVote input = true)
    (stepped : next i voter input = some voter') : voter'.Once i := by
  obtain ⟨⟨server, output⟩, moved, rfl⟩ := Option.map_eq_some_iff.1 stepped
  have moves := Server.step_moves moved
  have placed := (once.placed.step moves).1
  have saved : server.rf.savedTerm = server.rf.currentTerm := by
    apply moves.savedTerm once.saved
    rintro reply (rfl | ⟨k, rfl⟩)
    · simpa [keepsVote] using kept
    · simpa [keepsVote] using kept
  have later : voter.server.rf.currentTerm ≤ server.rf.currentTerm := by
    apply moves.currentTerm_le
    cases input with
    | snapShotReply _ | retrySnapShotReply _ _ =>
        exact Bool.or_eq_true_iff.2 (Or.inl kept)
    | restart => exact beq_iff_eq.2 once.saved
    | _ => rfl
  dsimp only
  rcases voter.server.support_cases input output with
    none | ⟨args, reply, rfl, replied, granted, cast⟩ | ⟨rfl, cast⟩
  · rw [none, List.append_nil]
    refine once.silent placed saved later fun phase same => ?_
    rcases moves.startRound_cases phase with begins | rises | rfl
    · exact once.round begins
    · exact absurd same rises.ne
    · intro vote member term
      have own := List.all_eq_true.1 kept vote member
      rw [← once.placed.me]
      simpa [term] using own
  · rw [cast]
    simp only [keepsVote, Bool.and_eq_true, decide_eq_true_eq] at kept
    cases moves with
    | requestVote handled =>
        cases replied
        rcases Raft.requestVote_cases handled with
          ⟨_, denied⟩ | ⟨_, _, _, denied⟩ | ⟨rises, ahead, _, _, rfl⟩ | ⟨equal, own, newer, _⟩
        · simp [denied] at granted
        · simp [denied] at granted
        · -- The term of the vote is new to the server.
          refine once.vote placed saved later ?_ ?_
          · intro phase
            have behind := kept.2
            rw [show voter.server.phase = .startRound from phase] at behind
            exact ahead (of_decide_eq_true behind rises)
          · intro vote member term
            change vote.1 = args.term at term
            have bound := once.bound vote member
            omega
        · exact absurd (kept.1 equal own) (not_le.2 newer)
  · rw [cast]
    cases moves with
    | startRound phase _ =>
        refine once.vote placed saved later (by simp) ?_
        rw [once.placed.me]
        exact once.round phase

end Once

/-- A server supports at most one candidate in a term, itself included. -/
theorem one_vote_per_term
    (run : Reaches (next i) (fun voter input => voter.keepsVote input = true)
      (start i : Voter n α σ) voter) {term candidate candidate' : Int}
    (first : (term, candidate) ∈ voter.votes) (second : (term, candidate') ∈ voter.votes) :
    candidate = candidate' :=
  (run.invariant (Once i) (.start i) fun once kept stepped => once.step kept stepped).once first
    second

/-- Server `0` begins a round in term `0`, votes for server `1` in term `2` and, after it has
crashed in term `3`, for itself. -/
def threeTerms : List (Input 3 Nat Unit) :=
  [.startRound, .request (.requestVote ⟨2, 1, 0, 0⟩), .roundTimeout, .restart, .startRound]

theorem one_vote_per_term_threeTerms :
    ∃ voter : Voter 3 Nat Unit, voter.votes = [(0, 0), (2, 1), (3, 0)] ∧
      ∀ candidate, (2, candidate) ∈ voter.votes → candidate = 1 := by
  have voted : ∃ voter, Reaches (next 0) (fun voter input => voter.keepsVote input = true)
      (start 0 : Voter 3 Nat Unit) voter ∧ voter.votes = [(0, 0), (2, 1), (3, 0)] :=
    exists_reaches threeTerms (by decide +kernel)
  obtain ⟨voter, run, votes⟩ := voted
  refine ⟨voter, votes, fun candidate member => one_vote_per_term run member ?_⟩
  simp [votes]

/-- A server that once began a round grants two requests of one term, the second of them because
it comes from a log with a later last term. -/
theorem two_votes_in_one_term :
    ∃ voter : Voter 3 Nat Unit, Reaches (next 0) anyStep (start 0) voter ∧
      (2, 1) ∈ voter.votes ∧ (2, 2) ∈ voter.votes :=
  exists_reaches [.startRound, .request (.requestVote ⟨2, 1, 0, 0⟩),
    .request (.requestVote ⟨2, 2, 1, 1⟩)] (by decide +kernel)

end Voter

end Mit6824
