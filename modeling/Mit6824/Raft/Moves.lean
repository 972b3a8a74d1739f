import Mit6824.Raft.Frame
import Mit6824.Raft.Server

/-!
# What one step of a server can do

`Server.Moves` lists the branches of `Server.step` with their guards and results.
`step_moves` is the only proof that takes the step function apart; an invariant of
a server is a case analysis on `Moves`.
-/

namespace Mit6824

variable {n : Nat} {α σ : Type}

/-- The round after one more reply. -/
def Round.count (round : Round n) (peer : Fin n) (reply : RequestVoteReply) : Round n :=
  { round with
    granted := if reply.voteGranted then round.granted + 1 else round.granted
    answered := peer :: round.answered }

/-- The request of a round that starts with this peer. -/
def Raft.voteRequest (rf : Raft α σ) : RequestVoteArgs :=
  { term := rf.currentTerm, candidateID := rf.me, lastLogIndex := rf.getLastLogIndex
    lastLogTerm := rf.lastTerm }

namespace Server

inductive Moves (i : Fin n) (server : Server n α σ) :
    Input n α σ → Server n α σ → Output n α σ → Prop where
  | requestVote {args : RequestVoteArgs} {rf : Raft α σ} {reply : RequestVoteReply}
      (handled : server.rf.requestVote args = some (rf, reply)) :
      Moves i server (.request (.requestVote args)) { server with rf := rf }
        { reply := some (.requestVote reply) }
  | appendEntry {args : AppendEntryArgs α} {rf : Raft α σ} {reply : AppendEntryReply}
      (handled : server.rf.appendEntry args = some (rf, reply)) :
      Moves i server (.request (.appendEntry args)) { server with rf := rf }
        { reply := some (.appendEntry reply) }
  | installSnapShot {args : InstallSnapShotArgs σ} {rf : Raft α σ} {reply : InstallSnapShotReply}
      (handled : server.rf.installSnapShot args = some (rf, reply)) :
      Moves i server (.request (.installSnapShot args)) { server with rf := rf }
        { reply := some (.installSnapShot reply) }
  | startRound (phase : server.phase = .startRound) (nonempty : server.rf.log ≠ []) :
      Moves i server .startRound
        { server with
          rf := { server.rf with votedFor := server.rf.me, leaderNum := -1 }
          phase := .candidate ⟨server.rf.voteRequest, 1, []⟩ }
        { sends := (others i).map fun peer => (peer, .requestVote server.rf.voteRequest) }
  | victory {round : Round n} {peer : Fin n} {reply : RequestVoteReply}
      (phase : server.phase = .candidate round) (first : peer ∉ round.answered)
      (granted : reply.voteGranted = true) (enough : majority n ≤ round.granted + 1) :
      Moves i server (.voteReply peer reply)
        { server with
          rf := { server.rf with leaderNum := server.rf.me }, phase := .roundOver }
        { won := some (round.count peer reply) }
  | outdated {round : Round n} {peer : Fin n} {reply : RequestVoteReply}
      (phase : server.phase = .candidate round) (later : server.rf.currentTerm < reply.term) :
      Moves i server (.voteReply peer reply)
        { server with
          rf := { server.rf with currentTerm := reply.term }.persist, phase := .roundOver } {}
  | counted {round : Round n} {peer : Fin n} {reply : RequestVoteReply}
      (phase : server.phase = .candidate round) (first : peer ∉ round.answered) :
      Moves i server (.voteReply peer reply)
        { server with phase := .candidate (round.count peer reply) } {}
  | roundTimeout {round : Round n} (phase : server.phase = .candidate round) :
      Moves i server .roundTimeout
        { server with
          rf := { server.rf with currentTerm := server.rf.currentTerm + 1 }.persist
          phase := .startRound } {}
  | roundNotified {round : Round n} (phase : server.phase = .candidate round) :
      Moves i server .roundNotified
        { server with rf := { server.rf with aeNotifyChan := 0 }, phase := .roundOver } {}
  | lead {rf : Raft α σ} {cache : TermCache} (phase : server.phase = .roundOver)
      (leads : server.rf.me = server.rf.leaderNum)
      (started : server.rf.startLeader = some (rf, cache)) :
      Moves i server .roundOver { server with rf := rf, phase := .leader cache } {}
  | follow (phase : server.phase = .roundOver) (other : server.rf.me ≠ server.rf.leaderNum) :
      Moves i server .roundOver { server with phase := .follower } {}
  | heartbeat {cache : TermCache} (phase : server.phase = .leader cache) :
      Moves i server .heartbeat
        { server with
          phase := .distributing cache (server.rf.getLastLogIndex + 1) (others i) } {}
  | distributed {cache : TermCache} {logLen : Int}
      (phase : server.phase = .distributing cache logLen []) :
      Moves i server .distribute { server with phase := .leader cache } {}
  | snapshot {cache : TermCache} {logLen : Int} {ind : Fin n} {todo : List (Fin n)}
      {appEn : AppendEntryArgs α} (phase : server.phase = .distributing cache logLen (ind :: todo))
      (entry : server.rf.newEntry ind = some appEn)
      (behind : appEn.prevLogIndex + 1 ≤ server.rf.lastIndexInSnapshot) :
      Moves i server .distribute
        { server with
          phase := .snapshotting cache logLen todo ind appEn server.rf.snapShotArgs }
        { sends := [(ind, .installSnapShot server.rf.snapShotArgs)] }
  | distribute {cache : TermCache} {logLen : Int} {ind : Fin n} {todo : List (Fin n)}
      {appEn : AppendEntryArgs α} {server' : Server n α σ} {output : Output n α σ}
      (phase : server.phase = .distributing cache logLen (ind :: todo))
      (entry : server.rf.newEntry ind = some appEn)
      (spawned : { server with phase := .distributing cache logLen todo }.spawn cache logLen ind
        appEn = some (server', output)) :
      Moves i server .distribute server' output
  | snapShotReply {cache : TermCache} {logLen : Int} {ind : Fin n} {todo : List (Fin n)}
      {appEn : AppendEntryArgs α} {args : InstallSnapShotArgs σ} {reply : InstallSnapShotReply}
      {server' : Server n α σ} {output : Output n α σ}
      (phase : server.phase = .snapshotting cache logLen todo ind appEn args)
      (spawned : { server with
        rf := server.rf.snapShotReply ind args reply
        phase := .distributing cache logLen todo }.spawn cache logLen ind appEn =
          some (server', output)) :
      Moves i server (.snapShotReply reply) server' output
  | termTimeout {cache : TermCache} (phase : server.phase = .leader cache) :
      Moves i server .termTimeout
        { server with
          rf := { server.rf with currentTerm := server.rf.currentTerm + 1 }.persist
          phase := .startRound } {}
  | deposed {cache : TermCache} {waiting : Nat} (phase : server.phase = .leader cache)
      (other : server.rf.me ≠ server.rf.leaderNum) :
      Moves i server .leaderNotified
        { server with rf := { server.rf with aeNotifyChan := waiting }, phase := .follower } {}
  | leaderNotified {cache : TermCache} {waiting : Nat} (phase : server.phase = .leader cache) :
      Moves i server .leaderNotified
        { server with rf := { server.rf with aeNotifyChan := waiting }, phase := .leader cache } {}
  | followerTimeout (phase : server.phase = .follower) :
      Moves i server .followerTimeout
        { server with
          rf :=
            { server.rf with currentTerm := server.rf.currentTerm + 1, leaderNum := -1 }.persist
          phase := .startRound } {}
  | followerNotified {waiting : Nat} (phase : server.phase = .follower) :
      Moves i server .followerNotified
        { server with rf := { server.rf with aeNotifyChan := waiting } } {}
  | entryReply {k : Nat} {reply : AppendEntryReply} {sender : Sender n α σ} {rf : Raft α σ}
      {next : Next α} {server' : Server n α σ} {output : Output n α σ}
      (found : server.senders[k]? = some sender) (waits : sender.snapshot = none)
      (handled : server.rf.onReply sender reply = some (rf, next))
      (proceeds : { server with rf := rf }.proceed k sender next = (server', output)) :
      Moves i server (.entryReply k reply) server' output
  | entryGivenUp {k : Nat} {waiting : Nat} :
      Moves i server (.entryLost k)
        { server with
          rf := { server.rf with aeNotifyChan := waiting }
          senders := server.senders.eraseIdx k } {}
  | entryAgain {k : Nat} {sender : Sender n α σ} (found : server.senders[k]? = some sender) :
      Moves i server (.entryLost k)
        { server with
          senders := server.senders.set k { sender with count := sender.count + 1 } } {}
  | retrySnapShotReply {k : Nat} {reply : InstallSnapShotReply} {sender : Sender n α σ}
      {args : InstallSnapShotArgs σ} {next : Next α} {server' : Server n α σ}
      {output : Output n α σ} (found : server.senders[k]? = some sender)
      (waits : sender.snapshot = some args)
      (handled : (server.rf.snapShotReply sender.ind args reply).afterSnapShot sender = some next)
      (proceeds : { server with rf := server.rf.snapShotReply sender.ind args reply }.proceed k
        sender next = (server', output)) :
      Moves i server (.retrySnapShotReply k reply) server' output
  | notLeader {command : α} (other : server.rf.startCheck = none) :
      Moves i server (.startCheck command) server {}
  | startCheck {command : α} {curTerm : Int} (leads : server.rf.startCheck = some curTerm) :
      Moves i server (.startCheck command)
        { server with starts := server.starts ++ [(command, curTerm)] } {}
  | startAppend {k : Nat} {command : α} {curTerm index : Int} {rf : Raft α σ}
      (found : server.starts[k]? = some (command, curTerm))
      (appended : server.rf.startAppend command curTerm = some (rf, index)) :
      Moves i server (.startAppend k)
        { server with rf := rf, starts := server.starts.eraseIdx k } {}
  | takeSnapshots {state : σ} {index : Int} {rf : Raft α σ}
      (delivered : index ≤ server.rf.commitIndex)
      (taken : server.rf.takeSnapshots state index = some rf) :
      Moves i server (.takeSnapshots state index) { server with rf := rf } {}
  | restart : Moves i server .restart (boot i server.rf.persister server.rf.applyCh) {}

variable {i : Fin n} {server server' : Server n α σ} {input : Input n α σ}
  {output : Output n α σ}

theorem spawn_cases {cache : TermCache} {logLen : Int} {ind : Fin n} {appEn : AppendEntryArgs α}
    (spawned : server.spawn cache logLen ind appEn = some (server', output)) :
    (∃ waiting, server' =
      { server with rf := { server.rf with aeNotifyChan := waiting } } ∧ output = {}) ∨
    ∃ appEn', server.rf.fillEntry ind logLen appEn = some (some appEn') ∧
      server.rf.leaderNum = server.rf.me ∧
      server' = { server with
        senders := server.senders ++
          [⟨ind, appEn.prevLogIndex, appEn.term, appEn', cache, none, 0⟩] } ∧
      output = { sends := [(ind, .appendEntry appEn')] } := by
  unfold spawn at spawned
  split at spawned
  · cases spawned
  · cases spawned
    exact Or.inl ⟨server.rf.aeNotifyChan, rfl, rfl⟩
  · rename_i appEn' filled
    split_ifs at spawned with other
    · cases spawned
      obtain ⟨waiting, notified⟩ := Raft.notify_frame server.rf 2
      exact Or.inl ⟨waiting, by rw [notified], rfl⟩
    · cases spawned
      exact Or.inr ⟨appEn', filled, not_not.1 other, rfl, rfl⟩

theorem proceed_cases {k : Nat} {sender : Sender n α σ} {next : Next α}
    (proceeds : server.proceed k sender next = (server', output)) :
    (∃ waiting, server' =
      { server with
        rf := { server.rf with aeNotifyChan := waiting }
        senders := server.senders.eraseIdx k } ∧ output = {}) ∨
    (∃ appEn appEnTerm, next = .retry appEn appEnTerm ∧
      server.rf.leaderNum = server.rf.me ∧
      server' = { server with
        senders := server.senders.set k
          { sender with appEn := appEn, appEnTerm := appEnTerm, snapshot := none } } ∧
      output = { sends := [(sender.ind, .appendEntry appEn)] }) ∨
    next = .snapshot ∧
      server' = { server with
        senders := server.senders.set k
          { sender with snapshot := some server.rf.snapShotArgs } } ∧
      output = { sends := [(sender.ind, .installSnapShot server.rf.snapShotArgs)] } := by
  cases next with
  | done =>
      cases proceeds
      exact Or.inl ⟨server.rf.aeNotifyChan, rfl, rfl⟩
  | retry appEn appEnTerm =>
      simp only [proceed] at proceeds
      split_ifs at proceeds with other
      · cases proceeds
        obtain ⟨waiting, notified⟩ := Raft.notify_frame server.rf 2
        exact Or.inl ⟨waiting, by rw [notified], rfl⟩
      · cases proceeds
        exact Or.inr (Or.inl ⟨appEn, appEnTerm, rfl, not_not.1 other, rfl, rfl⟩)
  | snapshot =>
      cases proceeds
      exact Or.inr (Or.inr ⟨rfl, rfl, rfl⟩)

theorem voteReply_moves {peer : Fin n} {reply : RequestVoteReply}
    (next : server.voteReply peer reply = some (server', output)) :
    Moves i server (.voteReply peer reply) server' output := by
  unfold voteReply at next
  split at next
  · rename_i round phase
    split at next
    · cases next
    · rename_i first
      extract_lets round' at next
      split at next
      · rename_i wins
        cases next
        refine .victory phase first wins.1 ?_
        simpa [round', wins.1] using wins.2
      · split at next
        · rename_i later
          cases next
          exact .outdated phase later
        · cases next
          exact .counted phase first
  · cases next

theorem distribute_moves (next : server.distribute = some (server', output)) :
    Moves i server .distribute server' output := by
  unfold distribute at next
  split at next
  · rename_i phase
    cases next
    exact .distributed phase
  · rename_i phase
    split at next
    · cases next
    · rename_i appEn entry
      split at next
      · rename_i behind
        cases next
        exact .snapshot phase entry behind
      · exact .distribute phase entry next
  · cases next

theorem entryLost_moves {k : Nat} (next : server.entryLost k = some (server', output)) :
    Moves i server (.entryLost k) server' output := by
  unfold entryLost at next
  split at next
  · cases next
  · rename_i sender found
    split at next
    · cases next
    split at next
    · cases next
      exact .entryGivenUp
    split at next
    · cases next
      obtain ⟨waiting, notified⟩ := Raft.notify_frame server.rf 2
      rw [notified]
      exact .entryGivenUp
    · cases next
      exact .entryAgain found

theorem step_moves (next : server.step i input = some (server', output)) :
    Moves i server input server' output := by
  cases input with
  | request request =>
      cases request with
      | requestVote args =>
          obtain ⟨_, handled, equal⟩ := Option.map_eq_some_iff.1 next
          cases equal
          exact .requestVote handled
      | appendEntry args =>
          obtain ⟨_, handled, equal⟩ := Option.map_eq_some_iff.1 next
          cases equal
          exact .appendEntry handled
      | installSnapShot args =>
          obtain ⟨_, handled, equal⟩ := Option.map_eq_some_iff.1 next
          cases equal
          exact .installSnapShot handled
  | startRound =>
      simp only [step, startRound] at next
      split at next
      · rename_i last phase found
        have request : server.rf.voteRequest =
            { term := server.rf.currentTerm, candidateID := server.rf.me
              lastLogIndex := server.rf.getLastLogIndex, lastLogTerm := last.term } := by
          simp [Raft.voteRequest, Raft.lastTerm, found]
        rw [← request] at next
        cases next
        exact .startRound phase (by rintro empty; simp [empty] at found)
      · cases next
  | voteReply peer reply => exact voteReply_moves next
  | roundTimeout =>
      simp only [step, roundTimeout] at next
      split at next
      · cases next
        exact .roundTimeout ‹_›
      · cases next
  | roundNotified =>
      simp only [step, roundNotified] at next
      split at next
      · split at next
        · cases next
        · cases next
          exact .roundNotified ‹_›
      · cases next
  | roundOver =>
      simp only [step, roundOver] at next
      split at next
      · rename_i phase
        split at next
        · rename_i leads
          obtain ⟨_, started, equal⟩ := Option.map_eq_some_iff.1 next
          cases equal
          exact .lead phase leads started
        · rename_i other
          cases next
          exact .follow phase other
      · cases next
  | heartbeat =>
      simp only [step, heartbeat] at next
      split at next
      · cases next
        exact .heartbeat ‹_›
      · cases next
  | distribute => exact distribute_moves next
  | snapShotReply reply =>
      simp only [step, snapShotReply] at next
      split at next
      · exact .snapShotReply ‹_› next
      · cases next
  | termTimeout =>
      simp only [step, termTimeout] at next
      split at next
      · cases next
        exact .termTimeout ‹_›
      · cases next
  | leaderNotified =>
      simp only [step, leaderNotified] at next
      split at next
      · split at next
        · cases next
        · split at next
          · rename_i other
            cases next
            exact .deposed ‹_› other
          · cases next
            exact .leaderNotified ‹_›
      · cases next
  | followerTimeout =>
      simp only [step, followerTimeout] at next
      split at next
      · cases next
        exact .followerTimeout ‹_›
      · cases next
  | followerNotified =>
      simp only [step, followerNotified] at next
      split at next
      · split at next
        · cases next
        · cases next
          exact .followerNotified ‹_›
      · cases next
  | entryReply k reply =>
      simp only [step, entryReply] at next
      split at next
      · cases next
      · rename_i sender found
        split at next
        · cases next
        · rename_i waits
          obtain ⟨_, handled, equal⟩ := Option.map_eq_some_iff.1 next
          exact .entryReply found (by simpa using waits) handled equal
  | entryLost k => exact entryLost_moves next
  | retrySnapShotReply k reply =>
      simp only [step, retrySnapShotReply] at next
      split at next
      · cases next
      · rename_i sender found
        split at next
        · cases next
        · rename_i args waits
          obtain ⟨_, handled, equal⟩ := Option.map_eq_some_iff.1 next
          exact .retrySnapShotReply found waits handled equal
  | startCheck command =>
      simp only [step, startCheck] at next
      split at next
      · cases next
        exact .notLeader ‹_›
      · cases next
        exact .startCheck ‹_›
  | startAppend k =>
      simp only [step, startAppend] at next
      split at next
      · cases next
      · rename_i found
        obtain ⟨_, appended, equal⟩ := Option.map_eq_some_iff.1 next
        cases equal
        exact .startAppend found appended
  | takeSnapshots state index =>
      simp only [step, takeSnapshots] at next
      split at next
      · cases next
      · rename_i delivered
        obtain ⟨_, taken, equal⟩ := Option.map_eq_some_iff.1 next
        cases equal
        exact .takeSnapshots (not_lt.1 delivered) taken
  | restart =>
      cases next
      exact .restart

theorem spawn_phase {cache : TermCache} {logLen : Int} {ind : Fin n} {appEn : AppendEntryArgs α}
    (spawned : server.spawn cache logLen ind appEn = some (server', output)) :
    server'.phase = server.phase ∧ output.won = none := by
  rcases spawn_cases spawned with ⟨_, rfl, rfl⟩ | ⟨_, _, _, rfl, rfl⟩
  · exact ⟨rfl, rfl⟩
  · exact ⟨rfl, rfl⟩

theorem proceed_phase {k : Nat} {sender : Sender n α σ} {next : Next α}
    (proceeds : server.proceed k sender next = (server', output)) :
    server'.phase = server.phase ∧ output.won = none := by
  rcases proceed_cases proceeds with
    ⟨_, rfl, rfl⟩ | ⟨_, _, _, _, rfl, rfl⟩ | ⟨_, rfl, rfl⟩
  · exact ⟨rfl, rfl⟩
  · exact ⟨rfl, rfl⟩
  · exact ⟨rfl, rfl⟩

theorem spawn_rf {cache : TermCache} {logLen : Int} {ind : Fin n} {appEn : AppendEntryArgs α}
    (spawned : server.spawn cache logLen ind appEn = some (server', output)) :
    ∃ waiting, server'.rf = { server.rf with aeNotifyChan := waiting } := by
  rcases spawn_cases spawned with ⟨waiting, rfl, rfl⟩ | ⟨_, _, _, rfl, rfl⟩
  · exact ⟨waiting, rfl⟩
  · exact ⟨server.rf.aeNotifyChan, rfl⟩

theorem proceed_rf {k : Nat} {sender : Sender n α σ} {next : Next α}
    (proceeds : server.proceed k sender next = (server', output)) :
    ∃ waiting, server'.rf = { server.rf with aeNotifyChan := waiting } := by
  rcases proceed_cases proceeds with
    ⟨waiting, rfl, rfl⟩ | ⟨_, _, _, _, rfl, rfl⟩ | ⟨_, rfl, rfl⟩
  · exact ⟨waiting, rfl⟩
  · exact ⟨server.rf.aeNotifyChan, rfl⟩
  · exact ⟨server.rf.aeNotifyChan, rfl⟩

/-- How a server can be in a round. -/
theorem Moves.candidate (moves : Moves i server input server' output) {round : Round n}
    (phase' : server'.phase = .candidate round) :
    server.phase = .candidate round ∨
    input = .startRound ∧ round = ⟨server.rf.voteRequest, 1, []⟩ ∧ server'.rf.leaderNum = -1 ∨
    ∃ round₀ peer reply, input = .voteReply peer reply ∧ server.phase = .candidate round₀ ∧
      peer ∉ round₀.answered ∧ round = round₀.count peer reply := by
  cases moves with
  | requestVote _ | appendEntry _ | installSnapShot _ | followerNotified _ | entryGivenUp
  | entryAgain _ | notLeader _ | startCheck _ | startAppend _ _ | takeSnapshots _ _ =>
      exact Or.inl phase'
  | startRound _ _ =>
      cases phase'
      exact Or.inr (Or.inl ⟨rfl, rfl, rfl⟩)
  | counted phase first =>
      cases phase'
      exact Or.inr (Or.inr ⟨_, _, _, rfl, phase, first, rfl⟩)
  | victory _ _ _ _ | outdated _ _ | roundTimeout _ | roundNotified _ | lead _ _ _ | follow _ _
  | heartbeat _ | distributed _ | snapshot _ _ _ | termTimeout _ | deposed _ _
  | leaderNotified _ | followerTimeout _ | restart =>
      cases phase'
  | distribute _ _ spawned | snapShotReply _ spawned =>
      rw [(spawn_phase spawned).1] at phase'
      cases phase'
  | entryReply _ _ _ proceeds | retrySnapShotReply _ _ _ proceeds =>
      exact Or.inl ((proceed_phase proceeds).1 ▸ phase')

/-- A round is won by counting the vote that makes the majority. -/
theorem Moves.won (moves : Moves i server input server' output) {round : Round n}
    (won : output.won = some round) :
    ∃ round₀ peer reply, input = .voteReply peer reply ∧ server.phase = .candidate round₀ ∧
      peer ∉ round₀.answered ∧ reply.voteGranted = true ∧ majority n ≤ round₀.granted + 1 ∧
      round = round₀.count peer reply := by
  cases moves with
  | victory phase first granted enough =>
      cases won
      exact ⟨_, _, _, rfl, phase, first, granted, enough, rfl⟩
  | distribute _ _ spawned | snapShotReply _ spawned =>
      rw [(spawn_phase spawned).2] at won
      cases won
  | entryReply _ _ _ proceeds | retrySnapShotReply _ _ _ proceeds =>
      rw [(proceed_phase proceeds).2] at won
      cases won
  | _ => cases won

end Server

/-! ## What a step does to the log -/

/-- The log, its base, the commit index and the channel are as before; if something was saved,
it was this log. -/
structure Raft.SameLog (rf rf' : Raft α σ) : Prop where
  base : rf'.lastIndexInSnapshot = rf.lastIndexInSnapshot
  lastTerm : rf'.lastTermInSnapshot = rf.lastTermInSnapshot
  log : rf'.log = rf.log
  commit : rf'.commitIndex = rf.commitIndex
  channel : rf'.applyCh = rf.applyCh
  snapshot : rf'.persister.snapshot = rf.persister.snapshot
  raftstate : rf'.persister.raftstate = rf.persister.raftstate ∨
    ∃ term, rf'.persister.raftstate = some (term, rf.log)

namespace Raft

variable {rf rf' : Raft α σ}

theorem SameLog.of_eq (rf : Raft α σ) : rf.SameLog rf :=
  ⟨rfl, rfl, rfl, rfl, rfl, rfl, Or.inl rfl⟩

theorem SameLog.notified (same : rf.SameLog rf') (waiting : Nat) :
    rf.SameLog { rf' with aeNotifyChan := waiting } :=
  ⟨same.base, same.lastTerm, same.log, same.commit, same.channel, same.snapshot, same.raftstate⟩

theorem sameLog_requestVote {args : RequestVoteArgs} {reply : RequestVoteReply}
    (handled : rf.requestVote args = some (rf', reply)) : rf.SameLog rf' := by
  rcases requestVote_cases handled with
    ⟨rfl, _⟩ | ⟨_, _, rfl, _⟩ | ⟨_, _, _, _, rfl⟩ | ⟨_, _, _, _, _, rfl⟩
  · exact .of_eq _
  · exact ⟨rfl, rfl, rfl, rfl, rfl, rfl, Or.inr ⟨_, rfl⟩⟩
  · exact ⟨rfl, rfl, rfl, rfl, rfl, rfl, Or.inr ⟨_, rfl⟩⟩
  · exact (SameLog.of_eq rf).notified _

theorem sameLog_snapShotReply (rf : Raft α σ) (ind : Nat) (args : InstallSnapShotArgs σ)
    (reply : InstallSnapShotReply) : rf.SameLog (rf.snapShotReply ind args reply) := by
  rcases rf.snapShotReply_cases ind args reply with ⟨_, frame⟩ | ⟨_, _, _, frame⟩
  · rw [frame]
    exact ⟨rfl, rfl, rfl, rfl, rfl, rfl, Or.inl rfl⟩
  · rw [frame]
    exact ⟨rfl, rfl, rfl, rfl, rfl, rfl, Or.inl rfl⟩

end Raft

namespace Server

variable {i : Fin n} {server server' : Server n α σ} {input : Input n α σ}
  {output : Output n α σ}

/-- The steps that touch the log, the snapshot, the commit index or the channel. -/
inductive LogMoves (i : Fin n) (server : Server n α σ) : Input n α σ → Raft α σ → Prop where
  | same {input : Input n α σ} {rf : Raft α σ} (same : server.rf.SameLog rf) :
      LogMoves i server input rf
  | appendEntry {args : AppendEntryArgs α} {rf : Raft α σ} {reply : AppendEntryReply}
      (handled : server.rf.appendEntry args = some (rf, reply)) :
      LogMoves i server (.request (.appendEntry args)) rf
  | installSnapShot {args : InstallSnapShotArgs σ} {blob : Snapshot σ}
      (installs : server.rf.installs args = true) (data : args.data = some blob)
      (above : server.rf.lastIndexInSnapshot < blob.lastIndex) :
      LogMoves i server (.request (.installSnapShot args))
        { server.rf with
          lastTermInSnapshot := blob.lastTerm
          log := [⟨none, blob.lastTerm⟩]
          lastIndexInSnapshot := blob.lastIndex
          commitIndex := blob.lastIndex
          applyCh := server.rf.applyCh ++ [⟨false, none, 0, some blob.state⟩]
          persister := ⟨server.rf.persister.raftstate, some blob⟩ }
  | entryReply {k waiting : Nat} {reply : AppendEntryReply} {sender : Sender n α σ}
      {rf : Raft α σ} {next : Next α}
      (handled : server.rf.onReply sender reply = some (rf, next)) :
      LogMoves i server (.entryReply k reply) { rf with aeNotifyChan := waiting }
  | startAppend {k : Nat} {command : α} {curTerm index : Int} {rf : Raft α σ}
      (appended : server.rf.startAppend command curTerm = some (rf, index)) :
      LogMoves i server (.startAppend k) rf
  | takeSnapshots {state : σ} {index : Int} {rf : Raft α σ}
      (delivered : index ≤ server.rf.commitIndex)
      (taken : server.rf.takeSnapshots state index = some rf) :
      LogMoves i server (.takeSnapshots state index) rf
  | restart :
      LogMoves i server .restart (.make n i server.rf.persister server.rf.applyCh)

theorem Moves.log (moves : Moves i server input server' output) :
    LogMoves i server input server'.rf := by
  cases moves with
  | requestVote handled => exact .same (Raft.sameLog_requestVote handled)
  | appendEntry handled => exact .appendEntry handled
  | installSnapShot handled =>
      rcases Raft.installSnapShot_cases handled with
        ⟨rfl, _⟩ | ⟨rfl, _⟩ | ⟨rfl, _⟩ | ⟨installs, _, _, above, _, blob, data, label, rfl⟩
      · exact .same (.of_eq _)
      · exact .same (.of_eq _)
      · exact .same (.of_eq _)
      · exact .installSnapShot installs data (above.trans_le label)
  | outdated _ _ | roundTimeout _ | termTimeout _ | followerTimeout _ =>
      exact .same ⟨rfl, rfl, rfl, rfl, rfl, rfl, Or.inr ⟨_, rfl⟩⟩
  | lead _ _ started =>
      rw [Raft.startLeader_frame started]
      exact .same ⟨rfl, rfl, rfl, rfl, rfl, rfl, Or.inl rfl⟩
  | distribute _ _ spawned =>
      obtain ⟨waiting, frame⟩ := spawn_rf spawned
      rw [frame]
      exact .same ((Raft.SameLog.of_eq _).notified waiting)
  | snapShotReply _ spawned =>
      obtain ⟨waiting, frame⟩ := spawn_rf spawned
      rw [frame]
      exact .same ((Raft.sameLog_snapShotReply _ _ _ _).notified waiting)
  | entryReply _ _ handled proceeds =>
      obtain ⟨waiting, frame⟩ := proceed_rf proceeds
      rw [frame]
      exact .entryReply handled
  | retrySnapShotReply _ _ _ proceeds =>
      obtain ⟨waiting, frame⟩ := proceed_rf proceeds
      rw [frame]
      exact .same ((Raft.sameLog_snapShotReply _ _ _ _).notified waiting)
  | startAppend _ appended => exact .startAppend appended
  | takeSnapshots delivered taken => exact .takeSnapshots delivered taken
  | restart => exact .restart
  | _ => exact .same ⟨rfl, rfl, rfl, rfl, rfl, rfl, Or.inl rfl⟩

end Server

end Mit6824
