import Mathlib.Algebra.GroupWithZero.Nat
import Mathlib.Data.List.FinRange
import Mit6824.Raft.Leader

/-!
# A server as a state machine

`mainProcess` takes a peer through the roles: a round of `CandidateProcess`,
then `LeaderProcess` or `Follower`, then the next round. A `Server` is the peer
with the place its `mainProcess` is at, the goroutines of its leaderships that
still wait for a reply, and the calls of `Start` between their two critical
sections. `Server.step` is one step of any of these.

What the step sends is in its `Output`. A call that is given up is an input of
its own: a goroutine tries its message again, and `sendSnapShot` goes on with a
reply that is the zero value.
-/

namespace Mit6824

/-- A round of `CandidateProcess`: the request it sent, the votes counted (its own included) and
the peers whose reply was taken from `RVchan`. -/
structure Round (n : Nat) where
  args : RequestVoteArgs
  granted : Nat
  answered : List (Fin n)
  deriving DecidableEq, Repr

/-- Where `mainProcess` is. -/
inductive Phase (n : Nat) (α σ : Type) where
  /-- About to call `CandidateProcess`. -/
  | startRound
  /-- In the loop of `CandidateProcess`. -/
  | candidate (round : Round n)
  /-- `CandidateProcess` has returned `false`; the roles are compared next. -/
  | roundOver
  /-- In the `select` of `LeaderProcess`. -/
  | leader (cache : TermCache)
  /-- `LeaderProcess` sends to the followers that are left. -/
  | distributing (cache : TermCache) (logLen : Int) (todo : List (Fin n))
  /-- `LeaderProcess` waits for the snapshot it sends before the message. -/
  | snapshotting (cache : TermCache) (logLen : Int) (todo : List (Fin n)) (ind : Fin n)
      (appEn : AppendEntryArgs α) (args : InstallSnapShotArgs σ)
  /-- In the `select` of `Follower`. -/
  | follower
  deriving DecidableEq, Repr

/-- The server runs `LeaderProcess`. -/
def Phase.isLeader {n : Nat} {α σ : Type} : Phase n α σ → Bool
  | .leader _ | .distributing _ _ _ | .snapshotting _ _ _ _ _ _ => true
  | _ => false

structure Server (n : Nat) (α σ : Type) where
  rf : Raft α σ
  phase : Phase n α σ
  senders : List (Sender n α σ)
  starts : List (α × Int)
  deriving DecidableEq, Repr

inductive Request (α σ : Type) where
  | requestVote (args : RequestVoteArgs)
  | appendEntry (args : AppendEntryArgs α)
  | installSnapShot (args : InstallSnapShotArgs σ)
  deriving DecidableEq, Repr

inductive Reply where
  | requestVote (reply : RequestVoteReply)
  | appendEntry (reply : AppendEntryReply)
  | installSnapShot (reply : InstallSnapShotReply)
  deriving DecidableEq, Repr

/-- What can happen at a server. A `sender` or `start` is named by its position. -/
inductive Input (n : Nat) (α σ : Type) where
  | request (request : Request α σ)
  | startRound
  | voteReply (peer : Fin n) (reply : RequestVoteReply)
  | roundTimeout
  | roundNotified
  | roundOver
  | heartbeat
  | distribute
  | snapShotReply (reply : InstallSnapShotReply)
  | termTimeout
  | leaderNotified
  | followerTimeout
  | followerNotified
  | entryReply (sender : Nat) (reply : AppendEntryReply)
  | entryLost (sender : Nat)
  | retrySnapShotReply (sender : Nat) (reply : InstallSnapShotReply)
  | startCheck (command : α)
  | startAppend (start : Nat)
  | takeSnapshots (state : σ) (index : Int)
  | restart
  deriving DecidableEq, Repr

/-- What a step lets the outside see: requests to peers, the reply of a handler, and the round
that made this server leader. -/
structure Output (n : Nat) (α σ : Type) where
  sends : List (Fin n × Request α σ) := []
  reply : Option Reply := none
  won : Option (Round n) := none

/-- The `float32` next to `x`, the even one of two: it has 24 significant bits. -/
def float32 (x : Nat) : Nat :=
  let unit := 2 ^ (x.log2 + 1 - 24)
  let quotient := x / unit
  let remainder := x % unit
  if unit < 2 * remainder ∨ unit = 2 * remainder ∧ quotient % 2 = 1 then (quotient + 1) * unit
  else quotient * unit

/-- The number of votes `mainProcess` asks for: `int(float32(peersNum)/2 + 0.5)`. The half is exact,
and the sum is rounded as its double is. -/
def majority (n : Nat) : Nat := float32 (float32 n + 1) / 2

theorem float32_of_lt {x : Nat} (small : x < 2 ^ 24) : float32 x = x := by
  have exact : x.log2 + 1 - 24 = 0 := by
    by_cases zero : x = 0
    · rw [zero]
      rfl
    · have := (Nat.log2_lt zero).2 small
      omega
  simp [float32, exact, Nat.mod_one]

/-- For clusters of a size that a `float32` can tell from the next one. -/
theorem majority_eq {n : Nat} (small : n + 1 < 2 ^ 24) : majority n = (n + 1) / 2 := by
  rw [majority, float32_of_lt (show n < 2 ^ 24 by omega), float32_of_lt small]

/-- The peers a server sends to. -/
def others {n : Nat} (i : Fin n) : List (Fin n) := (List.finRange n).filter (· ≠ i)

namespace Server

variable {n : Nat} {α σ : Type}

/-- A server right after `Make`. -/
def boot (i : Fin n) (persister : Persister α σ) (applyCh : List (ApplyMsg α σ)) :
    Server n α σ :=
  { rf := Raft.make n i persister applyCh, phase := .startRound, senders := [], starts := [] }

/-- An RPC handler. -/
def handle (server : Server n α σ) : Request α σ → Option (Server n α σ × Output n α σ)
  | .requestVote args =>
      (server.rf.requestVote args).map fun (rf, reply) =>
        ({ server with rf := rf }, { reply := some (.requestVote reply) })
  | .appendEntry args =>
      (server.rf.appendEntry args).map fun (rf, reply) =>
        ({ server with rf := rf }, { reply := some (.appendEntry reply) })
  | .installSnapShot args =>
      (server.rf.installSnapShot args).map fun (rf, reply) =>
        ({ server with rf := rf }, { reply := some (.installSnapShot reply) })

/-! ## CandidateProcess -/

/-- The start of a round. The term is the one `currentTerm` has at this moment. -/
def startRound (i : Fin n) (server : Server n α σ) :
    Option (Server n α σ × Output n α σ) :=
  match server.phase, server.rf.log.getLast? with
  | .startRound, some last =>
      let args : RequestVoteArgs :=
        { term := server.rf.currentTerm, candidateID := server.rf.me
          lastLogIndex := server.rf.getLastLogIndex, lastLogTerm := last.term }
      some
        ({ server with
            rf := { server.rf with votedFor := server.rf.me, leaderNum := -1 }
            phase := .candidate ⟨args, 1, []⟩ },
          { sends := (others i).map fun peer => (peer, .requestVote args) })
  | _, _ => none

/-- A reply taken from `RVchan`; each peer sends one at most. -/
def voteReply (server : Server n α σ) (peer : Fin n) (reply : RequestVoteReply) :
    Option (Server n α σ × Output n α σ) :=
  match server.phase with
  | .candidate round =>
      if peer ∈ round.answered then none
      else
        let round' : Round n :=
          { round with
            granted := if reply.voteGranted then round.granted + 1 else round.granted
            answered := peer :: round.answered }
        if reply.voteGranted ∧ majority n ≤ round'.granted then
          some
            ({ server with
                rf := { server.rf with leaderNum := server.rf.me }, phase := .roundOver },
              { won := some round' })
        else if server.rf.currentTerm < reply.term then
          some
            ({ server with
                rf := { server.rf with currentTerm := reply.term }.persist
                phase := .roundOver }, {})
        else some ({ server with phase := .candidate round' }, {})
  | _ => none

def roundTimeout (server : Server n α σ) : Option (Server n α σ × Output n α σ) :=
  match server.phase with
  | .candidate _ =>
      some
        ({ server with
            rf := { server.rf with currentTerm := server.rf.currentTerm + 1 }.persist
            phase := .startRound }, {})
  | _ => none

def roundNotified (server : Server n α σ) : Option (Server n α σ × Output n α σ) :=
  match server.phase with
  | .candidate _ =>
      if server.rf.aeNotifyChan = 0 then none
      else
        some ({ server with rf := { server.rf with aeNotifyChan := 0 }, phase := .roundOver }, {})
  | _ => none

/-- `mainProcess` after a round that did not time out. -/
def roundOver (server : Server n α σ) : Option (Server n α σ × Output n α σ) :=
  match server.phase with
  | .roundOver =>
      if server.rf.me = server.rf.leaderNum then
        server.rf.startLeader.map fun (rf, cache) =>
          ({ server with rf := rf, phase := .leader cache }, {})
      else some ({ server with phase := .follower }, {})
  | _ => none

/-! ## LeaderProcess -/

/-- The case of `AEDistributedChan`: every other peer is to be served. -/
def heartbeat (i : Fin n) (server : Server n α σ) : Option (Server n α σ × Output n α σ) :=
  match server.phase with
  | .leader cache =>
      some
        ({ server with
            phase := .distributing cache (server.rf.getLastLogIndex + 1) (others i) }, {})
  | _ => none

/-- Fill in the message for `ind` and hand it to a goroutine, which first looks whether this
server is still the leader. -/
def spawn (server : Server n α σ) (cache : TermCache) (logLen : Int) (ind : Fin n)
    (appEn : AppendEntryArgs α) : Option (Server n α σ × Output n α σ) :=
  match server.rf.fillEntry ind logLen appEn with
  | none => none
  | some none => some (server, {})
  | some (some appEn') =>
      if server.rf.leaderNum ≠ server.rf.me then
        some ({ server with rf := server.rf.notify 2 }, {})
      else
        some
          ({ server with
              senders := server.senders ++
                [⟨ind, appEn.prevLogIndex, appEn.term, appEn', cache, none, 0⟩] },
            { sends := [(ind, .appendEntry appEn')] })

/-- Serve the next follower. -/
def distribute (server : Server n α σ) : Option (Server n α σ × Output n α σ) :=
  match server.phase with
  | .distributing cache _ [] => some ({ server with phase := .leader cache }, {})
  | .distributing cache logLen (ind :: todo) =>
      match server.rf.newEntry ind with
      | none => none
      | some appEn =>
          if appEn.prevLogIndex + 1 ≤ server.rf.lastIndexInSnapshot then
            some
              ({ server with
                  phase := .snapshotting cache logLen todo ind appEn server.rf.snapShotArgs },
                { sends := [(ind, .installSnapShot server.rf.snapShotArgs)] })
          else
            { server with phase := .distributing cache logLen todo }.spawn cache logLen ind appEn
  | _ => none

/-- The snapshot was answered, or given up with `lostReply`; the message follows. -/
def snapShotReply (server : Server n α σ) (reply : InstallSnapShotReply) :
    Option (Server n α σ × Output n α σ) :=
  match server.phase with
  | .snapshotting cache logLen todo ind appEn args =>
      { server with
        rf := server.rf.snapShotReply ind args reply
        phase := .distributing cache logLen todo }.spawn cache logLen ind appEn
  | _ => none

/-- The term timer: the leader gives way to an election in the next term. -/
def termTimeout (server : Server n α σ) : Option (Server n α σ × Output n α σ) :=
  match server.phase with
  | .leader _ =>
      some
        ({ server with
            rf := { server.rf with currentTerm := server.rf.currentTerm + 1 }.persist
            phase := .startRound }, {})
  | _ => none

def leaderNotified (server : Server n α σ) : Option (Server n α σ × Output n α σ) :=
  match server.phase with
  | .leader cache =>
      if server.rf.aeNotifyChan = 0 then none
      else
        let rf := { server.rf with aeNotifyChan := min (server.rf.aeNotifyChan - 1) 2 }
        if rf.me ≠ rf.leaderNum then some ({ server with rf := rf, phase := .follower }, {})
        else some ({ server with rf := rf, phase := .leader cache }, {})
  | _ => none

/-- What a goroutine does after `onReply` or `afterSnapShot`; before it sends again it looks
whether this server is still the leader. -/
def proceed (server : Server n α σ) (k : Nat) (sender : Sender n α σ) :
    Next α → Server n α σ × Output n α σ
  | .done => ({ server with senders := server.senders.eraseIdx k }, {})
  | .retry appEn appEnTerm =>
      if server.rf.leaderNum ≠ server.rf.me then
        ({ server with rf := server.rf.notify 2, senders := server.senders.eraseIdx k }, {})
      else
        ({ server with
            senders := server.senders.set k
              { sender with appEn := appEn, appEnTerm := appEnTerm, snapshot := none } },
          { sends := [(sender.ind, .appendEntry appEn)] })
  | .snapshot =>
      ({ server with
          senders := server.senders.set k
            { sender with snapshot := some server.rf.snapShotArgs } },
        { sends := [(sender.ind, .installSnapShot server.rf.snapShotArgs)] })

def entryReply (server : Server n α σ) (k : Nat) (reply : AppendEntryReply) :
    Option (Server n α σ × Output n α σ) :=
  match server.senders[k]? with
  | none => none
  | some sender =>
      if sender.snapshot.isSome then none
      else
        (server.rf.onReply sender reply).map fun (rf, next) =>
          { server with rf := rf }.proceed k sender next

/-- The call failed. The message is tried again as long as this server is the leader, eight
times at most; it is in the network already, which may deliver it any number of times. -/
def entryLost (server : Server n α σ) (k : Nat) : Option (Server n α σ × Output n α σ) :=
  match server.senders[k]? with
  | none => none
  | some sender =>
      if sender.snapshot.isSome then none
      else if 8 ≤ sender.count + 1 then
        some ({ server with senders := server.senders.eraseIdx k }, {})
      else if server.rf.leaderNum ≠ server.rf.me then
        some
          ({ server with rf := server.rf.notify 2, senders := server.senders.eraseIdx k }, {})
      else
        some
          ({ server with
              senders := server.senders.set k { sender with count := sender.count + 1 } }, {})

def retrySnapShotReply (server : Server n α σ) (k : Nat) (reply : InstallSnapShotReply) :
    Option (Server n α σ × Output n α σ) :=
  match server.senders[k]? with
  | none => none
  | some sender =>
      match sender.snapshot with
      | none => none
      | some args =>
          let rf := server.rf.snapShotReply sender.ind args reply
          (rf.afterSnapShot sender).map fun next =>
            { server with rf := rf }.proceed k sender next

/-! ## Follower -/

def followerTimeout (server : Server n α σ) : Option (Server n α σ × Output n α σ) :=
  match server.phase with
  | .follower =>
      some
        ({ server with
            rf :=
              { server.rf with
                currentTerm := server.rf.currentTerm + 1, leaderNum := -1 }.persist
            phase := .startRound }, {})
  | _ => none

def followerNotified (server : Server n α σ) : Option (Server n α σ × Output n α σ) :=
  match server.phase with
  | .follower =>
      if server.rf.aeNotifyChan = 0 then none
      else
        some
          ({ server with
              rf := { server.rf with aeNotifyChan := min (server.rf.aeNotifyChan - 1) 1 } }, {})
  | _ => none

/-! ## The service -/

def startCheck (server : Server n α σ) (command : α) :
    Option (Server n α σ × Output n α σ) :=
  match server.rf.startCheck with
  | none => some (server, {})
  | some curTerm => some ({ server with starts := server.starts ++ [(command, curTerm)] }, {})

def startAppend (server : Server n α σ) (k : Nat) : Option (Server n α σ × Output n α σ) :=
  match server.starts[k]? with
  | none => none
  | some (command, curTerm) =>
      (server.rf.startAppend command curTerm).map fun (rf, _) =>
        ({ server with rf := rf, starts := server.starts.eraseIdx k }, {})

/-- The service snapshots at an index that has been delivered to it. -/
def takeSnapshots (server : Server n α σ) (state : σ) (index : Int) :
    Option (Server n α σ × Output n α σ) :=
  if server.rf.commitIndex < index then none
  else
    (server.rf.takeSnapshots state index).map fun rf => ({ server with rf := rf }, {})

/-- One step of the server with number `i`. -/
def step (i : Fin n) (server : Server n α σ) :
    Input n α σ → Option (Server n α σ × Output n α σ)
  | .request request => server.handle request
  | .startRound => server.startRound i
  | .voteReply peer reply => server.voteReply peer reply
  | .roundTimeout => server.roundTimeout
  | .roundNotified => server.roundNotified
  | .roundOver => server.roundOver
  | .heartbeat => server.heartbeat i
  | .distribute => server.distribute
  | .snapShotReply reply => server.snapShotReply reply
  | .termTimeout => server.termTimeout
  | .leaderNotified => server.leaderNotified
  | .followerTimeout => server.followerTimeout
  | .followerNotified => server.followerNotified
  | .entryReply k reply => server.entryReply k reply
  | .entryLost k => server.entryLost k
  | .retrySnapShotReply k reply => server.retrySnapShotReply k reply
  | .startCheck command => server.startCheck command
  | .startAppend k => server.startAppend k
  | .takeSnapshots state index => server.takeSnapshots state index
  | .restart => some (boot i server.rf.persister server.rf.applyCh, {})

end Server

end Mit6824
