import Mit6824.Raft.State

/-!
# The RPC handlers and the calls of the service

`RequestVote`, `AppendEntry` and `InstallSnapShot` as a peer runs them on one
request, and `Start` and `TakeSnapshots` as the service calls them. A handler
returns the peer and the reply, or `none` where the Go code panics; a panic ends
the process, and with it the run.

A handler is one step. `Start` is two, as in the source: the leadership check
and the append are separate critical sections with a channel send between them.
-/

namespace Mit6824

structure RequestVoteArgs where
  term : Int
  candidateID : Int
  lastLogIndex : Int
  lastLogTerm : Int
  deriving DecidableEq, Repr

structure RequestVoteReply where
  term : Int
  voteGranted : Bool
  deriving DecidableEq, Repr

/-- An `AppendEntry` request; `nil` entries are the empty list. -/
structure AppendEntryArgs (α : Type) where
  term : Int
  leaderID : Int
  prevLogIndex : Int
  prevLogTerm : Int
  entries : List (CommandTerm α)
  leaderCommit : Int
  deriving DecidableEq, Repr

structure AppendEntryReply where
  me : Int
  term : Int
  success : Bool := false
  lastLogIndex : Int := 0
  commitIndex : Int := 0
  termOfArgsPreLogIndex : Int := 0
  deriving DecidableEq, Repr

structure InstallSnapShotArgs (σ : Type) where
  term : Int
  leaderId : Int
  lastIncludedIndex : Int
  lastIncludedTerm : Int
  data : Option (Snapshot σ)
  deriving DecidableEq, Repr

structure InstallSnapShotReply where
  success : Bool
  term : Int
  errCode : Int := 0
  value : Int := 0
  deriving DecidableEq, Repr

namespace Raft

variable {α σ : Type}

/-! ## RequestVote -/

/-- The end of `RequestVote` once the vote is given. The reply carries the term the handler
read when it started. -/
def grantVote (rf : Raft α σ) (term : Int) : Raft α σ × RequestVoteReply :=
  (rf.notify 2, ⟨term, true⟩)

def requestVote (rf : Raft α σ) (args : RequestVoteArgs) :
    Option (Raft α σ × RequestVoteReply) :=
  if args.term < rf.currentTerm ∨ (rf.currentTerm = args.term ∧ rf.votedFor ≠ rf.me) then
    some (rf, ⟨rf.currentTerm, false⟩)
  else if rf.currentTerm = args.term ∧ args.lastLogTerm ≤ rf.lastTerm then
    some (rf, ⟨rf.currentTerm, false⟩)
  else if rf.currentTerm < args.term then
    -- The term is taken over and saved before the logs are compared.
    let rf' := { rf with currentTerm := args.term }.persist
    match rf'.log.getLast? with
    | none => none
    | some last =>
        if args.lastLogTerm < last.term then some (rf', ⟨rf.currentTerm, false⟩)
        else if args.lastLogTerm = last.term ∧ args.lastLogIndex < rf'.getLastLogIndex then
          some (rf', ⟨rf.currentTerm, false⟩)
        else some ({ rf' with leaderNum := args.candidateID }.grantVote rf.currentTerm)
  else some (rf.grantVote rf.currentTerm)

/-! ## AppendEntry -/

/-- A later term is taken over and saved; a leader also gives up its leadership. -/
def observeTerm (rf : Raft α σ) (args : AppendEntryArgs α) : Raft α σ :=
  if rf.currentTerm < args.term then
    if rf.leaderNum = rf.me then
      { rf with leaderNum := args.leaderID, currentTerm := args.term }.persist
    else { rf with currentTerm := args.term }.persist
  else rf

/-- The loop that looks for an earlier slot with a term below `prevLogTerm`. -/
def scanBack (log : List (CommandTerm α)) (prevLogTerm retTerm : Int) : Nat → Int
  | 0 => retTerm
  | i + 1 =>
      match log[i + 1]? with
      | some entry =>
          if entry.term < prevLogTerm then entry.term else scanBack log prevLogTerm retTerm i
      | none => scanBack log prevLogTerm retTerm i

/-- The hint returned when the slot at `PrevLogIndex` has the term `prevIndexTerm` and not the
one of the message. -/
def conflictTerm (rf : Raft α σ) (args : AppendEntryArgs α) (prevIndexTerm : Int) : Int :=
  if args.prevLogTerm < prevIndexTerm then
    scanBack rf.log args.prevLogTerm prevIndexTerm (rf.getTrueIndex args.prevLogIndex).toNat
  else prevIndexTerm

/-- Put the command at an absolute index on `applyCh`, unless it is there already. -/
def deliver (rf : Raft α σ) (index : Int) : Option (Raft α σ) :=
  match rf.slot (rf.getTrueIndex index) with
  | none => none
  | some entry =>
      if rf.commitIndex < index then
        some { rf with
          commitIndex := index
          applyCh := rf.applyCh ++ [⟨true, entry.command, index, none⟩] }
      else some rf

/-- Deliver the commands of `count` slots, the first of them the one after slot `i`. -/
def deliverSlots (rf : Raft α σ) (i : Int) : Nat → Option (Raft α σ)
  | 0 => some rf
  | count + 1 =>
      match rf.deliver (rf.getNameIndex (i + 1)) with
      | none => none
      | some rf' => rf'.deliverSlots (i + 1) count

@[simp]
theorem deliverSlots_zero (rf : Raft α σ) (i : Int) : rf.deliverSlots i 0 = some rf := rfl

-- The equation of the loop holds without looking into the delivery.
section
attribute [local irreducible] deliver

theorem deliverSlots_succ (rf : Raft α σ) (i : Int) (count : Nat) :
    rf.deliverSlots i (count + 1) =
      match rf.deliver (rf.getNameIndex (i + 1)) with
      | none => none
      | some rf' => rf'.deliverSlots (i + 1) count := rfl

end

/-- Follow the commit index of the leader as far as the message has checked the log. -/
def followCommit (rf : Raft α σ) (args : AppendEntryArgs α) : Option (Raft α σ) :=
  let preCommitIndex := if rf.commitIndex < args.leaderCommit then rf.commitIndex else 0
  let aftCommitIndex :=
    if rf.commitIndex < args.leaderCommit then
      if args.prevLogIndex < args.leaderCommit then args.prevLogIndex else args.leaderCommit
    else 0
  let pre := rf.getTrueIndex preCommitIndex
  let aft :=
    if rf.log.length ≤ rf.getTrueIndex aftCommitIndex then pre
    else rf.getTrueIndex aftCommitIndex
  -- `rf.log[pre:aft]` panics when `aft` is before `pre`.
  if aft < pre then none
  else (rf.deliverSlots pre (aft - pre).toNat).map persist

/-- Write the entries of a message from slot `startInd` on, and return the slot after the last
one written. -/
def overwrite (rf : Raft α σ) (startInd : Int) :
    List (CommandTerm α) → Option (Raft α σ × Int)
  | [] => some (rf, startInd)
  | entry :: rest =>
      if rf.getNameIndex startInd ≤ rf.commitIndex then some (rf, startInd)
      else if entry.command.isNone then none
      else
        let log :=
          if rf.log.length ≤ startInd then rf.log ++ [entry] else rf.log.set startInd.toNat entry
        { rf with log := log }.overwrite (startInd + 1) rest

/-- Drop the slots from `startInd` on if the last of them is of an earlier term than the one
before `startInd`; a single slot is left where it is. -/
def cutTail (rf : Raft α σ) (startInd : Int) : Raft α σ :=
  match rf.slot (startInd - 1), rf.log.getLast? with
  | some written, some last =>
      if startInd < rf.log.length - 1 ∧ last.term < written.term then
        { rf with log := rf.log.take startInd.toNat }
      else rf
  | _, _ => rf

/-- The part of `AppendEntry` that writes the entries. -/
def writeEntries (rf : Raft α σ) (args : AppendEntryArgs α) : Option (Raft α σ) :=
  let startInd := rf.getTrueIndex (args.prevLogIndex + 1)
  if 1 ≤ startInd ∧ startInd ≤ rf.log.length then
    match rf.overwrite startInd args.entries with
    | none => none
    | some (rf', startInd') => some (rf'.cutTail startInd').persist
  else some rf.persist

/-- `AppendEntry` behind the term test. -/
def checkAndAppend (rf : Raft α σ) (args : AppendEntryArgs α) (reply : AppendEntryReply) :
    Option (Raft α σ × AppendEntryReply) :=
  if rf.getLastLogIndex + 1 ≤ args.prevLogIndex then
    match rf.log.getLast? with
    | none => none
    | some last =>
        some (rf, { reply with
          lastLogIndex := rf.getLastLogIndex, termOfArgsPreLogIndex := last.term })
  else
    match rf.slot (rf.getTrueIndex args.prevLogIndex) with
    | none => none
    | some entry =>
        if entry.term ≠ args.prevLogTerm then
          some (rf, { reply with termOfArgsPreLogIndex := rf.conflictTerm args entry.term })
        else if args.prevLogIndex < rf.commitIndex then
          some (rf, { reply with commitIndex := rf.commitIndex, success := true })
        else
          match rf.followCommit args with
          | none => none
          | some rf' =>
              if args.entries = [] then some (rf', { reply with success := true })
              else (rf'.writeEntries args).map fun rf'' => (rf'', { reply with success := true })

def appendEntry (rf : Raft α σ) (args : AppendEntryArgs α) :
    Option (Raft α σ × AppendEntryReply) :=
  let reply : AppendEntryReply := { me := rf.me, term := rf.currentTerm }
  if args.term < rf.currentTerm then some (rf, reply)
  else ((rf.observeTerm args).notify 3).checkAndAppend args reply

/-! ## Snapshots -/

/-- Whether `InstallSnapShot` gets past its three early returns. -/
def installs (rf : Raft α σ) (args : InstallSnapShotArgs σ) : Bool :=
  !(args.term < rf.currentTerm) && !(args.lastIncludedIndex ≤ rf.lastIndexInSnapshot) &&
    !(args.lastIncludedIndex ≤ rf.getLastLogIndex &&
      (rf.slot (rf.getTrueIndex args.lastIncludedIndex)).map CommandTerm.term ==
        some args.lastIncludedTerm)

def installSnapShot (rf : Raft α σ) (args : InstallSnapShotArgs σ) :
    Option (Raft α σ × InstallSnapShotReply) :=
  let reply : InstallSnapShotReply := { success := true, term := rf.currentTerm }
  if args.term < rf.currentTerm then some (rf, { reply with success := false, errCode := 1 })
  else if args.lastIncludedIndex ≤ rf.lastIndexInSnapshot then
    some (rf, { reply with success := false, errCode := 2, value := rf.lastIndexInSnapshot })
  else
    let kept :=
      if args.lastIncludedIndex ≤ rf.getLastLogIndex then
        (rf.slot (rf.getTrueIndex args.lastIncludedIndex)).map fun entry =>
          decide (entry.term = args.lastIncludedTerm)
      else some false
    match kept with
    | none => none
    | some true => some (rf, { reply with success := false, errCode := 3 })
    | some false =>
        let rf' := rf.readSnapshotPersist args.data
        if rf'.lastIndexInSnapshot < args.lastIncludedIndex then none else some (rf', reply)

/-- Snapshot the state of the service as of `index`; the label is one below. The saved Raft
state is the new log, in one action with the snapshot. -/
def takeSnapshots (rf : Raft α σ) (state : σ) (index : Int) : Option (Raft α σ) :=
  let endIndex := index - 1
  if endIndex < 1 ∨ endIndex ≤ rf.lastIndexInSnapshot then some rf
  else
    match rf.slot (rf.getTrueIndex endIndex) with
    | none => none
    | some entry =>
        match rf.truncate endIndex rf.lastIndexInSnapshot entry.term with
        | none => none
        | some log =>
            some { rf with
              lastTermInSnapshot := entry.term
              lastIndexInSnapshot := endIndex
              log := log
              persister :=
                ⟨some (rf.currentTerm, log), some ⟨state, endIndex, entry.term⟩⟩ }

/-! ## Start -/

/-- The first critical section of `Start`: `none` is the answer of a peer that is not leader,
otherwise the term the command will carry. -/
def startCheck (rf : Raft α σ) : Option Int :=
  if rf.leaderNum ≠ rf.me then none else some rf.currentTerm

/-- The second critical section of `Start`, with the index it returns. -/
def startAppend (rf : Raft α σ) (command : α) (curTerm : Int) : Option (Raft α σ × Int) :=
  let rf' : Raft α σ := { rf with log := rf.log ++ [⟨some command, curTerm⟩] }
  let index := rf'.getNameIndex (rf'.log.length - 1)
  if rf.me.toNat < rf.matchIndex.length then
    some ({ rf' with matchIndex := rf.matchIndex.set rf.me.toNat index }.persist, index)
  else none

end Raft

end Mit6824
