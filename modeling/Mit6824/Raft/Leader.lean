import Mathlib.Data.List.Sort
import Mit6824.Raft.Handlers

/-!
# The work of a leader

The pieces of `LeaderProcess` and `sendSnapShot`: the reset at the start of a
leadership, the message built for one follower, and what a goroutine does with
the reply to its message (the match index, the commit rule, the search for the
point where the logs agree).

`LeaderProcess` runs one goroutine for each message. Its local variables are a
`Sender`; the list of terms it consults is captured when the leadership starts.
-/

namespace Mit6824

structure TermIndex where
  term : Int
  lastIndexOfTerm : Int
  deriving DecidableEq, Repr

/-- The variables of `LeaderProcess` that its goroutines capture. -/
structure TermCache where
  termList : List TermIndex
  curLastSnapshotIndex : Int
  deriving DecidableEq, Repr

/-- A goroutine of `LeaderProcess` that waits for a reply: to its `AppendEntry`, or to the
`InstallSnapShot` given by `snapshot`. `prevLogIndex` is the one of the first message, and
`count` the number of calls that were lost. -/
structure Sender (n : Nat) (α σ : Type) where
  ind : Fin n
  prevLogIndex : Int
  appEnTerm : Int
  appEn : AppendEntryArgs α
  cache : TermCache
  snapshot : Option (InstallSnapShotArgs σ)
  count : Nat
  deriving DecidableEq, Repr

/-- What a goroutine does next: it returns, sends another message, or sends a snapshot. -/
inductive Next (α : Type) where
  | done
  | retry (appEn : AppendEntryArgs α) (appEnTerm : Int)
  | snapshot
  deriving DecidableEq, Repr

namespace Raft

variable {n : Nat} {α σ : Type}

/-! ## The list of terms -/

/-- The loop of `makeTermIndex` over the slots below `i`. -/
def termIndexFrom (log : List (CommandTerm α)) (curLastTerm : Int) : Nat → List TermIndex
  | 0 => []
  | i + 1 =>
      match log[i]? with
      | none => termIndexFrom log curLastTerm i
      | some entry =>
          if entry.term ≠ curLastTerm then ⟨entry.term, i⟩ :: termIndexFrom log entry.term i
          else termIndexFrom log curLastTerm i

def makeTermIndex (rf : Raft α σ) : Option (List TermIndex) :=
  rf.log.getLast?.map fun last => termIndexFrom rf.log (last.term + 1) rf.log.length

/-- The element the search in `termList` stops at. -/
def findTerm (lastTerm : Int) : List TermIndex → Option TermIndex
  | [] => none
  | [final] => some final
  | first :: second :: rest =>
      if lastTerm < first.term then findTerm lastTerm (second :: rest) else some first

/-! ## The start of a leadership -/

/-- What `LeaderProcess` sets up before its loop. -/
def startLeader (rf : Raft α σ) : Option (Raft α σ × TermCache) :=
  rf.makeTermIndex.map fun termList =>
    ({ rf with
        matchIndex := List.replicate rf.peers 0
        nextIndex := List.replicate rf.peers (rf.getLastLogIndex + 1) },
      ⟨termList, rf.lastIndexInSnapshot⟩)

/-! ## Messages -/

/-- The fields of a message that are set before a snapshot may be sent. -/
def newEntry (rf : Raft α σ) (ind : Nat) : Option (AppendEntryArgs α) :=
  rf.nextIndex[ind]?.map fun next =>
    { term := rf.currentTerm, leaderID := rf.me, prevLogIndex := next - 1, prevLogTerm := 0
      entries := [], leaderCommit := rf.commitIndex }

/-- The entries of a message, `none` for a slice out of range. `logLen` was read before the
first follower of this round was served. -/
def newEntries (rf : Raft α σ) (next logLen prevLogIndex : Int) :
    Option (List (CommandTerm α)) :=
  if next < logLen ∧ 0 < prevLogIndex + 1 - rf.lastIndexInSnapshot then
    if rf.getTrueIndex (prevLogIndex + 1) ≤ rf.log.length then
      some (rf.log.drop (rf.getTrueIndex (prevLogIndex + 1)).toNat)
    else none
  else some []

/-- The rest of a message. `some none` is the `continue` for a follower that is ahead of the
log. -/
def fillEntry (rf : Raft α σ) (ind : Nat) (logLen : Int) (appEn : AppendEntryArgs α) :
    Option (Option (AppendEntryArgs α)) :=
  match rf.nextIndex[ind]? with
  | none => none
  | some next =>
      match rf.newEntries next logLen appEn.prevLogIndex with
      | none => none
      | some entries =>
          if rf.log.length ≤ rf.getTrueIndex appEn.prevLogIndex then some none
          else
            (rf.slot (rf.getTrueIndex appEn.prevLogIndex)).map fun entry =>
              some { appEn with entries := entries, prevLogTerm := entry.term }

/-! ## sendSnapShot -/

def snapShotArgs (rf : Raft α σ) : InstallSnapShotArgs σ :=
  { term := rf.currentTerm, leaderId := rf.leaderNum
    lastIncludedIndex := rf.lastIndexInSnapshot, lastIncludedTerm := rf.lastTermInSnapshot
    data := rf.persister.snapshot }

/-- The reply a caller holds when every attempt was lost. -/
def lostReply : InstallSnapShotReply := { success := false, term := 0 }

def setProgress (rf : Raft α σ) (ind : Nat) (index : Int) : Raft α σ :=
  { rf with
    nextIndex := rf.nextIndex.set ind (index + 1)
    matchIndex := rf.matchIndex.set ind index }

/-- What `sendSnapShot` does with the reply to its call. -/
def snapShotReply (rf : Raft α σ) (ind : Nat) (args : InstallSnapShotArgs σ)
    (reply : InstallSnapShotReply) : Raft α σ :=
  if reply.errCode = 1 then { rf with currentTerm := reply.term, leaderNum := reply.value }
  else if reply.errCode = 2 then rf.setProgress ind reply.value
  else if reply.errCode = 3 ∨ reply.errCode = 0 then
    rf.setProgress ind args.lastIncludedIndex
  else rf

/-! ## A successful reply -/

/-- The new match index, and whether the goroutine goes on. -/
def recordMatch (rf : Raft α σ) (ind : Nat) (appEn : AppendEntryArgs α)
    (reply : AppendEntryReply) : Option (Raft α σ × Bool) :=
  if reply.commitIndex ≠ 0 then some (rf.setProgress ind reply.commitIndex, true)
  else
    match rf.nextIndex[ind]?, rf.matchIndex[ind]? with
    | some next, some matched =>
        let sent := appEn.prevLogIndex + appEn.entries.length + 1
        let next' := if next < sent then sent else next
        if matched ≠ next' - 1 then some (rf.setProgress ind (next' - 1), true)
        else some ({ rf with nextIndex := rf.nextIndex.set ind next' }, false)
    | _, _ => none

/-- The message that follows a success short of the first `PrevLogIndex`. `some none` is the
return for a follower whose commit index is at the end of the log. -/
def nextMessage (rf : Raft α σ) (sender : Sender n α σ) (reply : AppendEntryReply)
    (currComInd : Int) : Option (Option (AppendEntryArgs α)) :=
  if reply.commitIndex ≠ 0 then
    if rf.getLastLogIndex ≤ reply.commitIndex then some none
    else
      let oneLogStartIndex := rf.getTrueIndex reply.commitIndex
      (rf.slot oneLogStartIndex).map fun entry =>
        some
          { term := rf.currentTerm, leaderID := sender.appEn.leaderID
            prevLogIndex := reply.commitIndex, prevLogTerm := entry.term
            entries :=
              if 0 < oneLogStartIndex then (rf.log.drop (oneLogStartIndex.toNat + 1)).take 1
              else []
            leaderCommit := rf.commitIndex }
  else
    let oneLogStartIndex := rf.getTrueIndex currComInd
    (rf.slot oneLogStartIndex).map fun entry =>
      some
        { term := rf.currentTerm, leaderID := sender.appEn.leaderID
          prevLogIndex := currComInd, prevLogTerm := entry.term
          entries := rf.log.drop (oneLogStartIndex.toNat + 1)
          leaderCommit := rf.commitIndex }

/-- The median of the sorted match indices. -/
def toBeCommitIndex (rf : Raft α σ) : Option Int :=
  (rf.matchIndex.insertionSort (· ≤ ·))[rf.matchIndex.length / 2]?

/-- The commit loop of the leader; it stops at the end of the log. -/
def commitSlots (rf : Raft α σ) : Nat → Raft α σ
  | 0 => rf
  | count + 1 =>
      let i := rf.commitIndex + 1
      if rf.log.length ≤ rf.getTrueIndex i ∨ rf.getTrueIndex i < 1 then rf
      else
        match rf.deliver i with
        | none => rf
        | some rf' => rf'.commitSlots count

section
attribute [local irreducible] deliver

theorem commitSlots_succ (rf : Raft α σ) (count : Nat) :
    rf.commitSlots (count + 1) =
      if rf.log.length ≤ rf.getTrueIndex (rf.commitIndex + 1) ∨
          rf.getTrueIndex (rf.commitIndex + 1) < 1 then rf
      else
        match rf.deliver (rf.commitIndex + 1) with
        | none => rf
        | some rf' => rf'.commitSlots count := rfl

end

/-- The commit rule of the leader. -/
def leaderCommit (rf : Raft α σ) (currComInd : Int) : Option (Raft α σ) :=
  if currComInd ≤ rf.commitIndex then some rf
  else
    match rf.toBeCommitIndex with
    | none => none
    | some index =>
        if index ≤ rf.commitIndex ∨ rf.leaderNum ≠ rf.me then some rf
        else
          let rf' := rf.commitSlots (index - rf.commitIndex).toNat
          match rf'.nextIndex[rf'.me.toNat]? with
          | none => none
          | some next =>
              if next < rf'.commitIndex then
                some { rf' with
                  nextIndex := rf'.nextIndex.set rf'.me.toNat rf'.commitIndex }
              else some rf'

/-- A successful reply. -/
def onSuccess (rf : Raft α σ) (sender : Sender n α σ) (reply : AppendEntryReply) :
    Option (Raft α σ × Next α) :=
  if sender.appEn.entries = [] then some (rf, .done)
  else
    match rf.recordMatch sender.ind sender.appEn reply with
    | none => none
    | some (rf', false) => some (rf', .done)
    | some (rf', true) =>
        match rf'.matchIndex[sender.ind.val]? with
        | none => none
        | some currComInd =>
            if currComInd < sender.prevLogIndex then
              (rf'.nextMessage sender reply currComInd).map fun message =>
                match message with
                | none => (rf', .done)
                | some appEn => (rf', .retry appEn rf'.currentTerm)
            else (rf'.leaderCommit currComInd).map fun rf'' => (rf'', .done)

/-! ## A rejection -/

/-- Where the search for the common point of the logs goes. -/
def backUp (rf : Raft α σ) (sender : Sender n α σ) (reply : AppendEntryReply) : Option Int :=
  let prevlog := sender.appEn.prevLogIndex - 1
  let prevlog :=
    if reply.lastLogIndex ≠ 0 ∧ reply.lastLogIndex < prevlog then reply.lastLogIndex
    else prevlog
  if reply.termOfArgsPreLogIndex = 0 then some prevlog
  else
    let termList :=
      if sender.cache.curLastSnapshotIndex ≠ rf.lastIndexInSnapshot then rf.makeTermIndex
      else some sender.cache.termList
    match termList.bind (findTerm reply.termOfArgsPreLogIndex) with
    | none => none
    | some found =>
        if found.term ≤ reply.termOfArgsPreLogIndex ∧ found.lastIndexOfTerm < prevlog then
          some found.lastIndexOfTerm
        else some prevlog

/-- The message with the one entry after `prevlog`. -/
def repairMessage (rf : Raft α σ) (sender : Sender n α σ) (prevlog : Int) :
    Option (Next α) :=
  if rf.log.length ≤ prevlog then some .done
  else
    match rf.slot (rf.getTrueIndex (prevlog + 1)), rf.slot (rf.getTrueIndex prevlog) with
    | some entry, some prev =>
        some (.retry
          { term := rf.currentTerm, leaderID := sender.appEn.leaderID
            prevLogIndex := prevlog, prevLogTerm := prev.term, entries := [entry]
            leaderCommit := 0 } sender.appEnTerm)
    | _, _ => none

/-- A rejection. -/
def onReject (rf : Raft α σ) (sender : Sender n α σ) (reply : AppendEntryReply) :
    Option (Raft α σ × Next α) :=
  if sender.appEnTerm < reply.term then some ({ rf with leaderNum := -1 }.notify 2, .done)
  else
    match rf.matchIndex[sender.ind.val]? with
    | none => none
    | some matched =>
        if sender.appEn.prevLogIndex ≤ matched then some (rf, .done)
        else
          match rf.backUp sender reply with
          | none => none
          | some prevlog =>
              let rf' := { rf with nextIndex := rf.nextIndex.set sender.ind (prevlog + 1) }
              if prevlog < 0 then none
              else if prevlog < rf.lastIndexInSnapshot then some (rf', .snapshot)
              else (rf'.repairMessage sender prevlog).map fun next => (rf', next)

def onReply (rf : Raft α σ) (sender : Sender n α σ) (reply : AppendEntryReply) :
    Option (Raft α σ × Next α) :=
  if reply.success then rf.onSuccess sender reply else rf.onReject sender reply

/-- A goroutine whose snapshot was sent goes on from the match index. -/
def afterSnapShot (rf : Raft α σ) (sender : Sender n α σ) : Option (Next α) :=
  match rf.matchIndex[sender.ind.val]? with
  | none => none
  | some prevlog => rf.repairMessage sender prevlog

end Raft

end Mit6824
