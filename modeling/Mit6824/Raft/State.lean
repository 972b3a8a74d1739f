import Mathlib.Data.List.Basic
import Mathlib.Tactic.Common

/-!
# The state of a Raft peer

This file gives the data types of `raft.go` and `persister.go` and the functions
that move a peer between memory and its `Persister`.

A log is a list of slots. Slot `0` is the sentinel: it stands for the absolute
index `lastIndexInSnapshot`, so the entry at absolute index `k` is in the slot
`k - lastIndexInSnapshot`. Everything the source indexes with a Go `int` is
indexed with an `Int` here, and reading a slot outside the log is the Go run
time panic, which is `none`.

The two byte strings of the `Persister` are kept decoded: decoding a gob is
taken to undo its encoding. What the service hands over in a snapshot
(`ClientMaxRequestSeq` and `rsm`) is one value of an arbitrary type `σ`, and a
command is a value of an arbitrary type `α`; `nil` is `none`.
-/

namespace Mit6824

/-- A log slot. Only the sentinel slot may hold no command. -/
structure CommandTerm (α : Type) where
  command : Option α
  term : Int
  deriving DecidableEq, Repr

/-- What a peer puts on `applyCh`: a committed command, or the state of a snapshot. -/
structure ApplyMsg (α σ : Type) where
  commandValid : Bool
  command : Option α
  commandIndex : Int
  state : Option σ
  deriving DecidableEq, Repr

/-- The second blob of the `Persister`: the service state with the index and term it is
labelled with. -/
structure Snapshot (σ : Type) where
  state : σ
  lastIndex : Int
  lastTerm : Int
  deriving DecidableEq, Repr

/-- The stable storage of a peer; a blob that was never written is `none`. -/
structure Persister (α σ : Type) where
  raftstate : Option (Int × List (CommandTerm α))
  snapshot : Option (Snapshot σ)
  deriving DecidableEq, Repr

/-- A fresh `Persister`. -/
def makePersister (α σ : Type) : Persister α σ := ⟨none, none⟩

/-- A Raft peer. `peers` is the number of peers, and `aeNotifyChan` the number of
notifications waiting in the channel of that name. `applyCh` is everything the peer ever put
on the channel it was made with. -/
structure Raft (α σ : Type) where
  peers : Nat
  me : Int
  leaderNum : Int
  currentTerm : Int
  votedFor : Int
  log : List (CommandTerm α)
  commitIndex : Int
  nextIndex : List Int
  matchIndex : List Int
  aeNotifyChan : Nat
  applyCh : List (ApplyMsg α σ)
  lastIndexInSnapshot : Int
  lastTermInSnapshot : Int
  persister : Persister α σ
  deriving DecidableEq, Repr

namespace Raft

variable {α σ : Type}

def getLastLogIndex (rf : Raft α σ) : Int :=
  rf.lastIndexInSnapshot + rf.log.length - 1

/-- The slot of an absolute index, clamped to the sentinel. -/
def getTrueIndex (rf : Raft α σ) (index : Int) : Int :=
  if index - rf.lastIndexInSnapshot < 0 then 0 else index - rf.lastIndexInSnapshot

def getNameIndex (rf : Raft α σ) (index : Int) : Int :=
  index + rf.lastIndexInSnapshot

/-- `rf.log[i]`; `none` is an index out of range. -/
def slot (rf : Raft α σ) (i : Int) : Option (CommandTerm α) :=
  if i < 0 then none else rf.log[i.toNat]?

/-- The entry at an absolute index above the snapshot. -/
def entryAt (rf : Raft α σ) (index : Int) : Option (CommandTerm α) :=
  if index ≤ rf.lastIndexInSnapshot then none else rf.slot (index - rf.lastIndexInSnapshot)

/-- The term of the last slot, as `RequestVote` and `CandidateProcess` read it. -/
def lastTerm (rf : Raft α σ) : Int :=
  (rf.log.getLast?.map CommandTerm.term).getD 0

/-- The log that is left when everything before `endIndex` is dropped; `none` is the panic for
an `endIndex` that is not beyond `preIndex`. -/
def truncate (rf : Raft α σ) (endIndex preIndex lastTerm : Int) :
    Option (List (CommandTerm α)) :=
  if endIndex ≤ preIndex then none
  else
    match rf.log.drop (endIndex - preIndex).toNat with
    | [] => some [⟨none, lastTerm⟩]
    | kept => some kept

/-- Save the current term and the log. -/
def persist (rf : Raft α σ) : Raft α σ :=
  { rf with persister := { rf.persister with raftstate := some (rf.currentTerm, rf.log) } }

/-- Restore the term and the log; nothing was saved before the first `persist`. -/
def readPersist (rf : Raft α σ) : Option (Int × List (CommandTerm α)) → Raft α σ
  | none => rf
  | some (currentTerm, log) => { rf with currentTerm := currentTerm, log := log }

/-- Restore a snapshot that is ahead of the one in use: the log restarts at its label, and the
state goes to the service. The Raft state in the `Persister` is written back as it was read. -/
def readSnapshotPersist (rf : Raft α σ) : Option (Snapshot σ) → Raft α σ
  | none => rf
  | some data =>
      if data.lastIndex ≤ rf.lastIndexInSnapshot then rf
      else
        { rf with
          lastTermInSnapshot := data.lastTerm
          log := [⟨none, data.lastTerm⟩]
          lastIndexInSnapshot := data.lastIndex
          commitIndex := data.lastIndex
          applyCh := rf.applyCh ++ [⟨false, none, 0, some data.state⟩]
          persister := ⟨rf.persister.raftstate, some data⟩ }

/-- One more notification, unless `limit` of them are waiting already. -/
def notify (rf : Raft α σ) (limit : Nat) : Raft α σ :=
  if rf.aeNotifyChan < limit then { rf with aeNotifyChan := rf.aeNotifyChan + 1 } else rf

/-- A peer made from the contents of its `Persister`. `applyCh` is what the peer's earlier
incarnations have put on the channel. -/
def make (peers : Nat) (me : Int) (persister : Persister α σ)
    (applyCh : List (ApplyMsg α σ)) : Raft α σ :=
  let rf : Raft α σ :=
    { peers := peers, me := me, leaderNum := -1, currentTerm := 0, votedFor := -1, log := []
      commitIndex := 0, nextIndex := [], matchIndex := [], aeNotifyChan := 0
      applyCh := applyCh, lastIndexInSnapshot := 0, lastTermInSnapshot := 0
      persister := persister }
  let rf := (rf.readSnapshotPersist persister.snapshot).readPersist persister.raftstate
  let rf := if rf.log.length < 1 then { rf with log := rf.log ++ [⟨none, 0⟩] } else rf
  { rf with commitIndex := rf.lastIndexInSnapshot }

end Raft

end Mit6824
