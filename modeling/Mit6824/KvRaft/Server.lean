import Mathlib.Logic.Function.Basic
import Mit6824.GoMap
import Mit6824.Raft.State

/-!
# The key/value server

The state of a `KVServer` and what its `mainProcess` does with the messages of the
apply channel. `Get`, `Put` and `Append` commands are applied in the order of the
log. A write whose `ProposalID` is not above the greatest one applied for its client
is ignored.
-/

namespace Mit6824.KvRaft

inductive OpType where
  | getType
  | putType
  | appendType
  deriving DecidableEq, Repr

structure Op where
  clientID : Int
  proposalID : Int
  optype : OpType
  key : String
  value : String
  deriving DecidableEq, Repr

/-- The key of `resultMap`: `int64(ClientID)<<32 + int64(ProposalID)`. -/
def Op.commID (op : Op) : Int :=
  (op.clientID * 2 ^ 32 + op.proposalID).bmod (2 ^ 64)

/-- The command puts or appends. -/
def Op.isWrite (op : Op) : Bool :=
  op.optype != .getType

theorem Op.isWrite_iff {op : Op} : op.isWrite = true ↔ op.optype ≠ .getType := by
  simp [Op.isWrite]

/-- What the command means for a store that executes it once. -/
def Op.execute (op : Op) (store : GoMap String String) : GoMap String String :=
  match op.optype with
  | .getType => store
  | .putType => store.insert op.key op.value
  | .appendType => store.insert op.key ((store.lookup op.key).getD "" ++ op.value)

/-- What a snapshot saves of the server. -/
structure Saved where
  clientMaxRequestSeq : GoMap Int Int
  rsm : GoMap String String
  deriving DecidableEq

structure KVServer where
  rsm : GoMap String String
  curCommitIndex : Int
  clientMaxRequestSeq : GoMap Int Int
  resultMap : GoMap Int String
  deriving DecidableEq

namespace KVServer

/-- A server right after `StartKVServer`. -/
def start : KVServer :=
  { rsm := ∅, curCommitIndex := 0, clientMaxRequestSeq := ∅, resultMap := ∅ }

/-- `kv.ClientMaxRequestSeq[client]`. -/
def maxSeq (kv : KVServer) (client : Int) : Int :=
  (kv.clientMaxRequestSeq.lookup client).getD 0

/-- `kv.rsm[key]`. -/
def value (kv : KVServer) (key : String) : String :=
  (kv.rsm.lookup key).getD ""

/-- The `switch` of `mainProcess` on the type of the command. -/
def applyOp (kv : KVServer) (op : Op) : KVServer :=
  match op.optype with
  | .getType => { kv with resultMap := kv.resultMap.insert op.commID (kv.value op.key) }
  | .putType =>
      if op.proposalID ≤ kv.maxSeq op.clientID then kv
      else
        { kv with
          clientMaxRequestSeq := kv.clientMaxRequestSeq.insert op.clientID op.proposalID
          rsm := kv.rsm.insert op.key op.value }
  | .appendType =>
      if op.proposalID ≤ kv.maxSeq op.clientID then kv
      else
        { kv with
          clientMaxRequestSeq := kv.clientMaxRequestSeq.insert op.clientID op.proposalID
          rsm :=
            match kv.rsm.lookup op.key with
            | some old => kv.rsm.insert op.key (old ++ op.value)
            | none => kv.rsm.insert op.key op.value }

/-- One message of the apply channel. `none` is the panic of the type assertion on a message
without a command; a message of a snapshot always carries its state. -/
def apply (kv : KVServer) (message : ApplyMsg Op Saved) : Option KVServer :=
  if message.commandValid then
    message.command.map fun op =>
      let kv' := kv.applyOp op
      if kv'.curCommitIndex < message.commandIndex then
        { kv' with curCommitIndex := message.commandIndex }
      else kv'
  else
    message.state.map fun saved =>
      { kv with clientMaxRequestSeq := saved.clientMaxRequestSeq, rsm := saved.rsm }

/-- The loop of `mainProcess` over the messages that arrive. -/
def mainProcess (kv : KVServer) : List (ApplyMsg Op Saved) → Option KVServer
  | [] => some kv
  | message :: rest =>
      match kv.apply message with
      | none => none
      | some kv' => kv'.mainProcess rest

section Spec

variable {kv kv' : KVServer} {op : Op}

/-- A write that is not new does nothing. -/
theorem applyOp_old (write : op.isWrite = true) (old : op.proposalID ≤ kv.maxSeq op.clientID) :
    kv.applyOp op = kv := by
  cases type : op.optype with
  | getType => exact absurd type (Op.isWrite_iff.1 write)
  | putType => simp only [applyOp, type, if_pos old]
  | appendType => simp only [applyOp, type, if_pos old]

/-- A new write is recorded for its client and changes its key. -/
theorem applyOp_new (write : op.isWrite = true) (new : kv.maxSeq op.clientID < op.proposalID) :
    kv.applyOp op =
      { kv with
        clientMaxRequestSeq := kv.clientMaxRequestSeq.insert op.clientID op.proposalID
        rsm := op.execute kv.rsm } := by
  cases type : op.optype with
  | getType => exact absurd type (Op.isWrite_iff.1 write)
  | putType => simp only [applyOp, Op.execute, type, if_neg (not_le.2 new)]
  | appendType =>
      simp only [applyOp, Op.execute, type, if_neg (not_le.2 new)]
      cases kv.rsm.lookup op.key <;> simp

theorem applyOp_get (get : op.optype = .getType) :
    kv.applyOp op =
      { kv with resultMap := kv.resultMap.insert op.commID (kv.value op.key) } := by
  simp only [applyOp, get]

theorem curCommitIndex_applyOp (kv : KVServer) (op : Op) :
    (kv.applyOp op).curCommitIndex = kv.curCommitIndex := by
  unfold applyOp
  cases op.optype <;> dsimp only <;> split_ifs <;> rfl

theorem maxSeq_of_insert {client seq : Int}
    (inserted : kv'.clientMaxRequestSeq = kv.clientMaxRequestSeq.insert client seq) :
    kv'.maxSeq = Function.update kv.maxSeq client seq := by
  funext other
  by_cases same : other = client
  · subst same
    simp [maxSeq, inserted]
  · simp [maxSeq, inserted, same, Finmap.lookup_insert_of_ne]

theorem maxSeq_applyOp_new (write : op.isWrite = true)
    (new : kv.maxSeq op.clientID < op.proposalID) :
    (kv.applyOp op).maxSeq = Function.update kv.maxSeq op.clientID op.proposalID :=
  maxSeq_of_insert (congrArg clientMaxRequestSeq (applyOp_new write new))

/-- The number recorded for a client never goes down. -/
theorem le_maxSeq_applyOp (kv : KVServer) (op : Op) (client : Int) :
    kv.maxSeq client ≤ (kv.applyOp op).maxSeq client := by
  by_cases write : op.isWrite = true
  · rcases le_or_gt op.proposalID (kv.maxSeq op.clientID) with old | new
    · rw [applyOp_old write old]
    · rw [maxSeq_applyOp_new write new]
      by_cases same : client = op.clientID
      · rw [same, Function.update_self]
        exact new.le
      · rw [Function.update_of_ne same]
  · rw [applyOp_get (not_not.1 (mt Op.isWrite_iff.2 write))]
    rfl

/-- A write that was applied, now or before, is recorded. -/
theorem applyOp_records (kv : KVServer) (write : op.isWrite = true) :
    op.proposalID ≤ (kv.applyOp op).maxSeq op.clientID := by
  rcases le_or_gt op.proposalID (kv.maxSeq op.clientID) with old | new
  · rwa [applyOp_old write old]
  · rw [maxSeq_applyOp_new write new, Function.update_self]

theorem apply_command (kv : KVServer) (op : Op) (index : Int) (state : Option Saved) :
    kv.apply ⟨true, some op, index, state⟩ =
      some { kv.applyOp op with curCommitIndex := max kv.curCommitIndex index } := by
  rw [← curCommitIndex_applyOp kv op]
  by_cases grows : (kv.applyOp op).curCommitIndex < index
  · simp [apply, grows, max_eq_right grows.le]
  · simp [apply, grows, max_eq_left (not_lt.1 grows)]

theorem apply_cases {message : ApplyMsg Op Saved} (applied : kv.apply message = some kv') :
    (∃ op, message.commandValid = true ∧ message.command = some op ∧
      kv' = { kv.applyOp op with
        curCommitIndex := max kv.curCommitIndex message.commandIndex }) ∨
    ∃ saved, message.commandValid = false ∧ message.state = some saved ∧
      kv' = { kv with
        clientMaxRequestSeq := saved.clientMaxRequestSeq, rsm := saved.rsm } := by
  obtain ⟨valid, command, index, state⟩ := message
  cases valid with
  | true =>
      cases command with
      | none => simp [apply] at applied
      | some op =>
          rw [apply_command] at applied
          exact Or.inl ⟨op, rfl, rfl, (Option.some.inj applied).symm⟩
  | false =>
      obtain ⟨saved, found, equal⟩ := Option.map_eq_some_iff.1 (by simpa [apply] using applied)
      exact Or.inr ⟨saved, rfl, found, equal.symm⟩

theorem mainProcess_append (kv : KVServer) (before after : List (ApplyMsg Op Saved)) :
    kv.mainProcess (before ++ after) =
      (kv.mainProcess before).bind fun kv' => kv'.mainProcess after := by
  induction before generalizing kv with
  | nil => rfl
  | cons message rest ih =>
      cases applied : kv.apply message with
      | none => simp [mainProcess, applied]
      | some kv' => simp [mainProcess, applied, ih kv']

end Spec

end KVServer

end Mit6824.KvRaft
