import Mathlib.Data.List.Count
import Mit6824.KvRaft.ExactlyOnce
import Mit6824.KvRaft.Node

/-!
# Concurrent calls of one clerk

A `Clerk` numbers its calls under a lock, so that calls of several goroutines get different
numbers. The server keeps one number for each client, though: a write that is committed after a
write of the same clerk with a greater number is dropped. `executed` are the writes of a log that
the server executes, and `concurrent_writes_iff` says when they are all of the clerk's.
-/

namespace Mit6824.KvRaft

open Dedup

/-- What of a `Clerk` its requests depend on. -/
structure Clerk where
  id : Int
  commSeq : Int
  deriving DecidableEq, Repr

/-- A call of `Get` or of `PutAppend`. -/
inductive ClerkCall where
  | get (key : String)
  | putAppend (key value op : String)
  deriving DecidableEq, Repr

namespace Clerk

/-- `MakeClerk`, with the number it draws. -/
def makeClerk (id : Int) : Clerk := ⟨id, 1⟩

/-- The critical section of a call, and the command its requests lead to. -/
def issue (ck : Clerk) (call : ClerkCall) : Clerk × Op :=
  let comm : Op :=
    match call with
    | .get key =>
        { clientID := ck.id, proposalID := ck.commSeq, optype := .getType, key := key, value := "" }
    | .putAppend key value op =>
        PutAppendArgs.comm
          { key := key, value := value, op := op, clientID := ck.id, commSeq := ck.commSeq }
  ({ ck with commSeq := ck.commSeq + 1 }, comm)

/-- The commands of the calls, in the order in which they take the lock. -/
def issued (ck : Clerk) : List ClerkCall → List Op
  | [] => []
  | call :: rest => (ck.issue call).2 :: (ck.issue call).1.issued rest

variable {ck : Clerk} {calls : List ClerkCall} {op : Op}

theorem issue_ids (ck : Clerk) (call : ClerkCall) :
    (ck.issue call).2.clientID = ck.id ∧ (ck.issue call).2.proposalID = ck.commSeq ∧
      (ck.issue call).1 = { ck with commSeq := ck.commSeq + 1 } := by
  cases call <;> exact ⟨rfl, rfl, rfl⟩

theorem mem_issued (member : op ∈ ck.issued calls) :
    op.clientID = ck.id ∧ ck.commSeq ≤ op.proposalID := by
  induction calls generalizing ck with
  | nil => exact absurd member List.not_mem_nil
  | cons call rest ih =>
      obtain ⟨client, seq, next⟩ := ck.issue_ids call
      rcases List.mem_cons.1 member with rfl | later
      · exact ⟨client, seq.ge⟩
      · obtain ⟨client', above⟩ := ih later
        rw [next] at client' above
        exact ⟨client', by dsimp only at above; omega⟩

end Clerk

/-! ## The writes that are executed -/

/-- The writes of a log that the server executes. -/
def executed (kv : KVServer) : List (Op × Int) → List Op
  | [] => []
  | (op, index) :: rest =>
      match kv.apply (delivered (op, index)) with
      | none => []
      | some kv' =>
          if op.isWrite ∧ kv.maxSeq op.clientID < op.proposalID then op :: executed kv' rest
          else executed kv' rest

section Executed

variable {kv : KVServer} {op : Op} {index : Int} {log rest : List (Op × Int)}

/-- What a command of the log comes to, and what the server remembers of it. -/
theorem executed_cases (kv : KVServer) (op : Op) (index : Int) (rest : List (Op × Int)) :
    ∃ kv', kv.apply (delivered (op, index)) = some kv' ∧
      ((op.isWrite = true ∧ kv.maxSeq op.clientID < op.proposalID ∧
          kv'.rsm = op.execute kv.rsm ∧
          kv'.maxSeq = Function.update kv.maxSeq op.clientID op.proposalID ∧
          executed kv ((op, index) :: rest) = op :: executed kv' rest) ∨
        ((op.isWrite = true → op.proposalID ≤ kv.maxSeq op.clientID) ∧ kv'.rsm = kv.rsm ∧
          kv'.maxSeq = kv.maxSeq ∧ executed kv ((op, index) :: rest) = executed kv' rest)) := by
  have applied : kv.apply (delivered (op, index)) =
      some { kv.applyOp op with curCommitIndex := max kv.curCommitIndex index } :=
    KVServer.apply_command kv op index none
  refine ⟨_, applied, ?_⟩
  by_cases write : op.isWrite = true
  · rcases le_or_gt op.proposalID (kv.maxSeq op.clientID) with old | new
    · right
      have skipped : ¬(op.isWrite = true ∧ kv.maxSeq op.clientID < op.proposalID) :=
        fun taken => absurd taken.2 (not_lt.2 old)
      refine ⟨fun _ => old, ?_, ?_, by simp only [executed, applied, if_neg skipped]⟩
      · rw [KVServer.applyOp_old write old]
      · rw [KVServer.applyOp_old write old]
        rfl
    · left
      refine ⟨write, new, ?_, ?_, by simp only [executed, applied, if_pos (And.intro write new)]⟩
      · rw [KVServer.applyOp_new write new]
      · rw [KVServer.applyOp_new write new]
        exact KVServer.maxSeq_of_insert rfl
  · right
    have skipped : ¬(op.isWrite = true ∧ kv.maxSeq op.clientID < op.proposalID) :=
      fun taken => write taken.1
    have get : op.optype = .getType := not_not.1 (mt Op.isWrite_iff.2 write)
    refine ⟨fun is => absurd is write, ?_, ?_, by simp only [executed, applied, if_neg skipped]⟩
    · rw [KVServer.applyOp_get get]
    · rw [KVServer.applyOp_get get]
      rfl

/-- The store is what the executed writes make of it. -/
theorem mainProcess_executed (kv : KVServer) (log : List (Op × Int)) :
    ∃ kv', kv.mainProcess (log.map delivered) = some kv' ∧
      kv'.rsm = plain (executed kv log) kv.rsm := by
  induction log generalizing kv with
  | nil => exact ⟨kv, rfl, rfl⟩
  | cons entry rest ih =>
      obtain ⟨op, index⟩ := entry
      obtain ⟨kv₁, applied, cases⟩ := executed_cases kv op index rest
      obtain ⟨kv₂, ran, rsm⟩ := ih kv₁
      refine ⟨kv₂, ?_, ?_⟩
      · rw [List.map_cons, KVServer.mainProcess, applied]
        exact ran
      · rcases cases with ⟨-, -, stored, -, list⟩ | ⟨-, stored, -, list⟩
        · rw [list, plain, List.foldl_cons, ← stored]
          exact rsm
        · rw [list, ← stored]
          exact rsm

/-- The executed writes of one client are the records of its writes. -/
theorem executed_filter (kv : KVServer) (log : List (Op × Int)) (client : Int) :
    (executed kv log).filter (fun op => op.clientID = client) =
      records Op.proposalID (kv.maxSeq client)
        ((writes log).filter fun op => op.clientID = client) := by
  induction log generalizing kv with
  | nil => rfl
  | cons entry rest ih =>
      obtain ⟨op, index⟩ := entry
      obtain ⟨kv₁, -, ⟨write, new, -, marks, list⟩ | ⟨old, -, marks, list⟩⟩ :=
        executed_cases kv op index rest
      · rw [list, writes_of_isWrite write]
        by_cases here : op.clientID = client
        · subst here
          rw [List.filter_cons_of_pos (by simp), List.filter_cons_of_pos (by simp),
            records_of_lt new, ih, marks, Function.update_self]
        · rw [List.filter_cons_of_neg (by simpa using here),
            List.filter_cons_of_neg (by simpa using here), ih, marks,
            Function.update_of_ne (Ne.symm here)]
      · rw [list, ih, marks]
        by_cases write : op.isWrite = true
        · rw [writes_of_isWrite write]
          by_cases here : op.clientID = client
          · subst here
            rw [List.filter_cons_of_pos (by simp), records_of_le (old write)]
          · rw [List.filter_cons_of_neg (by simpa using here)]
        · rw [writes_of_get (not_not.1 (mt Op.isWrite_iff.2 write))]

/-- A write is executed once at most, and once exactly if its number is among the records. -/
theorem countP_executed_eq_one_iff (kv : KVServer) (log : List (Op × Int)) (client seq : Int) :
    (executed kv log).countP (fun op => op.clientID = client ∧ op.proposalID = seq) = 1 ↔
      seq ∈ (records Op.proposalID (kv.maxSeq client)
        ((writes log).filter fun op => op.clientID = client)).map Op.proposalID := by
  set taken := records Op.proposalID (kv.maxSeq client)
    ((writes log).filter fun op => op.clientID = client) with taken_def
  have distinct : (taken.map Op.proposalID).Nodup := by
    rw [List.Nodup, List.pairwise_map]
    exact (records_increasing _ _).imp fun less => less.ne
  have counted : (executed kv log).countP
      (fun op => op.clientID = client ∧ op.proposalID = seq) =
        (taken.map Op.proposalID).count seq := by
    rw [taken_def, ← executed_filter, List.count, List.countP_map, List.countP_filter]
    congr 1
    funext op
    simp [Bool.and_comm, Bool.beq_eq_decide_eq]
  rw [counted]
  refine ⟨fun once => List.count_pos_iff.1 ?_, List.count_eq_one_of_mem distinct⟩
  rw [once]
  exact Nat.one_pos

end Executed

/-- The first occurrences of one client's writes in the log come with increasing numbers. -/
def InOrder (client : Int) (log : List (Op × Int)) : Prop :=
  (firsts Op.clientID Op.proposalID []
    ((writes log).filter fun op => op.clientID = client)).Pairwise fun earlier later =>
      earlier.proposalID < later.proposalID

instance (client : Int) (log : List (Op × Int)) : Decidable (InOrder client log) :=
  inferInstanceAs (Decidable (List.Pairwise _ _))

/-- For every clerk, all its calls and every log that has its writes, each of them once or more and
in any order, between commands of any other clients: the store is the one that the executed writes
make, and each write of the clerk is executed exactly once if and only if they are first
committed in the order of their numbers. -/
theorem concurrent_writes_iff (id : Int) (calls : List ClerkCall) (log : List (Op × Int))
    (own : ∀ op ∈ writes log, op.clientID = id → op ∈ (Clerk.makeClerk id).issued calls)
    (committed : ∀ op ∈ (Clerk.makeClerk id).issued calls, op.isWrite = true → op ∈ writes log) :
    (∃ kv, KVServer.start.mainProcess (log.map delivered) = some kv ∧
        kv.rsm = plain (executed KVServer.start log) ∅) ∧
      ((∀ op ∈ (Clerk.makeClerk id).issued calls, op.isWrite = true →
          (executed KVServer.start log).countP
            (fun other => other.clientID = id ∧ other.proposalID = op.proposalID) = 1) ↔
        InOrder id log) := by
  refine ⟨mainProcess_executed KVServer.start log, ?_⟩
  set mine := (writes log).filter fun op => op.clientID = id with mine_def
  have isMine : ∀ {op}, op ∈ mine ↔
      op ∈ (Clerk.makeClerk id).issued calls ∧ op.isWrite = true := by
    intro op
    rw [mine_def, List.mem_filter, decide_eq_true_eq]
    constructor
    · rintro ⟨written, client⟩
      exact ⟨own op written client, (List.mem_filter.1 written).2⟩
    · rintro ⟨member, write⟩
      exact ⟨committed op member write, (Clerk.mem_issued member).1⟩
  -- The clerk starts at 1, so that the mark of a new client hides nothing.
  have positive : ∀ op ∈ firsts Op.clientID Op.proposalID [] mine,
      KVServer.start.maxSeq id < op.proposalID := by
    intro op member
    have issued := (isMine.1 (firsts_subset member)).1
    exact Int.lt_of_lt_of_le Int.zero_lt_one (Clerk.mem_issued issued).2
  have complete : (∀ op ∈ mine, (id, op.proposalID) ∈ [] ∨
      op.proposalID ∈ (records Op.proposalID (KVServer.start.maxSeq id) mine).map Op.proposalID) ↔
        (∀ op ∈ firsts Op.clientID Op.proposalID [] mine,
          KVServer.start.maxSeq id < op.proposalID) ∧ InOrder id log :=
    records_complete_iff
      (fun op member => of_decide_eq_true (List.mem_filter.1 member).2)
      (fun _ none => absurd none List.not_mem_nil)
  rw [← and_iff_right positive (b := InOrder id log), ← complete]
  simp only [countP_executed_eq_one_iff, List.not_mem_nil, false_or, ← mine_def]
  exact ⟨fun all op member => all op (isMine.1 member).1 (isMine.1 member).2,
    fun all op member write => all op (isMine.2 ⟨member, write⟩)⟩

/-- Two appends of one clerk. -/
def twoAppends : List ClerkCall :=
  [.putAppend "x" "a" "Append", .putAppend "x" "b" "Append"]

/-- They are committed in order, and the first one again. -/
def inTurn : List (Op × Int) :=
  [(⟨5, 1, .appendType, "x", "a"⟩, 1), (⟨5, 2, .appendType, "x", "b"⟩, 2),
    (⟨5, 1, .appendType, "x", "a"⟩, 3)]

/-- The second one is committed first. -/
def overtaken : List (Op × Int) :=
  [(⟨5, 2, .appendType, "x", "b"⟩, 1), (⟨5, 1, .appendType, "x", "a"⟩, 2)]

theorem concurrent_writes_iff_inTurn :
    (executed KVServer.start inTurn).countP
        (fun other => other.clientID = 5 ∧ other.proposalID = 1) = 1 ∧
      (executed KVServer.start inTurn).countP
        (fun other => other.clientID = 5 ∧ other.proposalID = 2) = 1 := by
  have once := (concurrent_writes_iff 5 twoAppends inTurn (by decide) (by decide)).2.2 (by decide)
  exact ⟨once ⟨5, 1, .appendType, "x", "a"⟩ (by decide) rfl,
    once ⟨5, 2, .appendType, "x", "b"⟩ (by decide) rfl⟩

/-- The first append is never executed. -/
theorem overtaken_write_lost :
    (∀ op ∈ (Clerk.makeClerk 5).issued twoAppends, op ∈ writes overtaken) ∧
      (∀ op ∈ writes overtaken, op ∈ (Clerk.makeClerk 5).issued twoAppends) ∧
      (executed KVServer.start overtaken).countP
        (fun other => other.clientID = 5 ∧ other.proposalID = 1) = 0 ∧
      (KVServer.start.mainProcess (overtaken.map delivered)).map (fun kv => kv.value "x") =
        some "b" := by
  decide +kernel

end Mit6824.KvRaft
