import Mit6824.Dedup
import Mit6824.KvRaft.Server
import Mit6824.Linearizability.Models

/-!
# Each write is executed once

A clerk sends a request again until it is answered, so a command may be in the log many times.
This file compares the apply loop with a store that executes the first occurrence of each
write and nothing else. The server remembers one number for each client, which is enough
when each client's writes first appear with increasing numbers, as they do if the clerk waits
for each answer.

The first writes and the `Get`s, in the order of the log, are then a history of a
sequential store: the checker's model takes its operations on any one key one after the
other.
-/

namespace Mit6824.KvRaft

open Linearizability Dedup

/-- The message for the command at an index of the log. -/
def delivered (entry : Op × Int) : ApplyMsg Op Saved :=
  ⟨true, some entry.1, entry.2, none⟩

/-- The commands of a log that write. -/
def writes (log : List (Op × Int)) : List Op :=
  (log.map Prod.fst).filter Op.isWrite

/-- The first occurrence of each write. -/
def firstWrites (log : List (Op × Int)) : List Op :=
  firsts Op.clientID Op.proposalID [] (writes log)

/-- The store after the commands, each of them executed. -/
def plain (ops : List Op) (store : GoMap String String) : GoMap String String :=
  ops.foldl (fun store op => op.execute store) store

/-- What the checker is told about the arguments of a command. -/
def Op.input (op : Op) : KvInput :=
  match op.optype with
  | .getType => ⟨0, op.key, ""⟩
  | .putType => ⟨1, op.key, op.value⟩
  | .appendType => ⟨2, op.key, op.value⟩

/-- The first writes and the `Get`s of a log as the server applies it. The output of a `Get` is
what `resultMap` has for it once it is applied. -/
def history (kv : KVServer) (seen : List (Int × Int)) :
    List (Op × Int) → List (KvInput × KvOutput)
  | [] => []
  | (op, index) :: rest =>
      match kv.apply (delivered (op, index)) with
      | none => []
      | some kv' =>
          if op.optype = .getType then
            (op.input, ⟨(kv'.resultMap.lookup op.commID).getD ""⟩) :: history kv' seen rest
          else if (op.clientID, op.proposalID) ∈ seen then history kv' seen rest
          else (op.input, ⟨""⟩) :: history kv' ((op.clientID, op.proposalID) :: seen) rest

/-- The part of a history that is about one key. -/
def onKey (key : String) (history : List (KvInput × KvOutput)) : List (KvInput × KvOutput) :=
  history.filter fun operation => operation.1.key = key

section Writes

variable {op : Op} {index : Int} {rest : List (Op × Int)}

theorem writes_of_get (get : op.optype = .getType) :
    writes ((op, index) :: rest) = writes rest := by
  simp [writes, Op.isWrite, get]

theorem writes_of_isWrite (write : op.isWrite = true) :
    writes ((op, index) :: rest) = op :: writes rest := by
  simp [writes, write]

end Writes

section KvModel

theorem Op.input_key (op : Op) : op.input.key = op.key := by
  cases type : op.optype <;> simp [Op.input, type]

theorem step_of_isWrite {op : Op} (write : op.isWrite = true) (state : String)
    (output : KvOutput) : (kvModel.step state op.input output).1 = true := by
  cases type : op.optype with
  | getType => exact absurd type (Op.isWrite_iff.1 write)
  | putType => simp [Op.input, kvModel, type]
  | appendType => simp [Op.input, kvModel, type]

theorem accepts_onKey_cons (key state : String) (input : KvInput) (output : KvOutput)
    (rest : List (KvInput × KvOutput)) :
    kvModel.accepts state (onKey key ((input, output) :: rest)) =
      if input.key = key then
        (kvModel.step state input output).1 &&
          kvModel.accepts (kvModel.step state input output).2 (onKey key rest)
      else kvModel.accepts state (onKey key rest) := by
  by_cases here : input.key = key <;> simp [onKey, here, Model.accepts]

end KvModel

/-- The server tells the first occurrences of the log's writes from the repetitions. -/
abbrev Remembers (kv : KVServer) (seen : List (Int × Int)) (log : List (Op × Int)) : Prop :=
  Tracks Op.clientID Op.proposalID kv.maxSeq seen (writes log)

section Steps

variable {kv : KVServer} {seen : List (Int × Int)} {op : Op} {index : Int}
variable {log rest : List (Op × Int)}

/-- What one command of the log does to a server that tells first occurrences from
repetitions. -/
theorem apply_cases (remembers : Remembers kv seen ((op, index) :: rest)) :
    ∃ kv', kv.apply (delivered (op, index)) = some kv' ∧
      ((op.optype = .getType ∧ kv'.rsm = kv.rsm ∧
          kv'.resultMap.lookup op.commID = some (kv.value op.key) ∧ Remembers kv' seen rest) ∨
        (op.isWrite = true ∧ (op.clientID, op.proposalID) ∈ seen ∧ kv'.rsm = kv.rsm ∧
          Remembers kv' seen rest) ∨
        (op.isWrite = true ∧ (op.clientID, op.proposalID) ∉ seen ∧
          kv'.rsm = op.execute kv.rsm ∧
          Remembers kv' ((op.clientID, op.proposalID) :: seen) rest)) := by
  refine ⟨_, KVServer.apply_command kv op index none, ?_⟩
  by_cases get : op.optype = .getType
  · rw [Remembers, writes_of_get get] at remembers
    rw [KVServer.applyOp_get get]
    exact .inl ⟨get, rfl, Finmap.lookup_insert _, remembers⟩
  have write : op.isWrite = true := Op.isWrite_iff.2 get
  rw [Remembers, writes_of_isWrite write] at remembers
  by_cases repeated : (op.clientID, op.proposalID) ∈ seen
  · rw [KVServer.applyOp_old write (remembers.le_mark_iff.2 repeated)]
    exact .inr (.inl ⟨write, repeated, rfl, remembers.skip repeated⟩)
  · have new : kv.maxSeq op.clientID < op.proposalID :=
      not_le.1 fun old => repeated (remembers.le_mark_iff.1 old)
    rw [KVServer.applyOp_new write new]
    refine .inr (.inr ⟨write, repeated, rfl, ?_⟩)
    rw [Remembers, KVServer.maxSeq_of_insert rfl]
    exact remembers.take repeated

end Steps

section Runs

variable {kv : KVServer} {seen : List (Int × Int)} {log : List (Op × Int)}

theorem mainProcess_rsm (remembers : Remembers kv seen log) :
    ∃ kv', kv.mainProcess (log.map delivered) = some kv' ∧
      kv'.rsm = plain (firsts Op.clientID Op.proposalID seen (writes log)) kv.rsm := by
  induction log generalizing kv seen with
  | nil => exact ⟨kv, rfl, rfl⟩
  | cons entry rest ih =>
      obtain ⟨op, index⟩ := entry
      obtain ⟨kv₁, applied, cases⟩ := apply_cases remembers
      have mainProcess_cons : kv.mainProcess (((op, index) :: rest).map delivered) =
          kv₁.mainProcess (rest.map delivered) := by
        simp only [List.map_cons, KVServer.mainProcess, applied]
      rw [mainProcess_cons]
      rcases cases with ⟨get, rsm, -, after⟩ | ⟨write, repeated, rsm, after⟩ |
        ⟨write, first, rsm, after⟩
      · rw [writes_of_get get, ← rsm]
        exact ih after
      · rw [writes_of_isWrite write, firsts_of_mem repeated, ← rsm]
        exact ih after
      · rw [writes_of_isWrite write, firsts_of_notMem first, plain, List.foldl_cons, ← rsm]
        exact ih after

/-- The model's state and the value in the store change alike. -/
theorem value_execute {kv' : KVServer} {op : Op} {key : String}
    (rsm : kv'.rsm = op.execute kv.rsm) :
    kv'.value key =
      if op.key = key then (kvModel.step (kv.value key) op.input ⟨""⟩).2 else kv.value key := by
  rw [KVServer.value, rsm]
  by_cases same : op.key = key
  · subst same
    cases type : op.optype <;> simp [Op.execute, Op.input, kvModel, type, KVServer.value]
  · have other : key ≠ op.key := fun equal => same equal.symm
    cases type : op.optype <;>
      simp [Op.execute, type, KVServer.value, same, Finmap.lookup_insert_of_ne _ other]

/-- The model of a key follows the value the server has for it. -/
theorem accepts_history (remembers : Remembers kv seen log) (key : String) :
    kvModel.accepts (kv.value key) (onKey key (history kv seen log)) = true := by
  induction log generalizing kv seen with
  | nil => rfl
  | cons entry rest ih =>
      obtain ⟨op, index⟩ := entry
      obtain ⟨kv₁, applied, cases⟩ := apply_cases remembers
      rcases cases with ⟨get, rsm, stored, after⟩ | ⟨write, repeated, rsm, after⟩ |
        ⟨write, first, rsm, after⟩
      · have accepted := ih after
        rw [KVServer.value, rsm, ← KVServer.value] at accepted
        simp only [history, applied, if_pos get, stored, Option.getD_some]
        rw [accepts_onKey_cons, Op.input_key]
        split_ifs with here
        · subst here
          simpa [Op.input, get, kvModel] using accepted
        · exact accepted
      · have accepted := ih after
        rw [KVServer.value, rsm, ← KVServer.value] at accepted
        simp only [history, applied, if_neg (Op.isWrite_iff.1 write), if_pos repeated]
        exact accepted
      · have accepted := ih after
        rw [value_execute rsm] at accepted
        simp only [history, applied, if_neg (Op.isWrite_iff.1 write), if_neg first]
        rw [accepts_onKey_cons, Op.input_key, step_of_isWrite write, Bool.true_and]
        split_ifs with here
        · rwa [if_pos here] at accepted
        · rwa [if_neg here] at accepted

/-- A `Get` finds in `resultMap` the value of its key at the time it is applied. -/
theorem mainProcess_get (remembers : Remembers kv seen log) (op : Op) (index : Int)
    (get : op.optype = .getType) :
    ∃ kv', kv.mainProcess ((log ++ [(op, index)]).map delivered) = some kv' ∧
      kv'.resultMap.lookup op.commID =
        some (((plain (firsts Op.clientID Op.proposalID seen (writes log)) kv.rsm).lookup
          op.key).getD "") := by
  obtain ⟨kv₁, ran, rsm⟩ := mainProcess_rsm remembers
  refine ⟨{ kv₁.applyOp op with curCommitIndex := max kv₁.curCommitIndex index }, ?_, ?_⟩
  · rw [List.map_append, KVServer.mainProcess_append, ran]
    simp only [List.map_cons, List.map_nil, delivered, Option.bind_some, KVServer.mainProcess,
      KVServer.apply_command]
  · rw [KVServer.applyOp_get get, ← rsm]
    exact Finmap.lookup_insert _

end Runs

/-- For every log in which each client's writes first occur with positive and increasing
numbers, with any repetitions: the store is the one that executes the first occurrences only,
each `Get` stores what that store has for its key at that point, and the model of any key
takes the first writes and the `Get`s on it from its initial state. -/
theorem exactly_once (log : List (Op × Int))
    (positive : ∀ op ∈ firstWrites log, 0 < op.proposalID)
    (increasing : (firstWrites log).Pairwise fun earlier later =>
      earlier.clientID = later.clientID → earlier.proposalID < later.proposalID) :
    (∃ kv, KVServer.start.mainProcess (log.map delivered) = some kv ∧
        kv.rsm = plain (firstWrites log) ∅) ∧
      (∀ before op index after, log = before ++ (op, index) :: after → op.optype = .getType →
        ∃ kv, KVServer.start.mainProcess ((before ++ [(op, index)]).map delivered) = some kv ∧
          kv.resultMap.lookup op.commID =
            some (((plain (firstWrites before) ∅).lookup op.key).getD "")) ∧
      ∀ key, kvModel.accepts kvModel.init (onKey key (history KVServer.start [] log)) = true := by
  have remembers : Remembers KVServer.start [] log := .nil_seen positive increasing
  refine ⟨mainProcess_rsm remembers, ?_, accepts_history remembers⟩
  rintro before op index after rfl get
  have beginning : Remembers KVServer.start [] before := by
    rw [Remembers, writes, List.map_append, List.filter_append] at remembers
    exact remembers.of_append
  exact mainProcess_get beginning op index get

/-- Client 5 puts, client 7 appends, both commands come again, and client 7 reads. -/
def retried : List (Op × Int) :=
  [(⟨5, 1, .putType, "x", "a"⟩, 1), (⟨7, 1, .appendType, "x", "b"⟩, 2),
    (⟨5, 1, .putType, "x", "a"⟩, 3), (⟨7, 1, .appendType, "x", "b"⟩, 4),
    (⟨7, 2, .getType, "x", ""⟩, 5)]

theorem exactly_once_retried :
    ∃ kv, KVServer.start.mainProcess (retried.map delivered) = some kv ∧
      kv.rsm = plain [⟨5, 1, .putType, "x", "a"⟩, ⟨7, 1, .appendType, "x", "b"⟩] ∅ :=
  (exactly_once retried (by decide) (by decide)).1

end Mit6824.KvRaft
