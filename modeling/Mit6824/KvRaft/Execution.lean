import Mit6824.KvRaft.ExactlyOnce
import Mit6824.KvRaft.Replicas
import Mit6824.Linearizability.CheckOperations
import Mit6824.Numbered

/-!
# The store that the service is for

Commands are numbered from `1` on by each client. `store` is the sequential object: a write is
executed once, where its number is new, and a `Get` is answered from the map. A server that has
applied the first commands of a sequence has the map of the object (`rsm_stage`), since the numbers
it records tell the writes that are new from the others (`isNew_iff_maxSeq_lt`).

The checker's model takes what the object takes (`storeStep_write`, `storeStep_get`).
-/

namespace Mit6824.KvRaft

open Linearizability Linearization

/-- One map of all keys. -/
def store : Numbered Op String (GoMap String String) where
  client := Op.clientID
  number := Op.proposalID
  isWrite := Op.isWrite
  start := ∅
  execute := Op.execute
  answer op rsm := (rsm.lookup op.key).getD ""

variable {ops : List Op} {r : Nat} {op : Op}

theorem stage_succ {k : Nat} (found : ops[k]? = some op) :
    stage ops (k + 1) = (stage ops k).applyOp op := by
  rw [stage, List.take_add_one, found, KVServer.applyOps, List.foldl_append]
  rfl

theorem stage_succ_of_none {k : Nat} (missing : ops[k]? = none) :
    stage ops (k + 1) = stage ops k := by
  rw [stage, List.take_add_one, missing, Option.toList_none, List.append_nil, stage]

/-- A number that is recorded is that of a write. -/
theorem exists_write_of_maxSeq {client : Int} (recorded : 0 < (stage ops r).maxSeq client) :
    ∃ op ∈ ops.take r, op.isWrite = true ∧ op.clientID = client ∧
      op.proposalID = (stage ops r).maxSeq client := by
  induction r with
  | zero => simp [stage, KVServer.applyOps, KVServer.start, KVServer.maxSeq] at recorded
  | succ r ih =>
      have more : ∀ op ∈ ops.take r, op ∈ ops.take (r + 1) :=
        fun op member => List.take_subset_take_left ops (Nat.le_succ r) member
      cases found : ops[r]? with
      | none =>
          rw [stage_succ_of_none found] at recorded ⊢
          obtain ⟨op, member, write⟩ := ih recorded
          exact ⟨op, more op member, write⟩
      | some op =>
          have last : op ∈ ops.take (r + 1) := by
            rw [List.take_add_one, found]
            simp
          rw [stage_succ found] at recorded ⊢
          by_cases write : op.isWrite = true
          · rcases le_or_gt op.proposalID ((stage ops r).maxSeq op.clientID) with old | new
            · rw [KVServer.applyOp_old write old] at recorded ⊢
              obtain ⟨op, member, write⟩ := ih recorded
              exact ⟨op, more op member, write⟩
            · rw [KVServer.maxSeq_applyOp_new write new] at recorded ⊢
              by_cases same : client = op.clientID
              · exact ⟨op, last, write, same.symm, by rw [same, Function.update_self]⟩
              · rw [Function.update_of_ne same] at recorded ⊢
                obtain ⟨op, member, write⟩ := ih recorded
                exact ⟨op, more op member, write⟩
          · rw [KVServer.applyOp_get (not_not.1 (mt Op.isWrite_iff.2 write))] at recorded ⊢
            obtain ⟨op, member, write⟩ := ih recorded
            exact ⟨op, more op member, write⟩

/-- The recorded numbers tell which writes are new. -/
theorem isNew_iff_maxSeq_lt (positive : 0 < op.proposalID) :
    store.isNew (ops.take r) op = true ↔ (stage ops r).maxSeq op.clientID < op.proposalID := by
  rw [Numbered.isNew_iff]
  constructor
  · intro new
    by_contra! old
    obtain ⟨other, member, write, client, number⟩ := exists_write_of_maxSeq (positive.trans_le old)
    have less : other.proposalID < op.proposalID := new other member write client
    omega
  · intro above other member write client
    have covered : other.proposalID ≤ (stage ops r).maxSeq other.clientID :=
      KVServer.covers_applyOps _ _ other member write
    have same : other.clientID = op.clientID := client
    rw [same] at covered
    exact covered.trans_lt above

/-- The map of a server that has applied the first commands. -/
theorem rsm_stage (positive : ∀ op ∈ ops, 0 < op.proposalID) (r : Nat) :
    (stage ops r).rsm = store.stage ops r := by
  induction r with
  | zero => rfl
  | succ r ih =>
      cases found : ops[r]? with
      | none => rw [stage_succ_of_none found, ih, Numbered.stage, found]
      | some op =>
          have new : store.isNew (ops.take r) op = true ↔ _ :=
            isNew_iff_maxSeq_lt (positive op (List.mem_of_getElem? found))
          rw [stage_succ found]
          by_cases executes : store.Executes ops r op
          · rw [KVServer.applyOp_new executes.write (new.1 executes.new), executes.stage_succ, ← ih]
            rfl
          · have idle : ∀ other, ¬store.Executes ops r other := by
              intro other executes'
              obtain rfl := Option.some.inj (found.symm.trans executes'.found)
              exact executes executes'
            rw [Numbered.stage_of_not_executes idle, ← ih]
            by_cases write : op.isWrite = true
            · have old := not_lt.1 fun above => executes ⟨found, write, new.2 above⟩
              rw [KVServer.applyOp_old write old]
            · rw [KVServer.applyOp_get (not_not.1 (mt Op.isWrite_iff.2 write))]

theorem Reads.store {answer : String} {g : Nat} (reads : Reads ops op answer g r)
    (positive : ∀ op ∈ ops, 0 < op.proposalID) : store.Reads ops op answer g r where
  read := by simp [KvRaft.store, Op.isWrite, reads.get]
  found := reads.found
  later := reads.later
  within := reads.within
  value := by
    rw [reads.value, KVServer.value, rsm_stage positive]
    rfl

/-! ## The checker's model -/

/-- What the model makes of a write. -/
theorem storeStep_write (write : op.isWrite = true) {values : String → String}
    {rsm : GoMap String String} (agrees : ∀ key, values key = (rsm.lookup key).getD "")
    {operation : Operation KvInput KvOutput} (input : operation.input = op.input) :
    ∃ values', storeStep values operation = some values' ∧
      ∀ key, values' key = ((op.execute rsm).lookup key).getD "" := by
  cases type : op.optype with
  | getType => exact absurd type (Op.isWrite_iff.1 write)
  | putType | appendType =>
      simp only [storeStep, input, Op.input, type, Op.execute]
      refine ⟨_, rfl, fun key => ?_⟩
      by_cases here : key = op.key
      · subst here
        simp [agrees]
      · simp [Function.update_of_ne here, Finmap.lookup_insert_of_ne _ here, agrees]

/-- What the model makes of a `Get` that was answered. -/
theorem storeStep_get (get : op.optype = .getType) {values : String → String}
    {operation : Operation KvInput KvOutput} (input : operation.input = op.input)
    (output : operation.output.value = values op.key) :
    storeStep values operation = some values := by
  simp [storeStep, input, Op.input, get, output]

end Mit6824.KvRaft
