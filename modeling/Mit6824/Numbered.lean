import Mit6824.Linearization

/-!
# Objects with numbered commands

An object is given one sequence of commands. Its clients number their commands, and a command may
stand in the sequence many times. A write is executed where its number exceeds that of every write
of its client before (`Executes`), and nowhere else; any other command is answered from the state
that some first part of the sequence leaves (`Reads`).

Operations that were executed or read somewhere in the sequence are accepted by the object in the
order of these places (`accepted_of_points`): a write comes right after the commands before it, and
a read after as many commands as its answer has seen.
-/

namespace Mit6824

/-- A sequential object whose commands have a client and a number. -/
structure Numbered (α β σ : Type) where
  client : α → Int
  number : α → Int
  isWrite : α → Bool
  start : σ
  execute : α → σ → σ
  /-- What a command that does not write is answered. -/
  answer : α → σ → β

namespace Numbered

variable {α β σ : Type} (object : Numbered α β σ)

/-- The number exceeds that of every write of the client before. -/
def isNew (earlier : List α) (op : α) : Bool :=
  earlier.all fun other =>
    !object.isWrite other || object.client other != object.client op ||
      object.number other < object.number op

/-- The state that the first commands leave. -/
def stage (ops : List α) : Nat → σ
  | 0 => object.start
  | k + 1 =>
      match ops[k]? with
      | none => stage ops k
      | some op =>
          if object.isWrite op && object.isNew (ops.take k) op then
            object.execute op (stage ops k)
          else stage ops k

/-- The write at position `k` is executed. -/
structure Executes (ops : List α) (k : Nat) (op : α) : Prop where
  found : ops[k]? = some op
  write : object.isWrite op = true
  new : object.isNew (ops.take k) op = true

/-- The command at position `g` is answered from the state that the first `r` commands leave. -/
structure Reads (ops : List α) (op : α) (answer : β) (g r : Nat) : Prop where
  read : object.isWrite op = false
  found : ops[g]? = some op
  later : g ≤ r
  within : r ≤ ops.length
  value : answer = object.answer op (object.stage ops r)

/-- What an answer rests on: a write of the client with this number or a greater one is in the
sequence, or the command with this number was read. -/
structure Answered (ops : List α) (op : α) (answer : β) : Prop where
  write : object.isWrite op = true → ∃ other ∈ ops, object.isWrite other = true ∧
    object.client other = object.client op ∧ object.number op ≤ object.number other
  read : object.isWrite op = false → ∃ other g r, object.client other = object.client op ∧
    object.number other = object.number op ∧ object.Reads ops other answer g r

/-- The commands that clients may have made: they meet a condition, they are numbered from `first`
on, and no client has used a number twice. -/
structure Regular (fits : α → Bool) (first : Int) (P : α → Prop) : Prop where
  fits : ∀ op, P op → fits op = true
  numbered : ∀ op, P op → first ≤ object.number op
  once : ∀ op op', P op → P op' → object.client op = object.client op' →
    object.number op = object.number op' → op = op'

variable {object} {ops : List α} {k m r r' : Nat} {op op' : α}

theorem isNew_iff {earlier : List α} : object.isNew earlier op = true ↔
    ∀ other ∈ earlier, object.isWrite other = true → object.client other = object.client op →
      object.number other < object.number op := by
  simp only [isNew, List.all_eq_true, Bool.or_eq_true, Bool.not_eq_true', bne_iff_ne,
    decide_eq_true_eq]
  refine forall₂_congr fun other _ => ?_
  rw [← Bool.not_eq_true]
  tauto

theorem getElem?_append_of_some (found : ops[k]? = some op) (more : List α) :
    (ops ++ more)[k]? = some op := by
  rw [List.getElem?_append_left (List.getElem?_eq_some_iff.1 found).1, found]

theorem stage_append (within : k ≤ ops.length) (more : List α) :
    object.stage (ops ++ more) k = object.stage ops k := by
  induction k with
  | zero => rfl
  | succ k ih =>
      rw [stage, stage, ih (by omega), List.getElem?_append_left within,
        List.take_append_of_le_length (by omega)]

theorem stage_of_not_executes (idle : ∀ op, ¬object.Executes ops k op) :
    object.stage ops (k + 1) = object.stage ops k := by
  rw [stage]
  split
  · rfl
  · rename_i op found
    refine if_neg fun taken => ?_
    obtain ⟨write, new⟩ := Bool.and_eq_true_iff.1 taken
    exact idle op ⟨found, write, new⟩

/-- Where no write is executed, the state stays. -/
theorem stage_of_idle (le : r ≤ r')
    (idle : ∀ m, r ≤ m → m < r' → ∀ op, ¬object.Executes ops m op) :
    object.stage ops r' = object.stage ops r := by
  induction r', le using Nat.le_induction with
  | base => rfl
  | succ m le ih =>
      rw [stage_of_not_executes (idle m le (Nat.lt_succ_self m))]
      exact ih fun k above below => idle k above (by omega)

namespace Executes

theorem append (executes : object.Executes ops k op) (more : List α) :
    object.Executes (ops ++ more) k op where
  found := getElem?_append_of_some executes.found more
  write := executes.write
  new := by
    rw [List.take_append_of_le_length (List.getElem?_eq_some_iff.1 executes.found).1.le]
    exact executes.new

theorem lt_length (executes : object.Executes ops k op) : k < ops.length :=
  (List.getElem?_eq_some_iff.1 executes.found).1

theorem stage_succ (executes : object.Executes ops k op) :
    object.stage ops (k + 1) = object.execute op (object.stage ops k) := by
  simp only [stage, executes.found, executes.write, executes.new, Bool.and_self, if_true]

/-- A write that stands before position `m` is not executed there. -/
theorem le_of_mem (executes : object.Executes ops m op) (found : ops[k]? = some op) : m ≤ k := by
  by_contra! before
  have member : op ∈ ops.take m :=
    List.mem_of_getElem? ((List.getElem?_take_of_lt before).trans found)
  exact absurd (isNew_iff.1 executes.new op member executes.write rfl) (lt_irrefl _)

theorem unique (executes : object.Executes ops k op) (executes' : object.Executes ops m op) :
    k = m :=
  le_antisymm (executes.le_of_mem executes'.found) (executes'.le_of_mem executes.found)

end Executes

/-- Of the writes of a client, one with the greatest number is executed. -/
theorem exists_executes (found : ops[k]? = some op) (write : object.isWrite op = true) :
    ∃ m op', object.Executes ops m op' ∧ object.client op' = object.client op ∧
      object.number op ≤ object.number op' := by
  induction k using Nat.strong_induction_on generalizing op with
  | _ k ih =>
      by_cases new : object.isNew (ops.take k) op = true
      · exact ⟨k, op, ⟨found, write, new⟩, rfl, le_rfl⟩
      · rw [isNew_iff] at new
        push Not at new
        obtain ⟨other, member, write', client, exceeds⟩ := new
        obtain ⟨j, before⟩ := List.mem_iff_getElem?.1 member
        have inside := (List.getElem?_eq_some_iff.1 before).1
        rw [List.length_take, lt_min_iff] at inside
        rw [List.getElem?_take_of_lt inside.1] at before
        obtain ⟨m, op', executes, client', exceeds'⟩ := ih j inside.1 before write'
        exact ⟨m, op', executes, client'.trans client, exceeds.trans exceeds'⟩

theorem Reads.append {answer : β} {g : Nat} (reads : object.Reads ops op answer g r)
    (more : List α) : object.Reads (ops ++ more) op answer g r where
  read := reads.read
  found := getElem?_append_of_some reads.found more
  later := reads.later
  within := reads.within.trans (by simp)
  value := by
    rw [stage_append reads.within]
    exact reads.value

/-! ## Points -/

variable (object) in
/-- An operation that was executed or read at a point of the sequence. -/
structure Placed (ops : List α) (op : α) (answer : Option β) (point : Nat) : Prop where
  write : object.isWrite op = true → object.Executes ops point op
  read : object.isWrite op = false → ∃ g v, answer = some v ∧ object.Reads ops op v g point

variable (object) in
/-- A write is behind the commands before it, and a read is behind those it has seen. -/
def rank (op : α) (point : Nat) : Nat :=
  if object.isWrite op then 2 * point + 1 else 2 * point

variable (object) in
/-- The object takes an operation with its answer. -/
def perform [DecidableEq β] (state : σ) (op : α) (answer : Option β) : Option σ :=
  if object.isWrite op then some (object.execute op state)
  else if answer = some (object.answer op state) then some state
  else none

theorem Placed.append {answer : Option β} {point : Nat} (placed : object.Placed ops op answer point)
    (more : List α) : object.Placed (ops ++ more) op answer point where
  write write := (placed.write write).append more
  read read := by
    obtain ⟨g, v, given, reads⟩ := placed.read read
    exact ⟨g, v, given, reads.append more⟩

/-- What was executed or read is behind nothing that is still to come. -/
theorem Placed.rank_le {answer : Option β} {point : Nat}
    (placed : object.Placed ops op answer point) : object.rank op point ≤ 2 * ops.length := by
  unfold rank
  split_ifs with write
  · have inside := (placed.write write).lt_length
    omega
  · obtain ⟨g, _, _, reads⟩ := placed.read (Bool.not_eq_true _ ▸ write)
    have within := reads.within
    omega

section Points

variable {ι : Type} [DecidableEq β] {command : ι → α} {answer : ι → Option β} {point : ι → Nat}

variable (ops point) in
/-- The object takes the operations in the order of their points, from the state that the first `r`
commands leave, if everything that is executed from there on is among them. -/
theorem accepted_of_points {items : List ι} (nodup : items.Nodup)
    (once : ∀ a ∈ items, ∀ b ∈ items, command a = command b → a = b)
    (placed : ∀ a ∈ items, object.Placed ops (command a) (answer a) (point a))
    (sorted : items.Pairwise fun a b =>
      object.rank (command a) (point a) ≤ object.rank (command b) (point b))
    (ahead : ∀ a ∈ items, 2 * r ≤ object.rank (command a) (point a))
    (complete : ∀ m op, r ≤ m → object.Executes ops m op → ∃ a ∈ items, command a = op) :
    (items.foldlM (fun state a => object.perform state (command a) (answer a))
      (object.stage ops r)).isSome = true := by
  induction items generalizing r with
  | nil => rfl
  | cons a rest ih =>
      obtain ⟨first, sorted⟩ := List.pairwise_cons.1 sorted
      obtain ⟨fresh, nodup⟩ := List.nodup_cons.1 nodup
      have member : a ∈ a :: rest := List.mem_cons_self
      have later : ∀ b ∈ rest, b ∈ a :: rest := fun b => List.mem_cons_of_mem a
      have here := placed a member
      have reached := ahead a member
      -- Nothing is executed between the place of the state and that of the operation.
      have idle : ∀ m, r ≤ m → m < point a → ∀ op, ¬object.Executes ops m op := by
        intro m above below op executes
        obtain ⟨b, found, rfl⟩ := complete m op above executes
        have same := executes.unique ((placed b found).write executes.write)
        have le : object.rank (command a) (point a) ≤ object.rank (command b) (point b) := by
          rcases List.mem_cons.1 found with rfl | found
          · exact le_rfl
          · exact first b found
        simp only [rank, executes.write, if_true] at le
        split_ifs at le <;> omega
      have le : r ≤ point a := by
        unfold rank at reached
        split_ifs at reached <;> omega
      rw [← stage_of_idle le idle]
      by_cases write : object.isWrite (command a) = true
      · have executes := here.write write
        refine Linearization.isSome_foldlM_cons.2 ⟨object.stage ops (point a + 1), ?_, ih nodup
          (fun b found c found' => once b (later b found) c (later c found'))
          (fun b found => placed b (later b found)) sorted (fun b found => ?_) ?_⟩
        · rw [perform, if_pos write, executes.stage_succ]
        · have le := first b found
          simp only [rank, write, if_true] at le
          unfold rank
          split_ifs at le ⊢ with write'
          · -- No other write is executed at this place.
            have apart : point b ≠ point a := by
              intro same
              have executes' := (placed b (later b found)).write write'
              rw [same] at executes'
              have equal := Option.some.inj (executes.found.symm.trans executes'.found)
              exact fresh (once a member b (later b found) equal ▸ found)
            omega
          · omega
        · intro m op above executes'
          obtain ⟨b, found, rfl⟩ := complete m op (by omega) executes'
          rcases List.mem_cons.1 found with rfl | found
          · have same := executes.unique executes'
            omega
          · exact ⟨b, found, rfl⟩
      · obtain ⟨g, v, given, reads⟩ := here.read (Bool.not_eq_true _ ▸ write)
        refine Linearization.isSome_foldlM_cons.2 ⟨object.stage ops (point a), ?_, ih nodup
          (fun b found c found' => once b (later b found) c (later c found'))
          (fun b found => placed b (later b found)) sorted (fun b found => ?_) ?_⟩
        · rw [perform, if_neg write, given, reads.value, if_pos rfl]
        · have le := first b found
          rwa [rank, if_neg write] at le
        · intro m op above executes
          obtain ⟨b, found, rfl⟩ := complete m op (by omega) executes
          rcases List.mem_cons.1 found with rfl | found
          · exact absurd executes.write write
          · exact ⟨b, found, rfl⟩

end Points

end Numbered

end Mit6824
