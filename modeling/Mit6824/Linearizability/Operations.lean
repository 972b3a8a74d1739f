import Mathlib.Data.List.FinRange
import Mit6824.Linearizability.Entries

/-!
# Histories of operations

A history is given as operations with the times of their calls and returns. If every call is
before its return and no two times are the same, its entries by time are well formed, and being
linearizable is the same for the entries and for the operations with their times.
-/

namespace Mit6824.Linearizability

open Linearization

variable {ι ο σ : Type} {history : List (Operation ι ο)} {operation : Operation ι ο}
  {id p q : Nat}

/-- When something happened. -/
def timestamps (history : List (Operation ι ο)) : List Int :=
  history.flatMap fun operation => [operation.call, operation.returned]

/-- Every call is before its return, and no two things happened at the same time. -/
structure Timed (history : List (Operation ι ο)) : Prop where
  proper : ∀ operation ∈ history, operation.call < operation.returned
  distinct : (timestamps history).Nodup

/-- The model takes the operation with its recorded output. -/
def Model.perform (model : Model ι ο σ) (state : σ) (operation : Operation ι ο) : Option σ :=
  let (ok, newState) := model.step state operation.input operation.output
  if ok then some newState else none

/-- The operation `a` was over before `b` began. -/
def Before (a b : Operation ι ο) : Prop :=
  a.returned < b.call

namespace Operation

def callEntry (operation : Operation ι ο) (id : Nat) : Entry ι ο :=
  ⟨.call operation.input, id, operation.call⟩

def returnEntry (operation : Operation ι ο) (id : Nat) : Entry ι ο :=
  ⟨.returned operation.output, id, operation.returned⟩

theorem countP_isCallOf (operation : Operation ι ο) (k id : Nat) :
    [operation.callEntry k, operation.returnEntry k].countP (Entry.isCallOf id) =
      if k = id then 1 else 0 := by
  by_cases own : k = id <;>
    simp [callEntry, returnEntry, Entry.isCallOf, Entry.isReturn, own]

theorem countP_isReturnOf (operation : Operation ι ο) (k id : Nat) :
    [operation.callEntry k, operation.returnEntry k].countP (Entry.isReturnOf id) =
      if k = id then 1 else 0 := by
  by_cases own : k = id <;>
    simp [callEntry, returnEntry, Entry.isReturnOf, Entry.isReturn, own]

end Operation

/-! ## The entries before they are sorted -/

theorem time_entriesFrom (k : Nat) (history : List (Operation ι ο)) :
    (entriesFrom k history).map Entry.time = timestamps history := by
  induction history generalizing k with
  | nil => rfl
  | cons operation history ih => simp [entriesFrom, timestamps, ih (k + 1)]

/-- What picks out one of the two entries of an operation picks out one of all. -/
theorem countP_entriesFrom {found : Entry ι ο → Bool}
    (once : ∀ (operation : Operation ι ο) k,
      [operation.callEntry k, operation.returnEntry k].countP found = if k = id then 1 else 0)
    (k : Nat) (history : List (Operation ι ο)) :
    (entriesFrom k history).countP found =
      if k ≤ id ∧ id < k + history.length then 1 else 0 := by
  induction history generalizing k with
  | nil => simp [entriesFrom]
  | cons operation history ih =>
      have split : entriesFrom k (operation :: history) =
          [operation.callEntry k, operation.returnEntry k] ++ entriesFrom (k + 1) history := rfl
      rw [split, List.countP_append, once, ih, List.length_cons]
      split_ifs <;> omega

theorem mem_entriesFrom (k : Nat) (position : history[id]? = some operation) :
    operation.callEntry (k + id) ∈ entriesFrom k history ∧
      operation.returnEntry (k + id) ∈ entriesFrom k history := by
  induction history generalizing k id with
  | nil => simp at position
  | cons first history ih =>
      cases id with
      | zero =>
          obtain rfl : first = operation := by simpa using position
          simp [entriesFrom, Operation.callEntry, Operation.returnEntry]
      | succ id =>
          obtain ⟨call, ret⟩ := ih (k + 1) (by simpa using position)
          rw [Nat.add_right_comm k 1 id] at call ret
          exact ⟨List.mem_cons_of_mem _ (List.mem_cons_of_mem _ call),
            List.mem_cons_of_mem _ (List.mem_cons_of_mem _ ret)⟩

theorem id_entriesFrom_lt (k : Nat) (history : List (Operation ι ο)) :
    ∀ elem ∈ entriesFrom k history, elem.id < k + history.length := by
  induction history generalizing k with
  | nil => simp [entriesFrom]
  | cons operation history ih =>
      intro elem member
      rw [entriesFrom, List.mem_cons, List.mem_cons] at member
      rw [List.length_cons]
      rcases member with rfl | rfl | member
      · show k < _
        omega
      · show k < _
        omega
      · have later := ih (k + 1) elem member
        omega

/-! ## The entries by time -/

theorem perm_makeEntries (history : List (Operation ι ο)) :
    (makeEntries history).Perm (entriesFrom 0 history) :=
  List.perm_insertionSort _ _

theorem countP_makeEntries {found : Entry ι ο → Bool}
    (once : ∀ (operation : Operation ι ο) k,
      [operation.callEntry k, operation.returnEntry k].countP found = if k = id then 1 else 0)
    (bound : id < history.length) : (makeEntries history).countP found = 1 := by
  rw [(perm_makeEntries history).countP_eq, countP_entriesFrom once]
  simp [bound]

theorem getElem?_callIndex (position : history[id]? = some operation) :
    (makeEntries history)[callIndex (makeEntries history) id]? = some (operation.callEntry id) := by
  have bound := (List.getElem?_eq_some_iff.1 position).1
  have member := (mem_entriesFrom 0 position).1
  rw [Nat.zero_add] at member
  exact getElem?_findIdx_of_mem
    (countP_makeEntries (fun operation k => operation.countP_isCallOf k id) bound)
    ((perm_makeEntries history).mem_iff.2 member)
    (by simp [Operation.callEntry, Entry.isCallOf, Entry.isReturn])

theorem getElem?_returnIndex (position : history[id]? = some operation) :
    (makeEntries history)[returnIndex (makeEntries history) id]? =
      some (operation.returnEntry id) := by
  have bound := (List.getElem?_eq_some_iff.1 position).1
  have member := (mem_entriesFrom 0 position).2
  rw [Nat.zero_add] at member
  exact getElem?_findIdx_of_mem
    (countP_makeEntries (fun operation k => operation.countP_isReturnOf k id) bound)
    ((perm_makeEntries history).mem_iff.2 member)
    (by simp [Operation.returnEntry, Entry.isReturnOf, Entry.isReturn])

theorem Timed.sorted (timed : Timed history) :
    (makeEntries history).Pairwise fun a b => a.time < b.time := by
  have total : Std.Total fun a b : Entry ι ο => a.time ≤ b.time := ⟨fun a b => le_total _ _⟩
  have trans : IsTrans (Entry ι ο) fun a b => a.time ≤ b.time := ⟨fun a b c => le_trans⟩
  have ordered : (makeEntries history).Pairwise fun a b => a.time ≤ b.time :=
    List.pairwise_insertionSort _ _
  have distinct : ((makeEntries history).map Entry.time).Nodup := by
    rw [((perm_makeEntries history).map Entry.time).nodup_iff, time_entriesFrom]
    exact timed.distinct
  exact (ordered.and (List.pairwise_map.1 distinct)).imp fun both => lt_of_le_of_ne both.1 both.2

theorem Timed.lt_iff (timed : Timed history) {a b : Entry ι ο}
    (position : (makeEntries history)[p]? = some a)
    (position' : (makeEntries history)[q]? = some b) : p < q ↔ a.time < b.time := by
  have before := fun {p q} => List.pairwise_iff_getElem.1 timed.sorted p q
  obtain ⟨bound, rfl⟩ := List.getElem?_eq_some_iff.1 position
  obtain ⟨bound', rfl⟩ := List.getElem?_eq_some_iff.1 position'
  refine ⟨before bound bound', fun earlier => ?_⟩
  rcases Nat.lt_trichotomy p q with less | rfl | more
  · exact less
  · exact absurd earlier (lt_irrefl _)
  · exact absurd earlier (lt_asymm (before bound' bound more))

theorem Timed.wellFormed (timed : Timed history) :
    WellFormed (makeEntries history) history.length where
  ids := by
    intro elem member
    simpa using id_entriesFrom_lt 0 history elem ((perm_makeEntries history).mem_iff.1 member)
  calls id := countP_makeEntries fun operation k => operation.countP_isCallOf k id
  returns id := countP_makeEntries fun operation k => operation.countP_isReturnOf k id
  ordered id bound := by
    have position := List.getElem?_eq_getElem bound
    exact (timed.lt_iff (getElem?_callIndex position) (getElem?_returnIndex position)).2
      (timed.proper _ (List.getElem_mem bound))

theorem stepOf_makeEntries (model : Model ι ο σ) (state : σ)
    (position : history[id]? = some operation) :
    stepOf model (makeEntries history) state id = model.perform state operation := by
  rw [stepOf, operationOf, getElem?_callIndex position, getElem?_returnIndex position]
  rfl

theorem Timed.precedes_iff (timed : Timed history) {other : Operation ι ο} {id' : Nat}
    (position : history[id]? = some operation) (position' : history[id']? = some other) :
    Precedes (makeEntries history) id id' ↔ Before operation other :=
  timed.lt_iff (getElem?_returnIndex position) (getElem?_callIndex position')

/-- The order of the entries is the order of their times. -/
theorem Timed.linearizable_iff (timed : Timed history) (model : Model ι ο σ) :
    Linearizable model (makeEntries history) history.length ↔
      Completable Before model.perform history model.init := by
  have ids : List.range history.length = (List.finRange history.length).map Fin.val := by
    simp
  have operations : history = (List.finRange history.length).map history.get := by
    simp
  -- both are the positions in the history under another name
  let step (state : σ) (i : Fin history.length) := model.perform state (history.get i)
  let precedes (i j : Fin history.length) := Before (history.get i) (history.get j)
  have byId : Linearizable model (makeEntries history) history.length ↔
      Completable precedes step (List.finRange history.length) model.init := by
    rw [Linearizable, ids]
    refine completable_map (fun i _ j _ => ?_) fun state i _ => ?_
    · exact timed.precedes_iff (List.getElem?_eq_getElem i.2) (List.getElem?_eq_getElem j.2)
    · exact stepOf_makeEntries model state (List.getElem?_eq_getElem i.2)
  have byOperation : Completable Before model.perform history model.init ↔
      Completable precedes step (List.finRange history.length) model.init := by
    conv_lhs => rw [operations]
    exact completable_map (fun _ _ _ _ => Iff.rfl) fun _ _ _ => rfl
  exact byId.trans byOperation.symm

end Mit6824.Linearizability
