import Mit6824.Linearizability.Checker
import Mit6824.Linearization

/-!
# Well-formed histories

A list of entries in which every operation has one call and, later, one return. Its linked list
has one node for each entry, in the same order, and each call knows its return. What the search
is to find out about it is `Linearizable`.
-/

namespace Mit6824.Linearizability

variable {ι ο σ : Type} {entries : List (Entry ι ο)} {elem : Entry ι ο} {n id p : Nat}

def callIndex (entries : List (Entry ι ο)) (id : Nat) : Nat :=
  entries.findIdx (Entry.isCallOf id)

def returnIndex (entries : List (Entry ι ο)) (id : Nat) : Nat :=
  entries.findIdx (Entry.isReturnOf id)

structure WellFormed (entries : List (Entry ι ο)) (n : Nat) : Prop where
  ids : ∀ elem ∈ entries, elem.id < n
  calls : ∀ id < n, entries.countP (Entry.isCallOf id) = 1
  returns : ∀ id < n, entries.countP (Entry.isReturnOf id) = 1
  ordered : ∀ id < n, callIndex entries id < returnIndex entries id

/-- The operation has one call and, later, one return. -/
structure HasOperation (entries : List (Entry ι ο)) (id : Nat) : Prop where
  call : entries.countP (Entry.isCallOf id) = 1
  returned : entries.countP (Entry.isReturnOf id) = 1
  ordered : callIndex entries id < returnIndex entries id

theorem WellFormed.hasOperation (wellFormed : WellFormed entries n) (bound : id < n) :
    HasOperation entries id :=
  ⟨wellFormed.calls id bound, wellFormed.returns id bound, wellFormed.ordered id bound⟩

/-- The input of an operation with its recorded output. -/
def operationOf (entries : List (Entry ι ο)) (id : Nat) : Option (ι × ο) :=
  match entries[callIndex entries id]?, entries[returnIndex entries id]? with
  | some ⟨.call input, _, _⟩, some ⟨.returned output, _, _⟩ => some (input, output)
  | _, _ => none

/-- The model takes the operation with its recorded output. -/
def stepOf (model : Model ι ο σ) (entries : List (Entry ι ο)) (state : σ) (id : Nat) :
    Option σ :=
  (operationOf entries id).bind fun operation =>
    let (ok, newState) := model.step state operation.1 operation.2
    if ok then some newState else none

/-- The operation `a` was over before `b` began. -/
def Precedes (entries : List (Entry ι ο)) (a b : Nat) : Prop :=
  returnIndex entries a < callIndex entries b

/-- The model takes all operations in some order that respects which were over before which. -/
def Linearizable (model : Model ι ο σ) (entries : List (Entry ι ο)) (n : Nat) : Prop :=
  Linearization.Completable (Precedes entries) (stepOf model entries) (List.range n) model.init

/-! ## Positions -/

section FindIdx

variable {α : Type} {found : α → Bool} {l : List α} {a : α} {i : Nat}

/-- If there is only one, it is the first one. -/
theorem eq_findIdx_of_countP_eq_one (one : l.countP found = 1) (position : l[i]? = some a)
    (satisfied : found a = true) : i = l.findIdx found := by
  induction l generalizing i with
  | nil => simp at position
  | cons b l ih =>
      rw [List.countP_cons] at one
      cases i with
      | zero =>
          obtain rfl : b = a := by simpa using position
          simp [List.findIdx_cons, satisfied]
      | succ i =>
          have position : l[i]? = some a := by simpa using position
          by_cases first : found b = true
          · have none : l.countP found = 0 := by simpa [first] using one
            exact absurd satisfied (List.countP_eq_zero.1 none a (List.mem_of_getElem? position))
          · have one : l.countP found = 1 := by simpa [first] using one
            simp [List.findIdx_cons, first, ih one position]

theorem getElem?_findIdx_of_mem (one : l.countP found = 1) (member : a ∈ l)
    (satisfied : found a = true) : l[l.findIdx found]? = some a := by
  obtain ⟨i, position⟩ := List.mem_iff_getElem?.1 member
  rwa [← eq_findIdx_of_countP_eq_one one position satisfied]

theorem exists_getElem?_findIdx (one : l.countP found = 1) :
    ∃ a, l[l.findIdx found]? = some a ∧ found a = true := by
  obtain ⟨a, member, satisfied⟩ := List.countP_pos_iff.1 (by omega : 0 < l.countP found)
  exact ⟨a, getElem?_findIdx_of_mem one member satisfied, satisfied⟩

theorem findIdx?_drop (one : l.countP found = 1) (bound : i ≤ l.findIdx found) :
    (l.drop i).findIdx? found = some (l.findIdx found - i) := by
  obtain ⟨a, position, satisfied⟩ := exists_getElem?_findIdx one
  have position' : (l.drop i)[l.findIdx found - i]? = some a := by
    rw [List.getElem?_drop, Nat.add_sub_cancel' bound, position]
  have exists' : ∃ a, a ∈ l.drop i ∧ found a := ⟨a, List.mem_of_getElem? position', satisfied⟩
  have one' : (l.drop i).countP found = 1 := by
    have most := (List.drop_sublist i l).countP_le (p := found)
    have least := List.countP_pos_iff.2 exists'
    omega
  rw [List.findIdx?_eq_some_of_exists exists', eq_findIdx_of_countP_eq_one one' position' satisfied]

end FindIdx

namespace HasOperation

theorem eq_callIndex (operation : HasOperation entries elem.id) (position : entries[p]? = some elem)
    (call : elem.isReturn = false) : p = callIndex entries elem.id :=
  eq_findIdx_of_countP_eq_one operation.call position (by simp [Entry.isCallOf, call])

theorem eq_returnIndex (operation : HasOperation entries elem.id)
    (position : entries[p]? = some elem) (ret : elem.isReturn = true) :
    p = returnIndex entries elem.id :=
  eq_findIdx_of_countP_eq_one operation.returned position (by simp [Entry.isReturnOf, ret])

theorem exists_call (operation : HasOperation entries id) :
    ∃ input time, entries[callIndex entries id]? = some ⟨.call input, id, time⟩ := by
  obtain ⟨⟨value, id', time⟩, position, call⟩ := exists_getElem?_findIdx operation.call
  cases value with
  | call input =>
      obtain rfl : id' = id := by simpa [Entry.isCallOf, Entry.isReturn] using call
      exact ⟨input, time, position⟩
  | returned output => simp [Entry.isCallOf, Entry.isReturn] at call

theorem exists_return (operation : HasOperation entries id) :
    ∃ output time, entries[returnIndex entries id]? = some ⟨.returned output, id, time⟩ := by
  obtain ⟨⟨value, id', time⟩, position, ret⟩ := exists_getElem?_findIdx operation.returned
  cases value with
  | call input => simp [Entry.isReturnOf, Entry.isReturn] at ret
  | returned output =>
      obtain rfl : id' = id := by simpa [Entry.isReturnOf, Entry.isReturn] using ret
      exact ⟨output, time, position⟩

/-- An operation has no other entries. -/
theorem id_eq_iff (operation : HasOperation entries id) (position : entries[p]? = some elem) :
    elem.id = id ↔ p = callIndex entries id ∨ p = returnIndex entries id := by
  constructor
  · rintro rfl
    cases ret : elem.isReturn with
    | false => exact .inl (operation.eq_callIndex position ret)
    | true => exact .inr (operation.eq_returnIndex position ret)
  · obtain ⟨input, time, call⟩ := operation.exists_call
    obtain ⟨output, time', ret⟩ := operation.exists_return
    rintro (rfl | rfl) <;> simp_all

end HasOperation

namespace WellFormed

theorem exists_call (wellFormed : WellFormed entries n) (bound : id < n) :
    ∃ input time, entries[callIndex entries id]? = some ⟨.call input, id, time⟩ :=
  (wellFormed.hasOperation bound).exists_call

theorem exists_return (wellFormed : WellFormed entries n) (bound : id < n) :
    ∃ output time, entries[returnIndex entries id]? = some ⟨.returned output, id, time⟩ :=
  (wellFormed.hasOperation bound).exists_return

end WellFormed

/-! ## The nodes -/

theorem length_linkEntries (i : Nat) (entries : List (Entry ι ο)) :
    (linkEntries i entries).1.nodes.length = entries.length := by
  induction entries generalizing i with
  | nil => rfl
  | cons elem entries ih =>
      rw [linkEntries, linkEntry]
      split <;> simp [ih]

/-- The map knows the first return of each operation. -/
theorem lookup_linkEntries (i : Nat) (entries : List (Entry ι ο)) (id : Nat) :
    (linkEntries i entries).2.lookup id =
      (entries.findIdx? (Entry.isReturnOf id)).map (· + i) := by
  induction entries generalizing i with
  | nil => rfl
  | cons elem entries ih =>
      have shift : (fun x => x + (i + 1)) = (· + i) ∘ (· + 1) := by
        funext x
        simp only [Function.comp_apply]
        omega
      obtain ⟨value, id', time⟩ := elem
      cases value with
      | call input => simp [linkEntries, linkEntry, ih, List.findIdx?_cons, shift, Entry.isReturnOf,
          Entry.isReturn]
      | returned output =>
          by_cases own : id' = id
          · simp [linkEntries, linkEntry, List.findIdx?_cons, Entry.isReturnOf, Entry.isReturn, own]
          · simp [linkEntries, linkEntry, List.findIdx?_cons, Entry.isReturnOf, Entry.isReturn, own,
              Finmap.lookup_insert_of_ne _ (Ne.symm own), ih, shift]

/-- A call points to the first return of its operation behind it. -/
theorem getElem?_linkEntries (i : Nat) (position : entries[p]? = some elem) :
    (linkEntries i entries).1.nodes[p]? = some ⟨some elem.value,
      if elem.isReturn then none
      else ((entries.drop (p + 1)).findIdx? (Entry.isReturnOf elem.id)).map (· + (i + p + 1)),
      elem.id⟩ := by
  induction entries generalizing i p with
  | nil => simp at position
  | cons elem' entries ih =>
      cases p with
      | zero =>
          obtain rfl : elem' = elem := by simpa using position
          cases value : elem'.value with
          | call input =>
              simp [linkEntries, linkEntry, value, Entry.isReturn, lookup_linkEntries]
          | returned output => simp [linkEntries, linkEntry, value, Entry.isReturn]
      | succ p =>
          have rest := ih (i + 1) (by simpa using position)
          have shift : i + 1 + p + 1 = i + (p + 1) + 1 := by omega
          rw [shift] at rest
          cases value : elem'.value with
          | call input => simpa [linkEntries, linkEntry, value] using rest
          | returned output => simpa [linkEntries, linkEntry, value] using rest

theorem getElem?_withHead {nodes : List (Node ι ο)} {node : Node ι ο}
    (found : nodes[p]? = some node) : (withHead nodes)[p]? = some node := by
  rw [withHead, List.getElem?_append_left (List.getElem?_eq_some_iff.1 found).1, found]

/-- Every operation has its two nodes, and its call knows its return. -/
theorem HasOperation.exists_nodes (operation : HasOperation entries id) :
    ∃ input output, operationOf entries id = some (input, output) ∧
      (withHead (makeLinkedEntries entries).nodes)[callIndex entries id]? =
        some ⟨some (.call input), some (returnIndex entries id), id⟩ ∧
      (withHead (makeLinkedEntries entries).nodes)[returnIndex entries id]? =
        some ⟨some (.returned output), none, id⟩ := by
  obtain ⟨input, time, call⟩ := operation.exists_call
  obtain ⟨output, time', ret⟩ := operation.exists_return
  refine ⟨input, output, by rw [operationOf, call, ret], ?_, ?_⟩
  · have ordered := operation.ordered
    have matching : (entries.drop (callIndex entries id + 1)).findIdx? (Entry.isReturnOf id) =
        some (returnIndex entries id - (callIndex entries id + 1)) :=
      findIdx?_drop operation.returned (Nat.succ_le_of_lt ordered)
    have node := getElem?_withHead (getElem?_linkEntries 0 call)
    have shift : returnIndex entries id - (callIndex entries id + 1) + (callIndex entries id + 1) =
        returnIndex entries id := by omega
    rw [makeLinkedEntries, node, matching]
    simp [Entry.isReturn, shift]
  · exact getElem?_withHead (getElem?_linkEntries 0 ret)

theorem WellFormed.exists_operation (wellFormed : WellFormed entries n) (bound : id < n) :
    ∃ input output, operationOf entries id = some (input, output) ∧
      (withHead (makeLinkedEntries entries).nodes)[callIndex entries id]? =
        some ⟨some (.call input), some (returnIndex entries id), id⟩ ∧
      (withHead (makeLinkedEntries entries).nodes)[returnIndex entries id]? =
        some ⟨some (.returned output), none, id⟩ :=
  (wellFormed.hasOperation bound).exists_nodes

/-! ## The links -/

/-- The entries from `i` on stand in the list, and no other node points anywhere. -/
structure Linked (links : Links Nat) (i length : Nat) : Prop where
  lists : links.Lists (List.range' i length)
  next : ∀ a, a ∉ List.range' i length → links.next a = none
  prev : ∀ a ≤ i, links.prev a = none

theorem root_linkEntries (i : Nat) (entries : List (Entry ι ο)) :
    (linkEntries i entries).1.root = (List.range' i entries.length).head? := by
  cases entries with
  | nil => rfl
  | cons elem entries =>
      rw [linkEntries, linkEntry]
      split <;> simp [List.range'_succ]

theorem links_linkEntry (i : Nat) (elem : Entry ι ο) (made : Subhistory ι ο × GoMap Nat Nat) :
    (linkEntry i elem made).1.links = made.1.links.insertBefore i made.1.root := by
  rw [linkEntry]
  split <;> rfl

theorem Linked.first {links : Links Nat} {i length : Nat} (linked : Linked links i length) :
    ∀ mark ∈ (List.range' i length).head?, links.prev mark = none := by
  intro mark member
  cases length with
  | zero => simp at member
  | succ length =>
      obtain rfl : i = mark := by simpa [List.range'_succ] using member
      exact linked.prev i le_rfl

theorem Linked.insertBefore {links : Links Nat} {i length : Nat}
    (linked : Linked links (i + 1) length) :
    Linked (links.insertBefore i (List.range' (i + 1) length).head?) i (length + 1) := by
  refine ⟨?_, fun a outside => ?_, fun a early => ?_⟩
  · rw [List.range'_succ]
    exact linked.lists.insertBefore (by simp) linked.first (linked.next i (by simp))
  · rw [List.range'_succ, List.mem_cons, not_or] at outside
    have next := linked.next a outside.2
    cases length with
    | zero => exact next
    | succ length =>
        have first := linked.prev (i + 1) le_rfl
        simp [Links.insertBefore, List.range'_succ, first, Links.setNext, Links.setPrev,
          outside.1, next]
  · have prev := linked.prev a (by omega)
    cases length with
    | zero => exact prev
    | succ length =>
        have first := linked.prev (i + 1) le_rfl
        have other : a ≠ i + 1 := by omega
        simp [Links.insertBefore, List.range'_succ, first, Links.setNext, Links.setPrev, other,
          prev]

theorem linked_linkEntries (i : Nat) (entries : List (Entry ι ο)) :
    Linked (linkEntries i entries).1.links i entries.length := by
  induction entries generalizing i with
  | nil => exact ⟨⟨.nil, .nil, by simp [linkEntries]⟩, fun _ _ => rfl, fun _ _ => rfl⟩
  | cons elem entries ih =>
      rw [linkEntries, links_linkEntry, root_linkEntries]
      exact (ih (i + 1)).insertBefore

/-- The list after the head has been put in front of it. -/
theorem lists_withHead (entries : List (Entry ι ο)) :
    ((makeLinkedEntries entries).links.insertBefore (makeLinkedEntries entries).nodes.length
      (makeLinkedEntries entries).root).Lists (entries.length :: List.range entries.length) := by
  have linked := linked_linkEntries 0 entries
  rw [makeLinkedEntries, length_linkEntries, root_linkEntries, List.range_eq_range']
  exact linked.lists.insertBefore (by simp) linked.first (linked.next _ (by simp))

theorem length_eq {links : Links Nat} {front back : List Nat} {limit : Nat}
    (lists : links.Lists (front ++ back)) (bound : back.length ≤ limit) :
    length links limit back.head? = some back.length := by
  induction back generalizing front limit with
  | nil => simp [length]
  | cons a back ih =>
      obtain ⟨limit, rfl⟩ := Nat.exists_eq_succ_of_ne_zero (by simp at bound; omega : limit ≠ 0)
      have lists' : links.Lists (front ++ [a] ++ back) := by simpa using lists
      have rest := ih lists' (by simpa using bound)
      rw [← lists.next_eq] at rest
      simp [length, rest]

/-! ## The entries of some operations -/

/-- The positions of the entries of the operations that are kept. -/
def entriesOf (entries : List (Entry ι ο)) (keep : Nat → Bool) : List Nat :=
  (List.range entries.length).filter fun p => (entries[p]?).any fun elem => keep elem.id

section EntriesOf

variable {keep keep' : Nat → Bool}

theorem entriesOf_sorted (entries : List (Entry ι ο)) (keep : Nat → Bool) :
    (entriesOf entries keep).Pairwise (· < ·) :=
  List.pairwise_lt_range.filter _

theorem entriesOf_nodup (entries : List (Entry ι ο)) (keep : Nat → Bool) :
    (entriesOf entries keep).Nodup :=
  (entriesOf_sorted entries keep).imp ne_of_lt

theorem mem_entriesOf (position : entries[p]? = some elem) :
    p ∈ entriesOf entries keep ↔ keep elem.id = true := by
  have bound := (List.getElem?_eq_some_iff.1 position).1
  rw [entriesOf, List.mem_filter, position, Option.any_some]
  exact and_iff_right (List.mem_range.2 bound)

/-- The entries of an operation among those of others, the call first. -/
theorem HasOperation.exists_split (operation : HasOperation entries id) (kept : keep id = true) :
    ∃ front between back, entriesOf entries keep =
      front ++ callIndex entries id :: (between ++ returnIndex entries id :: back) := by
  obtain ⟨input, time, call⟩ := operation.exists_call
  obtain ⟨output, time', ret⟩ := operation.exists_return
  obtain ⟨front, rest, split⟩ := List.append_of_mem ((mem_entriesOf call).2 kept)
  have member : returnIndex entries id ∈ front ++ callIndex entries id :: rest :=
    split ▸ (mem_entriesOf ret).2 kept
  have sorted := split ▸ entriesOf_sorted entries keep
  have ordered := operation.ordered
  have notFront : returnIndex entries id ∉ front := fun found =>
    ordered.asymm ((List.pairwise_append.1 sorted).2.2 _ found _ List.mem_cons_self)
  have behind := (List.mem_append.1 member).resolve_left notFront
  obtain ⟨between, back, rfl⟩ :=
    List.append_of_mem ((List.mem_cons.1 behind).resolve_left ordered.ne')
  exact ⟨front, between, back, split⟩

/-- One operation less is kept: its two entries are missing. -/
theorem HasOperation.entriesOf_without {front between back : List Nat}
    (operation : HasOperation entries id) (without : ∀ q, keep' q = (!decide (q = id) && keep q))
    (split : entriesOf entries keep =
      front ++ callIndex entries id :: (between ++ returnIndex entries id :: back)) :
    entriesOf entries keep' = front ++ (between ++ back) := by
  have nodup := entriesOf_nodup entries keep
  have erased : entriesOf entries keep' =
      ((entriesOf entries keep).erase (callIndex entries id)).erase (returnIndex entries id) := by
    rw [(nodup.erase _).erase_eq_filter, nodup.erase_eq_filter, entriesOf, entriesOf,
      List.filter_filter, List.filter_filter]
    refine List.filter_congr fun p member => ?_
    have within := List.mem_range.1 member
    have own := operation.id_eq_iff (List.getElem?_eq_getElem within)
    rw [Bool.eq_iff_iff]
    simp only [List.getElem?_eq_getElem within, Option.any_some, without, own]
    simp
    tauto
  rw [split] at nodup
  obtain ⟨notCall, nodup⟩ := List.nodup_cons.1 (List.nodup_middle.1 nodup)
  rw [← List.append_assoc] at nodup
  obtain ⟨notReturn, nodup⟩ := List.nodup_cons.1 (List.nodup_middle.1 nodup)
  rw [List.mem_append, not_or] at notCall notReturn
  rw [erased, split, List.erase_append_right _ notCall.1, List.erase_cons_head,
    ← List.append_assoc, List.erase_append_right _ notReturn.1, List.erase_cons_head,
    List.append_assoc]

end EntriesOf

end Mit6824.Linearizability
