import Mit6824.Linearizability.Entries

/-!
# Lifting and putting back

The search takes operations out of the list one after the other and puts them back in the reverse
order. A node that was taken out keeps its pointers, and these are right again whenever the node
comes back: until then the list around it is what it was.
-/

namespace Mit6824.Linearizability

variable {ι ο : Type} {entries : List (Entry ι ο)} {id : Nat} {links : Links Nat}
  {calls : List Nat}

instance : Decidable (HasOperation entries id) :=
  decidable_of_iff (entries.countP (Entry.isCallOf id) = 1 ∧
    entries.countP (Entry.isReturnOf id) = 1 ∧ callIndex entries id < returnIndex entries id)
    ⟨fun ⟨call, returned, ordered⟩ => ⟨call, returned, ordered⟩,
      fun operation => ⟨operation.call, operation.returned, operation.ordered⟩⟩

/-- Every operation that occurs has one call and, later, one return. -/
def Paired (entries : List (Entry ι ο)) : Prop :=
  ∀ elem ∈ entries, HasOperation entries elem.id

instance : Decidable (Paired entries) :=
  inferInstanceAs (Decidable (∀ elem ∈ entries, HasOperation entries elem.id))

theorem WellFormed.paired {n : Nat} (wellFormed : WellFormed entries n) : Paired entries :=
  fun elem member => wellFormed.hasOperation (wellFormed.ids elem member)

/-- The nodes of the list with its head. -/
def nodesOf (entries : List (Entry ι ο)) : List (Node ι ο) :=
  withHead (makeLinkedEntries entries).nodes

/-- The pointers after the head has been put in front; the head is the node after the entries. -/
def linksOf (entries : List (Entry ι ο)) : Links Nat :=
  (makeLinkedEntries entries).links.insertBefore (makeLinkedEntries entries).nodes.length
    (makeLinkedEntries entries).root

def liftAll (entries : List (Entry ι ο)) (calls : List Nat) : Option (Links Nat) :=
  calls.foldlM (lift (nodesOf entries)) (linksOf entries)

def unliftAll (entries : List (Entry ι ο)) (links : Links Nat) (calls : List Nat) :
    Option (Links Nat) :=
  calls.foldlM (unlift (nodesOf entries)) links

/-- The entries whose calls have not been lifted. -/
def standing (entries : List (Entry ι ο)) (calls : List Nat) : List Nat :=
  entriesOf entries fun id => callIndex entries id ∉ calls

theorem standing_nil (entries : List (Entry ι ο)) :
    standing entries [] = List.range entries.length := by
  refine List.filter_eq_self.2 fun p member => ?_
  rw [List.getElem?_eq_getElem (List.mem_range.1 member)]
  simp

/-- The list is there, with the head in front. -/
def Stands (entries : List (Entry ι ο)) (links : Links Nat) (l : List Nat) : Prop :=
  links.Lists (entries.length :: l)

theorem stands_linksOf (entries : List (Entry ι ο)) :
    Stands entries (linksOf entries) (standing entries []) := by
  rw [standing_nil]
  exact lists_withHead entries

/-- What `lift` did to the list: the call at `p` and its return are missing, and `unlift` would
bring every pointer back. -/
structure Lifted (entries : List (Entry ι ο)) (before : List Nat) (p : Nat)
    (links links' : Links Nat) : Prop where
  lift : lift (nodesOf entries) links p = some links'
  exactly : ∃ elem front between back, entries[p]? = some elem ∧
    standing entries before = front ++ p :: (between ++ returnIndex entries elem.id :: back) ∧
    standing entries (before ++ [p]) = front ++ (between ++ back)
  stood : Stands entries links (standing entries before)
  stands : Stands entries links' (standing entries (before ++ [p]))
  unlift : unlift (nodesOf entries) links' p = some links

/-- No other operation is called there. -/
theorem HasOperation.callIndex_eq_iff (operation : HasOperation entries id) {q : Nat} :
    callIndex entries q = callIndex entries id ↔ q = id := by
  refine ⟨fun same => ?_, fun same => by rw [same]⟩
  obtain ⟨input, time, call⟩ := operation.exists_call
  obtain ⟨inside, found⟩ := List.getElem?_eq_some_iff.1 (same ▸ call)
  have satisfied : Entry.isCallOf q entries[callIndex entries q] = true :=
    List.findIdx_getElem (w := inside)
  rw [found] at satisfied
  exact (of_decide_eq_true (Bool.and_eq_true_iff.1 satisfied).2).symm

/-- One lift. -/
theorem HasOperation.exists_lifted (operation : HasOperation entries id)
    (stays : callIndex entries id ∉ calls)
    (stands : Stands entries links (standing entries calls)) :
    ∃ links', Lifted entries calls (callIndex entries id) links links' := by
  obtain ⟨input, output, _, node, _⟩ := operation.exists_nodes
  obtain ⟨input', time, call⟩ := operation.exists_call
  obtain ⟨front, between, back, split⟩ : ∃ front between back, standing entries calls =
      front ++ callIndex entries id :: (between ++ returnIndex entries id :: back) :=
    operation.exists_split (decide_eq_true stays)
  have without : standing entries (calls ++ [callIndex entries id]) =
      front ++ (between ++ back) := by
    refine operation.entriesOf_without (fun q => ?_) split
    rw [Bool.eq_iff_iff]
    simp [operation.callIndex_eq_iff, and_comm]
  have lists := stands
  rw [Stands, split, ← List.cons_append] at lists
  obtain ⟨links', lifted, lists', unlifted⟩ := exists_lift (List.cons_ne_nil _ _) node rfl lists
  refine ⟨links', lifted, ⟨_, front, between, back, call, split, without⟩, stands, ?_, unlifted⟩
  rw [without]
  exact lists'

/-- Every lift of a sequence takes out one operation, and putting the later ones back in the
reverse order leads to the pointers after it, from where one more `unlift` restores those
before it. -/
theorem unlift_restores_lift (paired : Paired entries) (calls : List Nat) (distinct : calls.Nodup)
    (areCalls : ∀ p ∈ calls, ∃ elem, entries[p]? = some elem ∧ elem.isReturn = false) :
    ∃ final, liftAll entries calls = some final ∧
      Stands entries final (standing entries calls) ∧
      ∀ before p after, calls = before ++ p :: after →
        ∃ links links', liftAll entries before = some links ∧
          Lifted entries before p links links' ∧
          unliftAll entries final after.reverse = some links' := by
  -- the lifts are undone from the last one on
  induction calls using List.reverseRecOn with
  | nil => exact ⟨_, rfl, stands_linksOf entries, fun before p after split => by simp at split⟩
  | append_singleton calls p ih =>
      have distinct := List.nodup_cons.1 (List.nodup_middle.1 distinct)
      rw [List.append_nil] at distinct
      obtain ⟨links, lifted, stands, earlier⟩ :=
        ih distinct.2 fun q member => areCalls q (List.mem_append_left _ member)
      obtain ⟨elem, position, call⟩ := areCalls p (by simp)
      have operation := paired elem (List.mem_of_getElem? position)
      obtain rfl := operation.eq_callIndex position call
      obtain ⟨final, last⟩ := operation.exists_lifted distinct.1 stands
      refine ⟨final, ?_, last.stands, fun before q after split => ?_⟩
      · rw [liftAll, List.foldlM_append, ← liftAll, lifted]
        simpa using last.lift
      · rcases List.eq_nil_or_concat' after with rfl | ⟨after, r, rfl⟩
        · obtain ⟨rfl, same⟩ := List.append_inj' split rfl
          obtain rfl := List.singleton_injective same
          exact ⟨links, final, lifted, last, rfl⟩
        · rw [← List.cons_append, ← List.append_assoc] at split
          obtain ⟨rfl, same⟩ := List.append_inj' split rfl
          obtain rfl := List.singleton_injective same
          obtain ⟨links₁, links₂, lifted₁, lifted₂, undone⟩ := earlier before q after rfl
          refine ⟨links₁, links₂, lifted₁, lifted₂, ?_⟩
          rw [List.reverse_concat', unliftAll, List.foldlM_cons, last.unlift]
          exact undone

/-- An operation inside of another one. -/
def nested : List (Entry Nat Nat) :=
  [⟨.call 5, 7, 0⟩, ⟨.call 6, 3, 1⟩, ⟨.returned 6, 3, 2⟩, ⟨.returned 5, 7, 3⟩]

theorem unlift_restores_lift_nested :
    Paired nested ∧ [1, 0].Nodup ∧ ∃ links final, liftAll nested [1] = some links ∧
      liftAll nested [1, 0] = some final ∧ Stands nested final (standing nested [1, 0]) ∧
      unlift (nodesOf nested) final 0 = some links := by
  have paired : Paired nested := by decide
  obtain ⟨final, lifted, stands, steps⟩ := unlift_restores_lift paired [1, 0] (by decide)
    (by simp [nested, Entry.isReturn])
  obtain ⟨links, links', earlier, last, rest⟩ := steps [1] 0 [] rfl
  obtain rfl : final = links' := Option.some.inj rest
  exact ⟨paired, by decide, links, final, earlier, lifted, stands, last.unlift⟩

end Mit6824.Linearizability
