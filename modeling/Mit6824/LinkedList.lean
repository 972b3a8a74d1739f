import Mathlib.Data.List.Chain
import Mathlib.Data.List.Nodup
import Mathlib.Logic.Function.Basic

/-!
# Doubly linked lists

Nodes are anything that can be compared, and a list is made of the pointers between them. A node
that is taken out keeps its own two pointers; as long as nodes come back in the reverse of the
order in which they went, these are enough to put it where it was.
-/

namespace Mit6824

/-- The pointers of the nodes; `none` is nil. -/
structure Links (α : Type) where
  next : α → Option α
  prev : α → Option α

namespace Links

variable {α : Type}

/-- The nodes of `l`, in this order, with nothing behind them. -/
structure Lists (links : Links α) (l : List α) : Prop where
  nodup : l.Nodup
  linked : l.IsChain fun a b => links.next a = some b ∧ links.prev b = some a
  ends : ∀ a ∈ l.getLast?, links.next a = none

namespace Lists

variable {links links' : Links α} {front back : List α} {a before : α}

theorem next_eq (lists : links.Lists (front ++ a :: back)) : links.next a = back.head? := by
  cases back with
  | nil => exact lists.ends a (by simp)
  | cons b back =>
      have linked := (List.isChain_append.1 lists.linked).2.1
      exact (List.isChain_cons_cons.1 linked).1.1

theorem next_head (lists : links.Lists (a :: back)) : links.next a = back.head? := by
  have lists : links.Lists ([] ++ a :: back) := lists
  exact lists.next_eq

theorem prev_eq (lists : links.Lists (front ++ before :: a :: back)) :
    links.prev a = some before := by
  have linked := (List.isChain_append.1 lists.linked).2.1
  exact (List.isChain_cons_cons.1 linked).1.2

theorem rotate (lists : links.Lists (front ++ before :: a :: back)) :
    links.Lists (front ++ [before] ++ a :: back) := by
  rwa [List.append_assoc, List.singleton_append]

theorem distinct (lists : links.Lists (front ++ before :: a :: back)) : a ≠ before := by
  rintro rfl
  have nodup := lists.nodup
  simp [List.nodup_append] at nodup

/-- The part of the list before a node that is taken out. -/
theorem isChain_front (lists : links.Lists (front ++ before :: a :: back))
    (next : ∀ x, x ≠ before → links'.next x = links.next x)
    (prev : ∀ x ∈ front ++ [before], links'.prev x = links.prev x) :
    (front ++ [before]).IsChain fun x y => links'.next x = some y ∧ links'.prev y = some x := by
  obtain ⟨linked, _⟩ := List.isChain_split.1 lists.linked
  refine linked.imp_of_mem_imp fun x y _ member pair => ?_
  have other : x ≠ before := by
    rintro rfl
    have same : some a = some y := lists.next_eq.symm.trans pair.1
    obtain rfl := Option.some.inj same
    exact (List.nodup_append.1 lists.rotate.nodup).2.2 a member a List.mem_cons_self rfl
  exact ⟨(next x other).trans pair.1, (prev y member).trans pair.2⟩

end Lists

variable [DecidableEq α] (links : Links α)

def setNext (a : α) (node : Option α) : Links α :=
  { links with next := Function.update links.next a node }

def setPrev (a : α) (node : Option α) : Links α :=
  { links with prev := Function.update links.prev a node }

/-- Point `before` at `after` and back. -/
def bypass (before : α) : Option α → Links α
  | none => links.setNext before none
  | some after => (links.setNext before (some after)).setPrev after (some before)

/-- Take a node out; there has to be one before it. -/
def unlink (a : α) : Option (Links α) :=
  (links.prev a).map fun before => links.bypass before (links.next a)

/-- Put a node back between the nodes that it still points to. -/
def relink (a : α) : Option (Links α) :=
  (links.prev a).map fun before =>
    match links.next a with
    | none => links.setNext before (some a)
    | some after => (links.setNext before (some a)).setPrev after (some a)

/-- Put a new node before `mark`. -/
def insertBefore (a : α) : Option α → Links α
  | none => links
  | some mark =>
      let linked := (links.setPrev mark (some a)).setNext a (some mark)
      match links.prev mark with
      | none => linked
      | some before => (linked.setPrev a (some before)).setNext before (some a)

variable {links} {front back l : List α} {a before : α}

/-- The list without the node. -/
theorem Lists.bypass (lists : links.Lists (front ++ before :: a :: back)) :
    (links.bypass before back.head?).Lists (front ++ before :: back) := by
  have nodup : (front ++ before :: back).Nodup :=
    lists.nodup.sublist ((List.append_sublist_append_left front).2 (by simp))
  cases back with
  | nil =>
      refine ⟨nodup, ?_, by simp [Links.bypass, setNext]⟩
      exact lists.isChain_front (fun x other => Function.update_of_ne other _ _) fun _ _ => rfl
  | cons after back =>
      have moved := lists.rotate
      obtain ⟨_, _, linked⟩ := List.isChain_append_cons_cons.1 moved.linked
      have notFront : after ∉ front ++ [before] := fun member =>
        (List.nodup_append.1 moved.nodup).2.2 after member after (by simp) rfl
      have notBefore : before ∉ after :: back := by
        simpa using (List.nodup_append.1 nodup).2.1.notMem
      have notBack : after ∉ back := by
        have := (List.nodup_append.1 nodup).2.1
        simp_all
      refine ⟨nodup, List.isChain_append_cons_cons.2 ⟨?_, ?_, ?_⟩, ?_⟩
      · refine lists.isChain_front (fun x other => Function.update_of_ne other _ _) ?_
        intro x member
        have other : x ≠ after := fun same => notFront (same ▸ member)
        exact Function.update_of_ne other _ _
      · simp [Links.bypass, setNext, setPrev]
      · refine linked.imp_of_mem_tail_imp fun x y member member' pair => ?_
        have other : x ≠ before := fun same => notBefore (same ▸ member)
        have other' : y ≠ after := fun same => notBack (same ▸ member')
        simpa [Links.bypass, setNext, setPrev, other, other'] using pair
      · intro x last
        rw [List.getLast?_append_of_ne_nil _ (by simp), List.getLast?_cons_cons] at last
        have other : x ≠ before := fun same => notBefore (same ▸ List.mem_of_getLast? last)
        have ends := lists.ends x
          (by simpa [List.getLast?_append, List.getLast?_cons_cons] using last)
        simpa [Links.bypass, setNext, setPrev, other] using ends

/-- The node that was taken out finds its place again. -/
theorem Lists.relink_bypass (lists : links.Lists (front ++ before :: a :: back)) :
    (links.bypass before back.head?).relink a = some links := by
  have distinct := lists.distinct
  have prev := lists.prev_eq
  have next := lists.rotate.next_eq
  have same : Function.update links.next before (some a) = links.next := by
    have points : links.next before = some a := lists.next_eq
    rw [← points, Function.update_eq_self]
  cases back with
  | nil => simp [Links.bypass, relink, setNext, prev, next, distinct, same]
  | cons after back =>
      have same' : Function.update links.prev after (some a) = links.prev := by
        rw [← lists.rotate.prev_eq, Function.update_eq_self]
      have other := lists.rotate.distinct
      simp [Links.bypass, relink, setNext, setPrev, prev, next, distinct, other.symm, same, same']

/-- The node that was taken out keeps its pointers. -/
theorem Lists.next_bypass (lists : links.Lists (front ++ before :: a :: back)) :
    (links.bypass before back.head?).next a = back.head? := by
  have distinct := lists.distinct
  have next := lists.rotate.next_eq
  cases back with
  | nil => simp [Links.bypass, setNext, next, distinct]
  | cons after back => simp [Links.bypass, setNext, setPrev, next, distinct]

/-- A node that is not the first one leaves the list, keeps its pointers and finds its place
again. -/
theorem Lists.exists_unlink (lists : links.Lists (front ++ a :: back)) (inside : front ≠ []) :
    ∃ links', links.unlink a = some links' ∧ links'.Lists (front ++ back) ∧
      links'.next a = back.head? ∧ links'.relink a = some links := by
  obtain ⟨front, before, rfl⟩ := (List.eq_nil_or_concat' front).resolve_left inside
  have lists' : links.Lists (front ++ before :: a :: back) := by simpa using lists
  refine ⟨links.bypass before back.head?, ?_, ?_, lists'.next_bypass, lists'.relink_bypass⟩
  · rw [unlink, lists'.prev_eq, lists.next_eq, Option.map_some]
  · simpa using lists'.bypass

/-- A new first node. -/
theorem Lists.insertBefore (lists : links.Lists l) (fresh : a ∉ l)
    (first : ∀ mark ∈ l.head?, links.prev mark = none) (alone : links.next a = none) :
    (links.insertBefore a l.head?).Lists (a :: l) := by
  have nodup : (a :: l).Nodup := List.nodup_cons.2 ⟨fresh, lists.nodup⟩
  cases l with
  | nil => exact ⟨nodup, by simp, by simpa [Links.insertBefore] using alone⟩
  | cons mark rest =>
      have inserted : links.insertBefore a (mark :: rest).head? =
          (links.setPrev mark (some a)).setNext a (some mark) := by
        simp [Links.insertBefore, first mark rfl]
      have notRest : mark ∉ rest := (List.nodup_cons.1 lists.nodup).1
      rw [inserted]
      refine ⟨nodup, List.isChain_cons_cons.2 ⟨by simp [setNext, setPrev], ?_⟩, ?_⟩
      · refine lists.linked.imp_of_mem_tail_imp fun x y member member' pair => ?_
        have other : x ≠ a := fun same => fresh (same ▸ member)
        have other' : y ≠ mark := fun same => notRest (same ▸ member')
        simpa [setNext, setPrev, other, other'] using pair
      · intro x last
        rw [List.getLast?_cons_cons] at last
        have other : x ≠ a := fun same => fresh (same ▸ List.mem_of_getLast? last)
        simpa [setNext, setPrev, other] using lists.ends x last

end Links

end Mit6824
