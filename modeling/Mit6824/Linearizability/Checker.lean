import Mathlib.Data.List.Sort
import Mit6824.GoMap
import Mit6824.LinkedList
import Mit6824.Linearizability.Bitset
import Mit6824.Linearizability.Models

/-!
# The linearizability checker

`checkSingle` looks for an order of the operations of one history by backtracking. The calls and
returns stand in a doubly linked list in the order in which they happened. The search walks over
the calls before the first return, places one that the model accepts, takes it out of the list
together with its return and starts again from the front; at a return it takes back the last
placement. What it has seen, a set of placed operations with a state, is kept in a cache and is
not entered again.

The nodes are made once and only their two pointers change, so a node is named by its position.
A nil dereference, an index out of range and a failed type assertion are panics: `none`.
-/

namespace Mit6824.Linearizability

variable {ι ο σ : Type}

/-- The kind of an entry and its value. -/
inductive EntryValue (ι ο : Type) where
  | call (input : ι)
  | returned (output : ο)
  deriving DecidableEq, Repr

structure Entry (ι ο : Type) where
  value : EntryValue ι ο
  id : Nat
  time : Int
  deriving DecidableEq, Repr

namespace Entry

def isReturn (elem : Entry ι ο) : Bool :=
  match elem.value with
  | .call _ => false
  | .returned _ => true

/-- The entry is the call of the operation. -/
def isCallOf (id : Nat) (elem : Entry ι ο) : Bool :=
  !elem.isReturn && elem.id = id

/-- The entry is the return of the operation. -/
def isReturnOf (id : Nat) (elem : Entry ι ο) : Bool :=
  elem.isReturn && elem.id = id

end Entry

/-- The two entries of every operation, numbered from `id` on. -/
def entriesFrom (id : Nat) : List (Operation ι ο) → List (Entry ι ο)
  | [] => []
  | elem :: history =>
      ⟨.call elem.input, id, elem.call⟩ :: ⟨.returned elem.output, id, elem.returned⟩ ::
        entriesFrom (id + 1) history

/-- All entries by time. Go's sort does not say what happens to entries of the same time. -/
def makeEntries (history : List (Operation ι ο)) : List (Entry ι ο) :=
  (entriesFrom 0 history).insertionSort fun a b => a.time ≤ b.time

/-! ## The list -/

/-- A node without its pointers to the nodes around it. -/
structure Node (ι ο : Type) where
  /-- Only the head has none. -/
  value : Option (EntryValue ι ο)
  /-- The return of a call, nil for a return. -/
  matching : Option Nat
  id : Nat

/-- A pointer to a node, with everything that can be reached from it. -/
structure Subhistory (ι ο : Type) where
  nodes : List (Node ι ο)
  links : Links Nat
  root : Option Nat

/-- The turn of the loop for the entry at `i`; `made` is what the later entries gave. -/
def linkEntry (i : Nat) (elem : Entry ι ο) (made : Subhistory ι ο × GoMap Nat Nat) :
    Subhistory ι ο × GoMap Nat Nat :=
  let (linked, matching) := made
  let links := linked.links.insertBefore i linked.root
  match elem.value with
  | .returned _ =>
      (⟨⟨some elem.value, none, elem.id⟩ :: linked.nodes, links, some i⟩,
        matching.insert elem.id i)
  | .call _ =>
      (⟨⟨some elem.value, matching.lookup elem.id, elem.id⟩ :: linked.nodes, links, some i⟩,
        matching)

/-- The loop goes from the last entry to the first. -/
def linkEntries (i : Nat) : List (Entry ι ο) → Subhistory ι ο × GoMap Nat Nat
  | [] => (⟨[], ⟨fun _ => none, fun _ => none⟩, none⟩, ∅)
  | elem :: entries => linkEntry i elem (linkEntries (i + 1) entries)

def makeLinkedEntries (entries : List (Entry ι ο)) : Subhistory ι ο :=
  (linkEntries 0 entries).1

/-- The number of nodes from `n` on, unless there are more than `limit`. -/
def length (links : Links Nat) (limit : Nat) (n : Option Nat) : Option Nat :=
  match n, limit with
  | none, _ => some 0
  | some _, 0 => none
  | some a, limit + 1 => (length links limit (links.next a)).map (· + 1)

/-- Take a call and its return out of the list. -/
def lift (nodes : List (Node ι ο)) (links : Links Nat) (entry : Nat) : Option (Links Nat) := do
  let node ← nodes[entry]?
  -- unlike the return, a call is never the last node
  let _ ← links.next entry
  let links ← links.unlink entry
  let matching ← node.matching
  links.unlink matching

/-- Put both back, the return first. -/
def unlift (nodes : List (Node ι ο)) (links : Links Nat) (entry : Nat) : Option (Links Nat) := do
  let node ← nodes[entry]?
  let matching ← node.matching
  let links ← links.relink matching
  let _ ← links.next entry
  links.relink entry

/-- A call and its return leave the list and find their places again. -/
theorem exists_lift {nodes : List (Node ι ο)} {node : Node ι ο} {links : Links Nat}
    {front between back : List Nat} {entry matching : Nat} (inside : front ≠ [])
    (found : nodes[entry]? = some node) (matched : node.matching = some matching)
    (lists : links.Lists (front ++ entry :: (between ++ matching :: back))) :
    ∃ links', lift nodes links entry = some links' ∧ links'.Lists (front ++ (between ++ back)) ∧
      unlift nodes links' entry = some links := by
  obtain ⟨after, next⟩ : ∃ after, (between ++ matching :: back).head? = some after := by
    cases between <;> simp
  obtain ⟨links₁, unlinked, lists₁, next₁, relinked⟩ := lists.exists_unlink inside
  rw [← List.append_assoc] at lists₁
  obtain ⟨links₂, unlinked', lists₂, _, relinked'⟩ := lists₁.exists_unlink (by simp [inside])
  refine ⟨links₂, ?_, by rwa [← List.append_assoc], ?_⟩
  · simp [lift, found, matched, lists.next_eq, next, unlinked, unlinked']
  · simp [unlift, found, matched, relinked', next₁, next, relinked]

/-! ## The search -/

structure CacheEntry (σ : Type) where
  linearized : Bitset
  state : σ

abbrev Cache (σ : Type) : Type := GoMap (BitVec 64) (List (CacheEntry σ))

def cacheContains (model : Model ι ο σ) (cache : Cache σ) (entry : CacheEntry σ) : Bool :=
  ((cache.lookup entry.linearized.hash).getD []).any fun elem =>
    entry.linearized.equals elem.linearized && model.equal entry.state elem.state

/-- A placed call, with the state before it. -/
structure CallsEntry (σ : Type) where
  entry : Nat
  state : σ

/-- The variables of the loop; the last placed call comes first in `calls`. -/
structure Search (σ : Type) where
  links : Links Nat
  entry : Option Nat
  state : σ
  linearized : Bitset
  cache : Cache σ
  calls : List (CallsEntry σ)

inductive Turn (σ : Type) where
  | continues (search : Search σ)
  | returns (ok : Bool)

/-- Place the call, unless this has led nowhere before. -/
def place (model : Model ι ο σ) (nodes : List (Node ι ο)) (headEntry : Nat) (search : Search σ)
    (entry id : Nat) (newState : σ) : Option (Search σ) := do
  let newLinearized ← search.linearized.set id
  let newCacheEntry := ⟨newLinearized, newState⟩
  if cacheContains model search.cache newCacheEntry then
    return { search with entry := search.links.next entry }
  else
    let hash := newLinearized.hash
    let links ← lift nodes search.links entry
    return {
      links := links
      entry := links.next headEntry
      state := newState
      linearized := newLinearized
      cache := search.cache.insert hash ((search.cache.lookup hash).getD [] ++ [newCacheEntry])
      calls := ⟨entry, search.state⟩ :: search.calls }

/-- Take the last placed call back and go on behind it. -/
def takeBack (nodes : List (Node ι ο)) (search : Search σ) (callsTop : CallsEntry σ)
    (calls : List (CallsEntry σ)) : Option (Search σ) := do
  let node ← nodes[callsTop.entry]?
  let linearized ← search.linearized.clear node.id
  let links ← unlift nodes search.links callsTop.entry
  return { search with
    links := links
    entry := links.next callsTop.entry
    state := callsTop.state
    linearized := linearized
    calls := calls }

/-- One turn of the loop; `kill` is what it reads from the flag. -/
def turn (model : Model ι ο σ) (nodes : List (Node ι ο)) (headEntry : Nat) (kill : Bool)
    (search : Search σ) : Option (Turn σ) :=
  if search.links.next headEntry = none then some (.returns true)
  else if kill then some (.returns false)
  else do
    let entry ← search.entry
    let node ← nodes[entry]?
    match node.matching with
    | some matching =>
        let matchingNode ← nodes[matching]?
        match node.value, matchingNode.value with
        | some (.call input), some (.returned output) =>
            let (ok, newState) := model.step search.state input output
            if ok then
              return .continues (← place model nodes headEntry search entry node.id newState)
            else
              return .continues { search with entry := search.links.next entry }
        -- the model is given a value of the wrong type
        | _, _ => none
    | none =>
        match search.calls with
        | [] => return .returns false
        | callsTop :: calls => return .continues (← takeBack nodes search callsTop calls)

inductive Outcome where
  | returned (ok : Bool)
  | running
  | panicked
  deriving DecidableEq, Repr

/-- The loop, for as many turns as there is fuel. -/
def search (model : Model ι ο σ) (nodes : List (Node ι ο)) (headEntry : Nat) (kill : Bool) :
    Nat → Search σ → Outcome
  | 0, _ => .running
  | fuel + 1, current =>
      match turn model nodes headEntry kill current with
      | none => .panicked
      | some (.returns ok) => .returned ok
      | some (.continues next) => search model nodes headEntry kill fuel next

/-- The nodes with the head at the end; its id is the largest `uint`. -/
def withHead (nodes : List (Node ι ο)) : List (Node ι ο) :=
  nodes ++ [⟨none, none, 2 ^ 64 - 1⟩]

/-- The variables before the first turn. -/
def startSearch (model : Model ι ο σ) (subhistory : Subhistory ι ο) : Option (Search σ) := do
  let l ← length subhistory.links subhistory.nodes.length subhistory.root
  let n := l / 2
  return {
    links := subhistory.links.insertBefore subhistory.nodes.length subhistory.root
    entry := subhistory.root
    state := model.init
    linearized := newBitset n
    cache := ∅
    calls := [] }

def checkSingle (model : Model ι ο σ) (subhistory : Subhistory ι ο) (kill : Bool) (fuel : Nat) :
    Outcome :=
  match startSearch model subhistory with
  -- a list with a cycle has no length
  | none => .running
  | some start =>
      search model (withHead subhistory.nodes) subhistory.nodes.length kill fuel start

end Mit6824.Linearizability
