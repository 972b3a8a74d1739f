import Mathlib.Data.Finset.Sort
import Mathlib.Data.List.Sort
import Mit6824.GoMap

/-!
# Grouping by key

Items are spread over numbered buckets, each at the end of its bucket, and grouped by key:
the keys in the order in which they are first seen, and for each key its values in the order
of the items. Neither step loses, repeats or reorders the values of a key, and when a key
decides the bucket, the values of a key are those found in its bucket.
-/

namespace Mit6824.Grouping

variable {α κ β : Type} [DecidableEq κ]

section Values

variable (key : α → κ) (value : α → β)

/-- The values of the items with key `k`, in the order of the items. -/
def valuesOf (k : κ) (items : List α) : List β :=
  (items.filter fun item => key item = k).map value

@[simp]
theorem valuesOf_nil (k : κ) : valuesOf key value k [] = [] :=
  rfl

@[simp]
theorem valuesOf_append (k : κ) (items others : List α) :
    valuesOf key value k (items ++ others) =
      valuesOf key value k items ++ valuesOf key value k others := by
  simp [valuesOf]

theorem valuesOf_flatMap {γ : Type} (k : κ) (sources : List γ) (items : γ → List α) :
    valuesOf key value k (sources.flatMap items) =
      sources.flatMap fun source => valuesOf key value k (items source) := by
  induction sources with
  | nil => rfl
  | cons source rest ih => simp [List.flatMap_cons, ih]

theorem valuesOf_singleton (k : κ) (item : α) :
    valuesOf key value k [item] = if key item = k then [value item] else [] := by
  by_cases same : key item = k <;> simp [valuesOf, same]

/-- A bucket that is chosen by the key has all values of each of its keys. -/
theorem valuesOf_filter (bucket : κ → Nat) {k : κ} {number : Nat} (chosen : bucket k = number)
    (items : List α) :
    valuesOf key value k (items.filter fun item => bucket (key item) = number) =
      valuesOf key value k items := by
  unfold valuesOf
  rw [List.filter_filter]
  congr 1
  apply List.filter_congr
  intro item _
  by_cases same : key item = k
  · simp [same, chosen]
  · simp [same]

end Values

section Buckets

/-- Put each item at the end of its bucket, of `count` buckets. -/
def spread (bucket : α → Nat) (count : Nat) (items : List α) : List (List α) :=
  items.foldl (fun buckets item => buckets.modify (bucket item) (· ++ [item]))
    (List.replicate count [])

variable (bucket : α → Nat)

theorem getElem?_foldl_modify (items : List α) (buckets : List (List α)) (i : Nat) :
    (items.foldl (fun buckets item => buckets.modify (bucket item) (· ++ [item])) buckets)[i]? =
      buckets[i]?.map (· ++ items.filter fun item => bucket item = i) := by
  induction items generalizing buckets with
  | nil => simp
  | cons item rest ih =>
      rw [List.foldl_cons, ih, List.getElem?_modify]
      by_cases same : bucket item = i
      · cases buckets[i]? <;> simp [same]
      · cases buckets[i]? <;> simp [same]

theorem getElem?_spread (count : Nat) (items : List α) (i : Nat) :
    (spread bucket count items)[i]? =
      if i < count then some (items.filter fun item => bucket item = i) else none := by
  rw [spread, getElem?_foldl_modify, List.getElem?_replicate]
  by_cases inRange : i < count <;> simp [inRange]

/-- The buckets, one by one. -/
theorem spread_eq (count : Nat) (items : List α) :
    spread bucket count items =
      (List.range count).map fun i => items.filter fun item => bucket item = i := by
  apply List.ext_getElem?
  intro i
  rw [getElem?_spread, List.getElem?_map]
  by_cases inRange : i < count <;> simp [inRange]

end Buckets

/-- The keys in the order in which they were first seen, and the values of each. -/
structure Groups (κ β : Type) where
  keys : List κ
  values : GoMap κ (List β)
  nodup : keys.Nodup
  mem_iff : ∀ k, k ∈ keys ↔ k ∈ values

namespace Groups

/-- Nothing seen yet. -/
def empty : Groups κ β where
  keys := []
  values := ∅
  nodup := List.nodup_nil
  mem_iff := by
    intro k
    simp [Finmap.notMem_empty]

/-- Add one value to the values of its key. -/
def add (groups : Groups κ β) (k : κ) (v : β) : Groups κ β :=
  if seen : k ∈ groups.values then
    { keys := groups.keys
      values := groups.values.insert k ((groups.values.lookup k).getD [] ++ [v])
      nodup := groups.nodup
      mem_iff := by
        intro other
        rw [Finmap.mem_insert, ← groups.mem_iff]
        constructor
        · exact Or.inr
        · rintro (rfl | mem)
          · exact (groups.mem_iff _).mpr seen
          · exact mem }
  else
    { keys := groups.keys ++ [k]
      values := groups.values.insert k [v]
      nodup := by
        rw [← List.concat_eq_append, List.nodup_concat]
        exact ⟨fun mem => seen ((groups.mem_iff k).mp mem), groups.nodup⟩
      mem_iff := by
        intro other
        rw [Finmap.mem_insert, List.mem_append, groups.mem_iff, List.mem_singleton, or_comm] }

/-- The values of a key, none when it was never seen. -/
def get (groups : Groups κ β) (k : κ) : List β :=
  (groups.values.lookup k).getD []

theorem mem_keys_add (groups : Groups κ β) (k other : κ) (v : β) :
    other ∈ (groups.add k v).keys ↔ other ∈ groups.keys ∨ other = k := by
  by_cases seen : k ∈ groups.values
  · simp only [add, dif_pos seen]
    constructor
    · exact Or.inl
    · rintro (mem | rfl)
      · exact mem
      · exact (groups.mem_iff _).mpr seen
  · simp [add, dif_neg seen]

theorem get_add (groups : Groups κ β) (k other : κ) (v : β) :
    (groups.add k v).get other = groups.get other ++ if k = other then [v] else [] := by
  by_cases seen : k ∈ groups.values
  · by_cases same : k = other
    · subst same
      simp [add, get, seen]
    · simp [add, get, seen, same, Finmap.lookup_insert_of_ne _ (Ne.symm same)]
  · by_cases same : k = other
    · subst same
      simp [add, get, seen, Finmap.lookup_eq_none.mpr seen]
    · simp [add, get, seen, same, Finmap.lookup_insert_of_ne _ (Ne.symm same)]

section Collected

variable (key : α → κ) (value : α → β)

/-- Add the items one after the other. -/
def addAll (groups : Groups κ β) (items : List α) : Groups κ β :=
  items.foldl (fun groups item => groups.add (key item) (value item)) groups

theorem addAll_cons (groups : Groups κ β) (item : α) (rest : List α) :
    groups.addAll key value (item :: rest) =
      (groups.add (key item) (value item)).addAll key value rest :=
  rfl

theorem mem_keys_addAll (groups : Groups κ β) (items : List α) (k : κ) :
    k ∈ (groups.addAll key value items).keys ↔ k ∈ groups.keys ∨ ∃ item ∈ items, key item = k := by
  induction items generalizing groups with
  | nil => simp [addAll]
  | cons item rest ih =>
      rw [addAll_cons, ih, mem_keys_add]
      simp only [List.mem_cons, exists_eq_or_imp, or_assoc, @eq_comm _ k]

theorem get_addAll (groups : Groups κ β) (items : List α) (k : κ) :
    (groups.addAll key value items).get k = groups.get k ++ valuesOf key value k items := by
  induction items generalizing groups with
  | nil => simp [addAll]
  | cons item rest ih =>
      have split : item :: rest = [item] ++ rest := rfl
      rw [addAll_cons, ih, get_add, split, valuesOf_append, valuesOf_singleton, List.append_assoc]

theorem addAll_flatMap {γ : Type} (groups : Groups κ β) (sources : List γ) (items : γ → List α) :
    groups.addAll key value (sources.flatMap items) =
      sources.foldl (fun groups source => groups.addAll key value (items source)) groups := by
  simp [addAll, List.foldl_flatMap]

end Collected

end Groups

section LastWins

variable (key : α → κ) (value : α → β)

/-- Store the value of each item under its key; a later item replaces an earlier one. -/
def storeAll (m : GoMap κ β) (items : List α) : GoMap κ β :=
  items.foldl (fun m item => m.insert (key item) (value item)) m

/-- When the key decides the value, it does not matter which item was stored last. -/
theorem lookup_storeAll {f : κ → β} {items : List α}
    (decided : ∀ item ∈ items, value item = f (key item)) (m : GoMap κ β) (k : κ) :
    (storeAll key value m items).lookup k =
      if ∃ item ∈ items, key item = k then some (f k) else m.lookup k := by
  induction items generalizing m with
  | nil => simp [storeAll]
  | cons item rest ih =>
      have step : storeAll key value m (item :: rest) =
          storeAll key value (m.insert (key item) (value item)) rest := rfl
      rw [step, ih fun item mem => decided item (List.mem_cons_of_mem _ mem)]
      by_cases later : ∃ item ∈ rest, key item = k
      · simp [later]
      · by_cases same : key item = k
        · subst same
          simp [later, decided item List.mem_cons_self]
        · simp [later, same, Finmap.lookup_insert_of_ne _ (Ne.symm same)]

/-- Then only the keys matter, in whatever order and however often they come. -/
theorem storeAll_eq {f : κ → β} {items others : List α}
    (decided : ∀ item ∈ items, value item = f (key item))
    (decided' : ∀ item ∈ others, value item = f (key item))
    (same : ∀ k, (∃ item ∈ items, key item = k) ↔ ∃ item ∈ others, key item = k)
    (m : GoMap κ β) : storeAll key value m items = storeAll key value m others := by
  refine Finmap.ext_lookup fun k => ?_
  rw [lookup_storeAll key value decided, lookup_storeAll key value decided']
  simp only [same]

theorem storeAll_append (m : GoMap κ β) (items others : List α) :
    storeAll key value m (items ++ others) =
      storeAll key value (storeAll key value m items) others :=
  List.foldl_append

theorem storeAll_flatMap {γ : Type} (m : GoMap κ β) (sources : List γ) (items : γ → List α) :
    storeAll key value m (sources.flatMap items) =
      sources.foldl (fun m source => storeAll key value m (items source)) m := by
  simp [storeAll, List.foldl_flatMap]

end LastWins

section Sorted

variable {ι : Type} [LinearOrder ι]

/-- Distinct keys are strictly increasing once they are sorted. -/
theorem pairwise_lt_insertionSort {keys : List ι} (nodup : keys.Nodup) :
    (keys.insertionSort (· ≤ ·)).Pairwise (· < ·) := by
  have sorted := List.pairwise_insertionSort (· ≤ ·) keys
  have distinct : (keys.insertionSort (· ≤ ·)).Nodup :=
    (List.perm_insertionSort (· ≤ ·) keys).nodup_iff.mpr nodup
  exact sorted.imp₂ (fun _ _ le ne => lt_of_le_of_ne le ne) distinct

/-- The order in which a map is visited leaves no trace in the sorted keys. -/
theorem insertionSort_of_visits [DecidableEq ι] {m : GoMap ι β} {order : List ι}
    (visits : GoMap.Visits order m) : order.insertionSort (· ≤ ·) = m.keys.sort (· ≤ ·) := by
  have perm := List.perm_insertionSort (· ≤ ·) order
  rw [← visits.2, ← List.toFinset_eq_of_perm _ _ perm]
  refine ((List.toFinset_sort (· ≤ ·) (perm.nodup_iff.2 visits.1)).2 ?_).symm
  exact List.pairwise_insertionSort _ _

end Sorted

end Mit6824.Grouping
