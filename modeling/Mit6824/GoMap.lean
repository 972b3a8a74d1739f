import Mathlib.Data.Finmap
import Mathlib.Data.Finset.Card

/-!
# Go maps

A Go map is a finite map. A `range` over it visits every key once, in an order that the run
time chooses; the order is an argument of what is modelled, and `Visits` says that it is one
the run time may choose.
-/

namespace Mit6824

/-- A Go map; a missing key reads as the zero value. -/
abbrev GoMap (κ β : Type) : Type := Finmap fun _ : κ => β

namespace GoMap

variable {κ β : Type} [DecidableEq κ]

/-- A map literal. -/
def ofList (entries : List (κ × β)) : GoMap κ β :=
  entries.foldl (fun m entry => Finmap.insert entry.1 entry.2 m) ∅

/-- `for key := range m` may visit the keys in this order. -/
def Visits (order : List κ) (m : GoMap κ β) : Prop :=
  order.Nodup ∧ order.toFinset = m.keys

instance (order : List κ) (m : GoMap κ β) : Decidable (Visits order m) :=
  inferInstanceAs (Decidable (order.Nodup ∧ order.toFinset = m.keys))

namespace Visits

variable {order : List κ} {m : GoMap κ β}

theorem mem_iff (visits : Visits order m) {key : κ} : key ∈ order ↔ key ∈ m := by
  rw [← Finmap.mem_keys, ← visits.2, List.mem_toFinset]

theorem length (visits : Visits order m) : order.length = m.keys.card := by
  rw [← visits.2, List.toFinset_card_of_nodup visits.1]

end Visits

theorem exists_visits (m : GoMap κ β) : ∃ order, Visits order m :=
  ⟨m.keys.toList, m.keys.nodup_toList, m.keys.toList_toFinset⟩

theorem keys_insert (m : GoMap κ β) (key : κ) (value : β) :
    Finmap.keys (m.insert key value) = insert key m.keys := by
  ext k
  simp [Finmap.mem_keys]

section WithValue

variable [DecidableEq β] {m : GoMap κ β} {key : κ} {value other : β}

/-- The keys under which a value is stored. -/
def withValue (m : GoMap κ β) (value : β) : Finset κ :=
  m.keys.filter fun key => m.lookup key = some value

theorem mem_withValue : key ∈ m.withValue value ↔ m.lookup key = some value := by
  simp only [withValue, Finset.mem_filter, Finmap.mem_keys, Finmap.mem_iff, and_iff_right_iff_imp]
  intro found
  exact ⟨value, found⟩

theorem withValue_insert :
    withValue (m.insert key value) value = insert key (m.withValue value) := by
  ext k
  rw [mem_withValue, Finset.mem_insert, mem_withValue]
  by_cases same : k = key
  · subst same
    simp
  · simp [same, Finmap.lookup_insert_of_ne _ same]

theorem withValue_insert_of_ne (different : other ≠ value) :
    withValue (m.insert key other) value = (m.withValue value).erase key := by
  ext k
  rw [mem_withValue, Finset.mem_erase, mem_withValue]
  by_cases same : k = key
  · subst same
    simp [different]
  · simp [same, Finmap.lookup_insert_of_ne _ same]

theorem withValue_erase : withValue (m.erase key) value = (m.withValue value).erase key := by
  ext k
  rw [mem_withValue, Finset.mem_erase, mem_withValue]
  by_cases same : k = key
  · subst same
    simp
  · simp [same, Finmap.lookup_erase_ne same]

/-- A map to booleans has as many keys as there are of both values. -/
theorem card_withValue (m : GoMap κ Bool) :
    (m.withValue true).card + (m.withValue false).card = m.keys.card := by
  rw [← Finset.card_filter_add_card_filter_not (s := m.keys) fun key => m.lookup key = some true]
  unfold withValue
  congr 2
  apply Finset.filter_congr
  intro key mem
  obtain ⟨value, found⟩ := Finmap.mem_iff.mp (Finmap.mem_keys.mp mem)
  cases value <;> simp [found]

end WithValue

end GoMap

end Mit6824
