import Mathlib.Data.List.Sort
import Mit6824.GoMap

/-!
# The reduce function of the inverted index

The `reduceF` of `ii.go`: it drops repeated document names, sorts the others and writes their
number and the names with a comma behind each, of which the last is cut off. The result is a
function of the set of names (`reduceF_of_set`).

A Go string is any sequence of bytes, and `sort.Strings` compares bytes; so the model works on
lists of bytes, whether or not they are the encoding of a text.
-/

namespace Mit6824.InvertedIndex

/-- A Go string, as its bytes. -/
abbrev GoString : Type := List UInt8

/-- A string literal. -/
def literal (s : String) : GoString := s.toUTF8.data.toList

/-- `strconv.Itoa` of a count. -/
def itoa (n : Nat) : GoString := literal (toString n)

/-- The names that the first loop has seen. -/
structure Names where
  documentNameMap : GoMap GoString Bool
  keys : List GoString
  nodup : keys.Nodup
  mem_iff : ∀ name, name ∈ keys ↔ name ∈ documentNameMap

namespace Names

def empty : Names where
  documentNameMap := ∅
  keys := []
  nodup := List.nodup_nil
  mem_iff := by
    intro name
    simp [Finmap.notMem_empty]

/-- The body of the first loop. -/
def add (names : Names) (val : GoString) : Names :=
  if seen : val ∈ names.documentNameMap then names
  else
    { documentNameMap := names.documentNameMap.insert val true
      keys := names.keys ++ [val]
      nodup := by
        rw [← List.concat_eq_append, List.nodup_concat]
        exact ⟨fun member => seen ((names.mem_iff val).1 member), names.nodup⟩
      mem_iff := by
        intro name
        rw [Finmap.mem_insert, List.mem_append, names.mem_iff, List.mem_singleton, or_comm] }

theorem mem_add (names : Names) (val name : GoString) :
    name ∈ (names.add val).keys ↔ name ∈ names.keys ∨ name = val := by
  unfold add
  split_ifs with seen
  · refine (or_iff_left_of_imp ?_).symm
    rintro rfl
    exact (names.mem_iff name).2 seen
  · simp

theorem mem_foldl_add (values : List GoString) (names : Names) (name : GoString) :
    name ∈ (values.foldl add names).keys ↔ name ∈ names.keys ∨ name ∈ values := by
  induction values generalizing names with
  | nil => simp
  | cons val rest ih => rw [List.foldl_cons, ih, mem_add, List.mem_cons, or_assoc]

end Names

/-- The loop over the sorted names, with `retStr` and `sum`. -/
def write (keys : List GoString) : GoString × Nat :=
  keys.foldl (fun (retStr, sum) val => (retStr ++ (val ++ literal ","), sum + 1)) ([], 0)

/-- The reduce function; `none` is the panic for `retStr[:-1]`. -/
def reduceF (_key : GoString) (values : List GoString) : Option GoString :=
  let keys := (values.foldl Names.add Names.empty).keys.insertionSort (· ≤ ·)
  let (retStr, sum) := write keys
  if retStr.length = 0 then none
  else some (itoa sum ++ literal " " ++ retStr.take (retStr.length - 1))

/-! ## What is written -/

theorem write_eq (keys : List GoString) :
    write keys = (keys.flatMap (· ++ literal ","), keys.length) := by
  have loop : ∀ (retStr : GoString) (sum : Nat),
      keys.foldl (fun ((retStr, sum) : GoString × Nat) val =>
        (retStr ++ (val ++ literal ","), sum + 1)) (retStr, sum) =
        (retStr ++ keys.flatMap (· ++ literal ","), sum + keys.length) := by
    induction keys with
    | nil => simp
    | cons val rest ih =>
        intro retStr sum
        rw [List.foldl_cons, ih, List.flatMap_cons, List.length_cons, List.append_assoc,
          Nat.add_assoc, Nat.add_comm 1]
  rw [write, loop, List.nil_append, Nat.zero_add]

/-- A separator behind each item is a separator between the items and one at the end. -/
theorem flatMap_append_separator {α : Type} (separator : List α) {items : List (List α)}
    (nonempty : items ≠ []) :
    items.flatMap (· ++ separator) = separator.intercalate items ++ separator := by
  induction items with
  | nil => exact absurd rfl nonempty
  | cons item rest ih =>
      cases rest with
      | nil => simp
      | cons next rest =>
          rw [List.flatMap_cons, ih (List.cons_ne_nil _ _), List.intercalate_cons_cons]
          simp only [List.append_assoc]

/-- What is left when the last separator is cut off. -/
theorem take_write {keys : List GoString} (nonempty : keys ≠ []) :
    (write keys).1.length ≠ 0 ∧
      (write keys).1.take ((write keys).1.length - 1) = (literal ",").intercalate keys := by
  have comma : (literal ",").length = 1 := by decide
  rw [write_eq]
  dsimp only
  rw [flatMap_append_separator _ nonempty, List.length_append, comma]
  exact ⟨Nat.succ_ne_zero _, List.take_left' (by simp)⟩

/-- The names in increasing order. -/
theorem exists_distinct (values : List GoString) :
    ∃ distinct, (values.foldl Names.add Names.empty).keys.insertionSort (· ≤ ·) = distinct ∧
      distinct.Pairwise (· < ·) ∧ ∀ name, name ∈ distinct ↔ name ∈ values := by
  set names := values.foldl Names.add Names.empty
  refine ⟨_, rfl, ?_, fun name => ?_⟩
  · have sorted := List.pairwise_insertionSort (· ≤ ·) names.keys
    have nodup := (List.perm_insertionSort (· ≤ ·) names.keys).nodup_iff.2 names.nodup
    exact sorted.imp₂ (fun _ _ le ne => Std.lt_of_le_of_ne le ne) nodup
  · rw [List.mem_insertionSort, Names.mem_foldl_add]
    simp [Names.empty]

/-- There is one increasing list with given elements. -/
theorem eq_of_increasing {names names' : List GoString} (increasing : names.Pairwise (· < ·))
    (increasing' : names'.Pairwise (· < ·)) (same : ∀ name, name ∈ names ↔ name ∈ names') :
    names = names' := by
  have perm := (List.perm_ext_iff_of_nodup (increasing.imp Std.ne_of_lt)
    (increasing'.imp Std.ne_of_lt)).2 same
  exact perm.eq_of_pairwise' increasing increasing'

/-- For two lists with the same values, in any order and with any repetitions, `reduceF` returns
the same: the number of the different values, a space, and these values in increasing order with
commas between them. -/
theorem reduceF_of_set (key : GoString) (values values' : List GoString) (nonempty : values ≠ [])
    (same : ∀ name, name ∈ values ↔ name ∈ values') :
    reduceF key values = reduceF key values' ∧
      ∃ distinct : List GoString, distinct.Pairwise (· < ·) ∧
        (∀ name, name ∈ distinct ↔ name ∈ values) ∧
        reduceF key values =
          some (itoa distinct.length ++ literal " " ++ (literal ",").intercalate distinct) := by
  obtain ⟨distinct, sorted, increasing, members⟩ := exists_distinct values
  obtain ⟨distinct', sorted', increasing', members'⟩ := exists_distinct values'
  have equal : distinct = distinct' :=
    eq_of_increasing increasing increasing' fun name => by rw [members, members', same]
  have someName : distinct ≠ [] := by
    obtain ⟨name, member⟩ := List.exists_mem_of_ne_nil values nonempty
    exact List.ne_nil_of_mem ((members name).2 member)
  refine ⟨by simp only [reduceF, sorted, sorted', equal], distinct, increasing, members, ?_⟩
  obtain ⟨long, cut⟩ := take_write someName
  simp only [reduceF, sorted, if_neg long, cut]
  rw [write_eq]

theorem reduceF_of_set_repeated :
    reduceF (literal "word") [literal "b", literal "a", literal "b"] =
        reduceF (literal "word") [literal "a", literal "b"] ∧
      reduceF (literal "word") [literal "a", literal "b"] = some (literal "2 a,b") := by
  refine ⟨(reduceF_of_set _ _ _ (by decide) fun name => ?_).1, by decide⟩
  simp only [List.mem_cons, List.not_mem_nil, or_false]
  tauto

end Mit6824.InvertedIndex
