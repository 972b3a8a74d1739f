import Mathlib.Data.String.Basic
import Mit6824.GoMap

/-!
# The files of a MapReduce job

A job reads text files and writes two kinds of intermediate files: one file for each map task
and reduce task, and one result file for each reduce task. Both are opened in append mode and
hold JSON values one after the other, so a file is modelled as the list of the values written
to it. Encoding and decoding a value is assumed to give the value back; what a reader does
with several values in one file, or with a value it does not expect, is modelled.
-/

namespace Mit6824.MapReduce

structure KeyValue where
  key : String
  value : String
deriving DecidableEq, Repr

/-! ## File names -/

/-- The file that map task `mapTask` writes for reduce task `reduceTask`. -/
def reduceName (jobName : String) (mapTask reduceTask : Nat) : String :=
  "mrtmp." ++ jobName ++ "-" ++ toString mapTask ++ "-" ++ toString reduceTask

/-- The result file of reduce task `reduceTask`. -/
def mergeName (jobName : String) (reduceTask : Nat) : String :=
  "mrtmp." ++ jobName ++ "-res-" ++ toString reduceTask

theorem toList_toString_inj {m n : Nat} (same : (toString m).toList = (toString n).toList) :
    m = n := by
  have parsed := congrArg (fun digits => Nat.ofDigitChars 10 digits 0) same
  simpa using parsed

theorem not_mem_toString {c : Char} (notDigit : c.isDigit = false) (n : Nat) :
    c ∉ (toString n).toList := by
  intro mem
  rw [Nat.toString_eq_repr, Nat.toList_repr] at mem
  have digit := Nat.isDigit_of_mem_toDigits (by decide) (by decide) mem
  simp [notDigit] at digit

theorem toList_reduceName (jobName : String) (mapTask reduceTask : Nat) :
    (reduceName jobName mapTask reduceTask).toList =
      ("mrtmp." ++ jobName ++ "-").toList ++
        ((toString mapTask).toList ++ '-' :: (toString reduceTask).toList) := by
  simp [reduceName, List.append_assoc]

theorem toList_mergeName (jobName : String) (reduceTask : Nat) :
    (mergeName jobName reduceTask).toList =
      ("mrtmp." ++ jobName ++ "-").toList ++
        ("res".toList ++ '-' :: (toString reduceTask).toList) := by
  simp [mergeName, List.append_assoc]

theorem reduceName_inj {jobName : String} {m r m' r' : Nat}
    (same : reduceName jobName m r = reduceName jobName m' r') : m = m' ∧ r = r' := by
  have lists := congrArg String.toList same
  rw [toList_reduceName, toList_reduceName] at lists
  have parts := (List.append_cons_inj_of_notMem (not_mem_toString (by decide) m)
    (not_mem_toString (by decide) r)).mp (List.append_cancel_left lists)
  exact ⟨toList_toString_inj parts.1, toList_toString_inj parts.2.2⟩

theorem mergeName_inj {jobName : String} {r r' : Nat}
    (same : mergeName jobName r = mergeName jobName r') : r = r' := by
  have lists := congrArg String.toList same
  rw [toList_mergeName, toList_mergeName] at lists
  have tails := List.append_cancel_left (List.append_cancel_left lists)
  exact toList_toString_inj (List.cons.inj tails).2

theorem reduceName_ne_mergeName (jobName : String) (m r r' : Nat) :
    reduceName jobName m r ≠ mergeName jobName r' := by
  intro same
  have lists := congrArg String.toList same
  rw [toList_reduceName, toList_mergeName] at lists
  have parts := (List.append_cons_inj_of_notMem (not_mem_toString (by decide) m)
    (not_mem_toString (by decide) r)).mp (List.append_cancel_left lists)
  have letter : 'r' ∈ (toString m).toList := by
    rw [parts.1]
    decide
  exact not_mem_toString (by decide) m letter

/-! ## Values and disks -/

/-- The JSON values a job writes. -/
inductive Json where
  | null
  | array (kvs : List KeyValue)
  | object (kv : KeyValue)
deriving DecidableEq, Repr

/-- `json.MarshalIndent` of a slice; one that nothing was appended to is nil. -/
def marshal : List KeyValue → Json
  | [] => .null
  | kvs => .array kvs

/-- `json.Unmarshal` of a whole file into a nil slice. Anything but one value is an error, as
is a value that is not an array; the caller does not look at the error and keeps the nil
slice. -/
def unmarshal : List Json → List KeyValue
  | [.array kvs] => kvs
  | _ => []

/-- The pairs that repeated calls of `Decode` give before the first error. A `null` leaves the
pair as it was declared. -/
def decodeAll : List Json → List KeyValue
  | .null :: rest => ⟨"", ""⟩ :: decodeAll rest
  | .object kv :: rest => kv :: decodeAll rest
  | _ => []

@[simp]
theorem unmarshal_marshal (kvs : List KeyValue) : unmarshal [marshal kvs] = kvs := by
  cases kvs <;> rfl

@[simp]
theorem decodeAll_objects (kvs : List KeyValue) : decodeAll (kvs.map Json.object) = kvs := by
  induction kvs with
  | nil => rfl
  | cons kv rest ih => rw [List.map_cons, decodeAll, ih]

/-- The text files, which a job reads and leaves its output in, and the files of JSON
values. -/
structure Disk where
  texts : GoMap String String
  values : GoMap String (List Json)

namespace Disk

/-- What a file of values holds; nothing when there is no such file. -/
def file (disk : Disk) (name : String) : List Json :=
  (disk.values.lookup name).getD []

/-- Open a file with `O_APPEND|O_CREATE`. -/
def create (disk : Disk) (name : String) : Disk :=
  { disk with values := disk.values.insert name (disk.file name) }

/-- Write a value to the end of a file that has been opened. -/
def append (disk : Disk) (name : String) (v : Json) : Disk :=
  { disk with values := disk.values.insert name (disk.file name ++ [v]) }

/-- Open the files one after the other. -/
def createAll (disk : Disk) (names : List String) : Disk :=
  names.foldl create disk

/-- Write the values one after the other. -/
def appendAll (disk : Disk) (writes : List (String × Json)) : Disk :=
  writes.foldl (fun disk write => disk.append write.1 write.2) disk

theorem lookup_values (disk : Disk) {name : String} (present : name ∈ disk.values) :
    disk.values.lookup name = some (disk.file name) := by
  cases found : disk.values.lookup name with
  | none => exact absurd present (Finmap.lookup_eq_none.mp found)
  | some content => simp [file, found]

theorem file_insert (disk : Disk) (name other : String) (content : List Json) :
    file { disk with values := disk.values.insert name content } other =
      if other = name then content else disk.file other := by
  by_cases same : other = name
  · subst same
    simp [file]
  · simp [file, same, Finmap.lookup_insert_of_ne _ same]

@[simp]
theorem file_create (disk : Disk) (name other : String) :
    (disk.create name).file other = disk.file other := by
  rw [create, file_insert]
  split
  · next same => rw [same]
  · rfl

theorem mem_create (disk : Disk) (name other : String) :
    other ∈ (disk.create name).values ↔ other = name ∨ other ∈ disk.values := by
  simp [create]

theorem file_append (disk : Disk) (name other : String) (v : Json) :
    (disk.append name v).file other = disk.file other ++ if other = name then [v] else [] := by
  rw [append, file_insert]
  split
  · next same => rw [same]
  · simp

theorem mem_append (disk : Disk) (name other : String) (v : Json) :
    other ∈ (disk.append name v).values ↔ other = name ∨ other ∈ disk.values := by
  simp [append]

@[simp]
theorem texts_createAll (disk : Disk) (names : List String) :
    (disk.createAll names).texts = disk.texts := by
  induction names generalizing disk with
  | nil => rfl
  | cons name rest ih => exact ih _

@[simp]
theorem file_createAll (disk : Disk) (names : List String) (other : String) :
    (disk.createAll names).file other = disk.file other := by
  induction names generalizing disk with
  | nil => rfl
  | cons name rest ih =>
      have step : disk.createAll (name :: rest) = (disk.create name).createAll rest := rfl
      rw [step, ih, file_create]

theorem mem_createAll (disk : Disk) (names : List String) (other : String) :
    other ∈ (disk.createAll names).values ↔ other ∈ names ∨ other ∈ disk.values := by
  induction names generalizing disk with
  | nil => simp [createAll]
  | cons name rest ih =>
      have step : disk.createAll (name :: rest) = (disk.create name).createAll rest := rfl
      rw [step, ih, mem_create, List.mem_cons, or_left_comm, or_assoc]

theorem appendAll_cons (disk : Disk) (write : String × Json) (rest : List (String × Json)) :
    disk.appendAll (write :: rest) = (disk.append write.1 write.2).appendAll rest :=
  rfl

@[simp]
theorem texts_appendAll (disk : Disk) (writes : List (String × Json)) :
    (disk.appendAll writes).texts = disk.texts := by
  induction writes generalizing disk with
  | nil => rfl
  | cons write rest ih => exact ih _

/-- A file gets the values written under its name, in order. -/
theorem file_appendAll (disk : Disk) (writes : List (String × Json)) (other : String) :
    (disk.appendAll writes).file other =
      disk.file other ++ (writes.filter fun write => write.1 = other).map Prod.snd := by
  induction writes generalizing disk with
  | nil => simp [appendAll]
  | cons write rest ih =>
      rw [appendAll_cons, ih, file_append]
      by_cases same : write.1 = other
      · simp [same]
      · simp [same, Ne.symm same]

theorem mem_appendAll (disk : Disk) (writes : List (String × Json)) (other : String) :
    other ∈ (disk.appendAll writes).values ↔
      other ∈ writes.map Prod.fst ∨ other ∈ disk.values := by
  induction writes generalizing disk with
  | nil => simp [appendAll]
  | cons write rest ih =>
      rw [appendAll_cons, ih, mem_append, List.map_cons, List.mem_cons, or_left_comm, or_assoc]

/-- A loop that reads files which are all there. -/
theorem foldlM_lookup {S : Type} (disk : Disk) (name : Nat → String) (read : S → List Json → S)
    {numbers : List Nat} (present : ∀ i ∈ numbers, name i ∈ disk.values) (s : S) :
    numbers.foldlM (fun s i => (disk.values.lookup (name i)).map (read s)) s =
      some (numbers.foldl (fun s i => read s (disk.file (name i))) s) := by
  induction numbers generalizing s with
  | nil => rfl
  | cons i rest ih =>
      have found := disk.lookup_values (present i List.mem_cons_self)
      rw [List.foldlM_cons, found]
      exact ih (fun i mem => present i (List.mem_cons_of_mem _ mem)) _

end Disk

end Mit6824.MapReduce
