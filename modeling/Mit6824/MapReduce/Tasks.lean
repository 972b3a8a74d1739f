import Mit6824.Runs
import Mit6824.Grouping
import Mit6824.MapReduce.Files

/-!
# Map tasks, reduce tasks and the merge

`doMap`, `doReduce` and `merge` as functions on the disk, and what each leaves there. A panic
or a fatal error is `none`. The map of the merge is ranged over in an order that the run time
chooses, which is an argument.
-/

namespace Mit6824.MapReduce

open Grouping

/-- The 32-bit FNV-1a hash of the bytes of a string. -/
def fnv32a (s : String) : UInt32 :=
  s.toUTF8.data.toList.foldl (fun h b => (h ^^^ b.toUInt32) * 16777619) 2166136261

def ihash (s : String) : Nat :=
  (fnv32a s &&& 0x7fffffff).toNat

/-- The pairs of reduce task `reduceTask`, in the order in which they were emitted. -/
def part (nReduce reduceTask : Nat) (kvs : List KeyValue) : List KeyValue :=
  kvs.filter fun kv => ihash kv.key % nReduce = reduceTask

/-- A part has all values of each of its keys. -/
theorem valuesOf_part {nReduce reduceTask : Nat} {key : String}
    (chosen : ihash key % nReduce = reduceTask) (kvs : List KeyValue) :
    valuesOf KeyValue.key KeyValue.value key (part nReduce reduceTask kvs) =
      valuesOf KeyValue.key KeyValue.value key kvs :=
  valuesOf_filter KeyValue.key KeyValue.value (fun key => ihash key % nReduce) chosen kvs

/-- A map task. A file that cannot be read is reported, and nothing is written. -/
def doMap (jobName : String) (mapTask : Nat) (inFile : String) (nReduce : Nat)
    (mapF : String → String → List KeyValue) (disk : Disk) : Option Disk :=
  match disk.texts.lookup inFile with
  | none => some disk
  | some content =>
      let keyValueRet := mapF inFile content
      -- the remainder of a division by zero panics
      if nReduce = 0 ∧ keyValueRet ≠ [] then none
      else
        let opened := disk.createAll ((List.range nReduce).map (reduceName jobName mapTask))
        let kvList := spread (fun val => ihash val.key % nReduce) nReduce keyValueRet
        some (opened.appendAll
          (kvList.zipIdx.map fun val => (reduceName jobName mapTask val.2, marshal val.1)))

/-- The loop of a reduce task over the files of the map tasks; a missing file panics. -/
def readGroups (jobName : String) (reduceTask nMap : Nat) (disk : Disk) :
    Option (Groups String String) :=
  (List.range nMap).foldlM (fun groups nmap =>
    (disk.values.lookup (reduceName jobName nmap reduceTask)).map fun content =>
      groups.addAll KeyValue.key KeyValue.value (unmarshal content)) Groups.empty

/-- A reduce task. -/
def doReduce (jobName : String) (reduceTask : Nat) (outFile : String) (nMap : Nat)
    (reduceF : String → List String → String) (disk : Disk) : Option Disk :=
  (readGroups jobName reduceTask nMap disk).map fun groups =>
    (disk.create outFile).appendAll ((groups.keys.insertionSort (· ≤ ·)).map fun key =>
      (outFile, .object ⟨key, reduceF key (groups.get key)⟩))

/-- What `merge` prints for a key. -/
def line (key value : String) : String :=
  key ++ ": " ++ value ++ "\n"

/-- Read the result files into one map; a missing file is fatal. -/
def readResults (jobName : String) (nReduce : Nat) (disk : Disk) : Option (GoMap String String) :=
  (List.range nReduce).foldlM (fun kvs i =>
    (disk.values.lookup (mergeName jobName i)).map fun content =>
      storeAll KeyValue.key KeyValue.value kvs (decodeAll content)) ∅

/-- The merge; `order` is the order in which `range` visits the map. -/
def merge (order : GoMap String String → List String) (jobName : String) (nReduce : Nat)
    (disk : Disk) : Option Disk :=
  (readResults jobName nReduce disk).map fun kvs =>
    let keys := (order kvs).insertionSort (· ≤ ·)
    { disk with
      texts := disk.texts.insert ("mrtmp." ++ jobName)
        (String.join (keys.map fun k => line k ((kvs.lookup k).getD ""))) }

/-! ## What a map task leaves -/

/-- What the disk is after a map task that emitted `kvs`. -/
structure Mapped (jobName : String) (mapTask nReduce : Nat) (kvs : List KeyValue)
    (disk disk' : Disk) : Prop where
  texts : disk'.texts = disk.texts
  written : ∀ r < nReduce, disk'.file (reduceName jobName mapTask r) =
    disk.file (reduceName jobName mapTask r) ++ [marshal (part nReduce r kvs)]
  others : ∀ name, (∀ r < nReduce, name ≠ reduceName jobName mapTask r) →
    disk'.file name = disk.file name
  present : ∀ name, name ∈ disk'.values ↔
    (∃ r < nReduce, name = reduceName jobName mapTask r) ∨ name ∈ disk.values

section MapTask

variable {jobName inFile content : String} {mapTask nReduce : Nat}
  {mapF : String → String → List KeyValue} {disk : Disk}

theorem doMap_unreadable (unreadable : disk.texts.lookup inFile = none) :
    doMap jobName mapTask inFile nReduce mapF disk = some disk := by
  simp [doMap, unreadable]

/-- The writes of a map task: one value for each reduce task. -/
theorem doMap_eq (read : disk.texts.lookup inFile = some content) (positive : 1 ≤ nReduce) :
    doMap jobName mapTask inFile nReduce mapF disk =
      some ((disk.createAll ((List.range nReduce).map (reduceName jobName mapTask))).appendAll
        ((List.range nReduce).map fun r =>
          (reduceName jobName mapTask r, marshal (part nReduce r (mapF inFile content))))) := by
  have nonzero : ¬ (nReduce = 0 ∧ mapF inFile content ≠ []) := by omega
  simp only [doMap, read, if_neg nonzero, spread_eq, Option.some.injEq]
  congr 1
  apply List.ext_getElem?
  intro i
  simp only [List.getElem?_map, List.getElem?_zipIdx]
  by_cases inRange : i < nReduce <;> simp [inRange, part]

theorem filter_writes (values : Nat → Json) {r : Nat} (inRange : r < nReduce) :
    (((List.range nReduce).map fun i => (reduceName jobName mapTask i, values i)).filter
      fun write => write.1 = reduceName jobName mapTask r).map Prod.snd = [values r] := by
  have same : ∀ i, reduceName jobName mapTask i = reduceName jobName mapTask r ↔ i = r := by
    intro i
    constructor
    · intro names
      exact (reduceName_inj names).2
    · intro numbers
      rw [numbers]
  have single : (List.range nReduce).filter (fun i => decide (i = r)) = [r] := by
    rw [List.filter_eq, List.count_eq_one_of_mem List.nodup_range (List.mem_range.mpr inRange)]
    rfl
  rw [List.filter_map, List.map_map]
  simp [Function.comp_def, same, single]

theorem doMap_spec (jobName : String) (mapTask : Nat) (mapF : String → String → List KeyValue)
    (read : disk.texts.lookup inFile = some content) (positive : 1 ≤ nReduce) :
    ∃ disk', doMap jobName mapTask inFile nReduce mapF disk = some disk' ∧
      Mapped jobName mapTask nReduce (mapF inFile content) disk disk' := by
  refine ⟨_, doMap_eq read positive, ?_⟩
  constructor
  case texts => simp
  case written =>
    intro r inRange
    rw [Disk.file_appendAll, filter_writes _ inRange, Disk.file_createAll]
  case others =>
    intro name other
    have none : ((List.range nReduce).map fun r => (reduceName jobName mapTask r,
        marshal (part nReduce r (mapF inFile content)))).filter
        (fun write => write.1 = name) = [] := by
      simpa [List.filter_eq_nil_iff] using fun r inRange => (other r inRange).symm
    rw [Disk.file_appendAll, none, Disk.file_createAll]
    simp
  case present =>
    intro name
    rw [Disk.mem_appendAll, Disk.mem_createAll]
    simp only [List.map_map, Function.comp_def, List.mem_map, List.mem_range, @eq_comm _ name,
      or_self_left]

end MapTask

/-! ## What a reduce task leaves -/

/-- The pairs that a reduce task reads. -/
def reduceInput (jobName : String) (reduceTask nMap : Nat) (disk : Disk) : List KeyValue :=
  (List.range nMap).flatMap fun nmap =>
    unmarshal (disk.file (reduceName jobName nmap reduceTask))

/-- The keys of the pairs, sorted. -/
def sortedKeys (kvs : List KeyValue) : List String :=
  (Groups.empty.addAll KeyValue.key KeyValue.value kvs).keys.insertionSort (· ≤ ·)

/-- The grouped reduction of a list of pairs, in the order of the keys. -/
def reduction (reduceF : String → List String → String) (kvs : List KeyValue) : List KeyValue :=
  (sortedKeys kvs).map fun key =>
    ⟨key, reduceF key (valuesOf KeyValue.key KeyValue.value key kvs)⟩

theorem mem_sortedKeys {kvs : List KeyValue} {key : String} :
    key ∈ sortedKeys kvs ↔ ∃ kv ∈ kvs, kv.key = key := by
  rw [sortedKeys, List.mem_insertionSort, Groups.mem_keys_addAll]
  simp [Groups.empty]

section ReduceTask

variable {jobName : String} {reduceTask nMap : Nat} {disk : Disk}

theorem readGroups_eq
    (present : ∀ nmap < nMap, reduceName jobName nmap reduceTask ∈ disk.values) :
    readGroups jobName reduceTask nMap disk =
      some (Groups.empty.addAll KeyValue.key KeyValue.value
        (reduceInput jobName reduceTask nMap disk)) := by
  have files : ∀ nmap ∈ List.range nMap, reduceName jobName nmap reduceTask ∈ disk.values := by
    simpa using present
  rw [reduceInput, Groups.addAll_flatMap]
  exact disk.foldlM_lookup (fun nmap => reduceName jobName nmap reduceTask)
    (fun (groups : Groups String String) content =>
      groups.addAll KeyValue.key KeyValue.value (unmarshal content)) files _

/-- A reduce task appends the grouped reduction of what it reads to its result file. -/
theorem doReduce_eq (reduceF : String → List String → String) (outFile : String)
    (present : ∀ nmap < nMap, reduceName jobName nmap reduceTask ∈ disk.values) :
    doReduce jobName reduceTask outFile nMap reduceF disk =
      some ((disk.create outFile).appendAll
        ((reduction reduceF (reduceInput jobName reduceTask nMap disk)).map fun kv =>
          (outFile, .object kv))) := by
  have values : ∀ key kvs, (Groups.empty.addAll KeyValue.key KeyValue.value kvs).get key =
      valuesOf KeyValue.key KeyValue.value key kvs := by
    intro key kvs
    rw [Groups.get_addAll]
    simp [Groups.empty, Groups.get]
  simp only [doReduce, readGroups_eq present, Option.map_some, values, reduction, sortedKeys,
    List.map_map, Function.comp_def]

end ReduceTask

/-- What the disk is after a task has written `results` to its result file. -/
structure Reduced (outFile : String) (results : List KeyValue) (disk disk' : Disk) : Prop where
  texts : disk'.texts = disk.texts
  written : disk'.file outFile = disk.file outFile ++ results.map Json.object
  others : ∀ name, name ≠ outFile → disk'.file name = disk.file name
  present : ∀ name, name ∈ disk'.values ↔ name = outFile ∨ name ∈ disk.values

theorem doReduce_spec {jobName : String} {reduceTask nMap : Nat} {disk : Disk}
    (reduceF : String → List String → String) (outFile : String)
    (present : ∀ nmap < nMap, reduceName jobName nmap reduceTask ∈ disk.values) :
    ∃ disk', doReduce jobName reduceTask outFile nMap reduceF disk = some disk' ∧
      Reduced outFile (reduction reduceF (reduceInput jobName reduceTask nMap disk))
        disk disk' := by
  refine ⟨_, doReduce_eq reduceF outFile present, ?_⟩
  generalize reduction reduceF (reduceInput jobName reduceTask nMap disk) = results
  constructor
  case texts => simp [Disk.create]
  case written =>
    rw [Disk.file_appendAll, Disk.file_create, List.filter_map, List.map_map]
    simp [Function.comp_def]
  case others =>
    intro name other
    rw [Disk.file_appendAll, Disk.file_create, List.filter_map, List.map_map]
    simp [Function.comp_def, other.symm]
  case present =>
    intro name
    rw [Disk.mem_appendAll, Disk.mem_create]
    simp only [List.map_map, Function.comp_def, List.mem_map]
    constructor
    · rintro (⟨_, _, rfl⟩ | present)
      · exact Or.inl rfl
      · exact present
    · exact Or.inr

/-! ## What the merge prints -/

/-- All pairs of the result files. -/
def results (jobName : String) (nReduce : Nat) (disk : Disk) : List KeyValue :=
  (List.range nReduce).flatMap fun i => decodeAll (disk.file (mergeName jobName i))

theorem readResults_eq {jobName : String} {nReduce : Nat} {disk : Disk}
    (present : ∀ i < nReduce, mergeName jobName i ∈ disk.values) :
    readResults jobName nReduce disk =
      some (storeAll KeyValue.key KeyValue.value ∅ (results jobName nReduce disk)) := by
  have files : ∀ i ∈ List.range nReduce, mergeName jobName i ∈ disk.values := by
    simpa using present
  rw [results, storeAll_flatMap]
  exact disk.foldlM_lookup (mergeName jobName)
    (fun kvs content => storeAll KeyValue.key KeyValue.value kvs (decodeAll content)) files _

/-- When the key decides the value in all result files, `merge` prints one line for each key,
in increasing order, whatever the order in which the map is ranged over. -/
theorem merge_spec {order : GoMap String String → List String}
    (visits : ∀ m, GoMap.Visits (order m) m) {jobName : String} {nReduce : Nat} {disk : Disk}
    (present : ∀ i < nReduce, mergeName jobName i ∈ disk.values) (f : String → String)
    (decided : ∀ kv ∈ results jobName nReduce disk, kv.value = f kv.key) :
    ∃ disk', ∃ keys : List String,
      merge order jobName nReduce disk = some disk' ∧ keys.Pairwise (· < ·) ∧
      (∀ key, key ∈ keys ↔ ∃ kv ∈ results jobName nReduce disk, kv.key = key) ∧
      disk'.texts.lookup ("mrtmp." ++ jobName) =
        some (String.join (keys.map fun key => line key (f key))) := by
  have stored := lookup_storeAll KeyValue.key KeyValue.value decided ∅
  have visited := visits (storeAll KeyValue.key KeyValue.value ∅ (results jobName nReduce disk))
  simp only [merge, readResults_eq present, Option.map_some]
  refine ⟨_, (order (storeAll KeyValue.key KeyValue.value ∅
    (results jobName nReduce disk))).insertionSort (· ≤ ·), rfl,
    pairwise_lt_insertionSort visited.1, ?_, ?_⟩
  · intro key
    rw [List.mem_insertionSort, visited.mem_iff, Finmap.mem_iff]
    constructor
    · rintro ⟨value, found⟩
      rw [stored] at found
      by_contra absent
      simp [absent] at found
    · intro found
      exact ⟨f key, by rw [stored, if_pos found]⟩
  · rw [Finmap.lookup_insert]
    congr 2
    apply List.map_congr_left
    intro key mem
    rw [List.mem_insertionSort, visited.mem_iff, Finmap.mem_iff] at mem
    obtain ⟨value, found⟩ := mem
    by_cases present : ∃ kv ∈ results jobName nReduce disk, kv.key = key
    · rw [stored, if_pos present]
      rfl
    · rw [stored, if_neg present] at found
      simp at found

end Mit6824.MapReduce
