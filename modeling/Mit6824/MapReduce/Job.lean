import Mathlib.Data.Finset.Sort
import Mit6824.MapReduce.Tasks

/-!
# A whole job

A sequential job runs one map task for each input file, one reduce task for each of the
`nReduce` result files and then the merge. Started without any of its intermediate files it
prints the grouped reduction of everything the map function emits: the pairs of a key all come
to the reduce task that the hash of the key chooses, in the order of the input files, and the
tasks have no key in common.
-/

namespace Mit6824.MapReduce

open Grouping

/-- What `Sequential` is called with. -/
structure Job where
  jobName : String
  files : List String
  nReduce : Nat
  mapF : String → String → List KeyValue
  reduceF : String → List String → String

namespace Job

def mapPhase (job : Job) (disk : Disk) : Option Disk :=
  job.files.zipIdx.foldlM (fun disk file =>
    doMap job.jobName file.2 file.1 job.nReduce job.mapF disk) disk

def reducePhase (job : Job) (disk : Disk) : Option Disk :=
  (List.range job.nReduce).foldlM (fun disk i =>
    doReduce job.jobName i (mergeName job.jobName i) job.files.length job.reduceF disk) disk

/-- What follows the map phase. -/
def finish (order : GoMap String String → List String) (job : Job) (disk : Disk) : Option Disk :=
  (job.reducePhase disk).bind (merge order job.jobName job.nReduce)

def sequential (order : GoMap String String → List String) (job : Job) (disk : Disk) :
    Option Disk :=
  (job.mapPhase disk).bind (job.finish order)

/-- None of the intermediate files is there. -/
def Fresh (job : Job) (disk : Disk) : Prop :=
  (∀ m < job.files.length, ∀ r < job.nReduce, reduceName job.jobName m r ∉ disk.values) ∧
    ∀ r < job.nReduce, mergeName job.jobName r ∉ disk.values

/-- What the map function emits for a file, nothing when it cannot be read. -/
def emits (job : Job) (disk : Disk) (file : String) : List KeyValue :=
  match disk.texts.lookup file with
  | none => []
  | some content => job.mapF file content

/-- Everything the map function emits, in the order of the files. -/
def emitted (job : Job) (disk : Disk) : List KeyValue :=
  job.files.flatMap (job.emits disk)

variable {job : Job} {disk : Disk}

theorem Fresh.file_reduceName (fresh : job.Fresh disk) {m r : Nat} (mapTask : m < job.files.length)
    (reduceTask : r < job.nReduce) : disk.file (reduceName job.jobName m r) = [] := by
  simp [Disk.file, Finmap.lookup_eq_none.mpr (fresh.1 m mapTask r reduceTask)]

theorem Fresh.file_mergeName (fresh : job.Fresh disk) {r : Nat} (reduceTask : r < job.nReduce) :
    disk.file (mergeName job.jobName r) = [] := by
  simp [Disk.file, Finmap.lookup_eq_none.mpr (fresh.2 r reduceTask)]

/-! ## The map phase -/

/-- The disk after the first `count` map tasks. -/
structure MapsDone (job : Job) (start : Disk) (count : Nat) (disk : Disk) : Prop where
  texts : disk.texts = start.texts
  written : ∀ m (mapTask : m < job.files.length), m < count → ∀ r < job.nReduce,
    reduceName job.jobName m r ∈ disk.values ∧
      disk.file (reduceName job.jobName m r) =
        [marshal (part job.nReduce r (job.emits start job.files[m]))]
  later : ∀ m < job.files.length, count ≤ m → ∀ r < job.nReduce,
    disk.file (reduceName job.jobName m r) = []
  results : ∀ r, disk.file (mergeName job.jobName r) = start.file (mergeName job.jobName r)

theorem MapsDone.start (fresh : job.Fresh disk) : job.MapsDone disk 0 disk where
  texts := rfl
  written := by
    intro m _ none
    omega
  later := fun m mapTask _ r reduceTask => fresh.file_reduceName mapTask reduceTask
  results := fun _ => rfl

/-- One more map task. -/
theorem MapsDone.step {start : Disk} {count : Nat} {disk disk' : Disk}
    (done : job.MapsDone start count disk) (inRange : count < job.files.length)
    (mapped : Mapped job.jobName count job.nReduce (job.emits start job.files[count]) disk disk') :
    job.MapsDone start (count + 1) disk' := by
  have untouched : ∀ m r, m ≠ count →
      disk'.file (reduceName job.jobName m r) = disk.file (reduceName job.jobName m r) := by
    intro m r other
    apply mapped.others
    intro r' _ same
    exact other (reduceName_inj same).1
  constructor
  case texts => rw [mapped.texts, done.texts]
  case written =>
    intro m mapTask ran r reduceTask
    rw [mapped.present]
    by_cases last : m = count
    · subst last
      refine ⟨Or.inl ⟨r, reduceTask, rfl⟩, ?_⟩
      rw [mapped.written r reduceTask, done.later m mapTask le_rfl r reduceTask, List.nil_append]
    · obtain ⟨present, content⟩ := done.written m mapTask (by omega) r reduceTask
      exact ⟨Or.inr present, by rw [untouched m r last, content]⟩
  case later =>
    intro m mapTask notRun r reduceTask
    rw [untouched m r (by omega), done.later m mapTask (by omega) r reduceTask]
  case results =>
    intro r
    rw [mapped.others, done.results]
    intro r' _ same
    exact reduceName_ne_mergeName _ _ _ _ same.symm

theorem mapPhase_spec (positive : 1 ≤ job.nReduce)
    (readable : ∀ file ∈ job.files, file ∈ disk.texts) (fresh : job.Fresh disk) :
    ∃ disk', job.mapPhase disk = some disk' ∧ job.MapsDone disk job.files.length disk' := by
  rw [mapPhase, ← List.length_zipIdx]
  apply exists_foldlM (job.MapsDone disk) (.start fresh)
  intro i inRange now done
  have mapTask : i < job.files.length := by simpa using inRange
  obtain ⟨content, read⟩ := Finmap.mem_iff.mp (readable _ (List.getElem_mem mapTask))
  have readNow : now.texts.lookup job.files[i] = some content := by rw [done.texts, read]
  obtain ⟨next, ran, mapped⟩ := doMap_spec job.jobName i job.mapF readNow positive
  refine ⟨next, by simpa using ran, done.step mapTask ?_⟩
  rw [emits, read]
  exact mapped

/-- What reduce task `r` reads after the map phase: its part of everything emitted. -/
theorem MapsDone.reduceInput_eq {disk' : Disk} (done : job.MapsDone disk job.files.length disk')
    {r : Nat} (reduceTask : r < job.nReduce) :
    reduceInput job.jobName r job.files.length disk' = part job.nReduce r (job.emitted disk) := by
  have read : (List.range job.files.length).map
      (fun nmap => unmarshal (disk'.file (reduceName job.jobName nmap r))) =
      job.files.map fun file => part job.nReduce r (job.emits disk file) := by
    apply List.ext_getElem (by simp)
    intro m _ mapTask
    have inRange : m < job.files.length := by simpa using mapTask
    simp [(done.written m inRange inRange r reduceTask).2]
  rw [reduceInput, List.flatMap_def, read, emitted, part, List.filter_flatMap, List.flatMap_def]
  rfl

/-! ## The reduce phase -/

/-- The disk after the first `count` reduce tasks. -/
structure ReducesDone (job : Job) (start : Disk) (count : Nat) (disk : Disk) : Prop where
  inputs : ∀ m r, disk.file (reduceName job.jobName m r) = start.file (reduceName job.jobName m r)
  present : ∀ name ∈ start.values, name ∈ disk.values
  written : ∀ r < count, mergeName job.jobName r ∈ disk.values ∧
    disk.file (mergeName job.jobName r) = start.file (mergeName job.jobName r) ++
      (reduction job.reduceF (reduceInput job.jobName r job.files.length start)).map Json.object
  later : ∀ r, count ≤ r →
    disk.file (mergeName job.jobName r) = start.file (mergeName job.jobName r)

theorem ReducesDone.start : job.ReducesDone disk 0 disk where
  inputs := fun _ _ => rfl
  present := fun _ mem => mem
  written := by
    intro r none
    omega
  later := fun _ _ => rfl

theorem ReducesDone.reduceInput_eq {start : Disk} {count : Nat}
    (done : job.ReducesDone start count disk) (r nMap : Nat) :
    reduceInput job.jobName r nMap disk = reduceInput job.jobName r nMap start := by
  simp only [reduceInput, done.inputs]

/-- One more reduce task. -/
theorem ReducesDone.step {start disk' : Disk} {count : Nat}
    (done : job.ReducesDone start count disk)
    (reduced : Reduced (mergeName job.jobName count)
      (reduction job.reduceF (reduceInput job.jobName count job.files.length start)) disk disk') :
    job.ReducesDone start (count + 1) disk' := by
  have untouched : ∀ r, r ≠ count →
      disk'.file (mergeName job.jobName r) = disk.file (mergeName job.jobName r) := by
    intro r other
    apply reduced.others
    intro same
    exact other (mergeName_inj same)
  constructor
  case inputs =>
    intro m r
    rw [reduced.others _ (reduceName_ne_mergeName _ _ _ _), done.inputs]
  case present =>
    intro name mem
    exact (reduced.present name).mpr (Or.inr (done.present name mem))
  case written =>
    intro r ran
    rw [reduced.present]
    by_cases last : r = count
    · subst last
      exact ⟨Or.inl rfl, by rw [reduced.written, done.later r le_rfl]⟩
    · obtain ⟨present, content⟩ := done.written r (by omega)
      exact ⟨Or.inr present, by rw [untouched r last, content]⟩
  case later =>
    intro r notRun
    rw [untouched r (by omega), done.later r (by omega)]

theorem reducePhase_spec (present : ∀ m < job.files.length, ∀ r < job.nReduce,
      reduceName job.jobName m r ∈ disk.values) :
    ∃ disk', job.reducePhase disk = some disk' ∧ job.ReducesDone disk job.nReduce disk' := by
  suffices loop : ∃ disk', job.reducePhase disk = some disk' ∧
      job.ReducesDone disk (List.range job.nReduce).length disk' by
    simpa using loop
  apply exists_foldlM (job.ReducesDone disk) .start
  intro i inRange now done
  have reduceTask : i < job.nReduce := by simpa using inRange
  obtain ⟨next, ran, reduced⟩ := doReduce_spec job.reduceF (mergeName job.jobName i)
    fun m mapTask => done.present _ (present m mapTask i reduceTask)
  rw [done.reduceInput_eq] at reduced
  exact ⟨next, by simpa using ran, done.step reduced⟩

/-! ## The output -/

theorem mem_reduction {reduceF : String → List String → String} {kvs : List KeyValue}
    {kv : KeyValue} : kv ∈ reduction reduceF kvs ↔
      (∃ item ∈ kvs, item.key = kv.key) ∧
        kv.value = reduceF kv.key (valuesOf KeyValue.key KeyValue.value kv.key kvs) := by
  simp only [reduction, List.mem_map]
  constructor
  · rintro ⟨key, mem, rfl⟩
    exact ⟨mem_sortedKeys.mp mem, rfl⟩
  · rintro ⟨mem, value⟩
    refine ⟨kv.key, mem_sortedKeys.mpr mem, ?_⟩
    cases kv
    simpa using value.symm

theorem exists_mem_reduction {reduceF : String → List String → String} {kvs : List KeyValue}
    {key : String} :
    (∃ kv ∈ reduction reduceF kvs, kv.key = key) ↔ ∃ item ∈ kvs, item.key = key := by
  simp [reduction, mem_sortedKeys]

/-- A pair of the reduction of a part is one of the whole reduction, in the part its key
belongs to. -/
theorem mem_reduction_part {reduceF : String → List String → String} {nReduce r : Nat}
    {kvs : List KeyValue} {kv : KeyValue} : kv ∈ reduction reduceF (part nReduce r kvs) ↔
      kv ∈ reduction reduceF kvs ∧ ihash kv.key % nReduce = r := by
  rw [mem_reduction, mem_reduction]
  constructor
  · rintro ⟨⟨item, mem, same⟩, value⟩
    obtain ⟨inKvs, chosen⟩ := List.mem_filter.mp mem
    have bucket : ihash kv.key % nReduce = r := by simpa [same] using chosen
    rw [valuesOf_part bucket] at value
    exact ⟨⟨⟨item, inKvs, same⟩, value⟩, bucket⟩
  · rintro ⟨⟨⟨item, mem, same⟩, value⟩, bucket⟩
    refine ⟨⟨item, List.mem_filter.mpr ⟨mem, by simpa [same] using bucket⟩, same⟩, ?_⟩
    rw [valuesOf_part bucket]
    exact value

/-- A sequential job on readable files, started without its intermediate files, prints one line
for each key that is emitted, in increasing order; the values of a key come in the order of the
files and, within a file, in the order in which they were emitted. -/
theorem sequential_output {order : GoMap String String → List String}
    (visits : ∀ m, GoMap.Visits (order m) m) (positive : 1 ≤ job.nReduce)
    (readable : ∀ file ∈ job.files, file ∈ disk.texts) (fresh : job.Fresh disk) :
    ∃ disk', ∃ keys : List String,
      job.sequential order disk = some disk' ∧ keys.Pairwise (· < ·) ∧
      (∀ key, key ∈ keys ↔ ∃ file ∈ job.files, ∃ kv ∈ job.emits disk file, kv.key = key) ∧
      disk'.texts.lookup ("mrtmp." ++ job.jobName) =
        some (String.join (keys.map fun key => line key (job.reduceF key
          (job.files.flatMap fun file =>
            valuesOf KeyValue.key KeyValue.value key (job.emits disk file))))) := by
  obtain ⟨mapped, ranMaps, maps⟩ := mapPhase_spec positive readable fresh
  obtain ⟨reduced, ranReduces, reduces⟩ := reducePhase_spec
    fun m mapTask r reduceTask => (maps.written m mapTask mapTask r reduceTask).1
  have content : ∀ r < job.nReduce, decodeAll (reduced.file (mergeName job.jobName r)) =
      reduction job.reduceF (part job.nReduce r (job.emitted disk)) := by
    intro r reduceTask
    rw [(reduces.written r reduceTask).2, maps.results, fresh.file_mergeName reduceTask,
      maps.reduceInput_eq reduceTask, List.nil_append, decodeAll_objects]
  have mem_results : ∀ kv, kv ∈ results job.jobName job.nReduce reduced ↔
      kv ∈ reduction job.reduceF (job.emitted disk) := by
    intro kv
    simp only [results, List.mem_flatMap, List.mem_range]
    constructor
    · rintro ⟨r, reduceTask, mem⟩
      rw [content r reduceTask] at mem
      exact (mem_reduction_part.mp mem).1
    · intro mem
      have reduceTask : ihash kv.key % job.nReduce < job.nReduce := Nat.mod_lt _ positive
      exact ⟨_, reduceTask, by rw [content _ reduceTask]; exact mem_reduction_part.mpr ⟨mem, rfl⟩⟩
  obtain ⟨last, keys, merged, increasing, mem_keys, output⟩ := merge_spec visits
    (fun r reduceTask => (reduces.written r reduceTask).1)
    (fun key => job.reduceF key (valuesOf KeyValue.key KeyValue.value key (job.emitted disk)))
    fun kv mem => (mem_reduction.mp ((mem_results kv).mp mem)).2
  refine ⟨last, keys, ?_, increasing, ?_, ?_⟩
  · simp only [sequential, finish, ranMaps, ranReduces, Option.bind_some, merged]
  · intro key
    simp only [mem_keys, mem_results, exists_mem_reduction, emitted, List.mem_flatMap]
    constructor
    · rintro ⟨item, ⟨file, inFiles, emits⟩, same⟩
      exact ⟨file, inFiles, item, emits, same⟩
    · rintro ⟨file, inFiles, item, emits, same⟩
      exact ⟨item, ⟨file, inFiles, emits⟩, same⟩
  · rw [output]
    simp only [emitted, valuesOf_flatMap]

/-- The job that emits each file under its own name. -/
def copyFiles : Job where
  jobName := "test"
  files := ["a", "b"]
  nReduce := 3
  mapF := fun file contents => [⟨file, contents⟩]
  reduceF := fun _ values => String.join values

/-- The disk with two input files. -/
def twoFiles : Disk where
  texts := GoMap.ofList [("a", "1"), ("b", "2")]
  values := ∅

theorem sequential_output_copyFiles :
    ∃ disk', ∃ keys : List String,
      copyFiles.sequential (fun m => m.keys.sort (· ≤ ·)) twoFiles = some disk' ∧
      keys.Pairwise (· < ·) ∧
      (∀ key, key ∈ keys ↔
        ∃ file ∈ copyFiles.files, ∃ kv ∈ copyFiles.emits twoFiles file, kv.key = key) ∧
      disk'.texts.lookup ("mrtmp." ++ copyFiles.jobName) =
        some (String.join (keys.map fun key => line key (copyFiles.reduceF key
          (copyFiles.files.flatMap fun file =>
            valuesOf KeyValue.key KeyValue.value key (copyFiles.emits twoFiles file))))) := by
  apply sequential_output
  · intro m
    exact ⟨Finset.sort_nodup _ _, Finset.sort_toFinset _ _⟩
  · decide
  · decide
  · exact ⟨fun _ _ _ _ => Finmap.notMem_empty, fun _ _ => Finmap.notMem_empty⟩

end Job

end Mit6824.MapReduce
