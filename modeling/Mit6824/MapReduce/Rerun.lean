import Mit6824.MapReduce.Job

/-!
# Running a map task again

The intermediate files are opened in append mode, so a map task that runs again leaves two
JSON arrays in each of its files. A reduce task does not look at the error that `Unmarshal`
then returns and reads no pair from such a file (`unmarshal_twice`): the pairs of the task are
lost. The second run is harmless when it writes nothing, because the input file can no longer be
read, or when the map function has nothing to emit for it (`rerun_keeps_output`).
-/

namespace Mit6824.MapReduce

open Grouping

/-- `Unmarshal` fails on a file with more than one value. -/
theorem unmarshal_long {content : List Json} (long : 2 ≤ content.length) :
    unmarshal content = [] := by
  match content with
  | [] => rfl
  | [_] => simp at long
  | first :: _ :: _ => cases first <;> rfl

theorem unmarshal_append_null (content : List Json) : unmarshal (content ++ [.null]) = [] := by
  cases content with
  | nil => rfl
  | cons first rest => exact unmarshal_long (by simp)

theorem Disk.lookup_eq (disk : Disk) (name : String) :
    disk.values.lookup name = if name ∈ disk.values then some (disk.file name) else none := by
  by_cases present : name ∈ disk.values
  · rw [if_pos present, disk.lookup_values present]
  · rw [if_neg present, Finmap.lookup_eq_none.mpr present]

namespace Job

/-! ## What the rest of a job depends on -/

/-- Reduce tasks and merge read the same from both disks. -/
structure SameReads (job : Job) (disk disk' : Disk) : Prop where
  texts : disk'.texts = disk.texts
  present : ∀ name, name ∈ disk'.values ↔ name ∈ disk.values
  inputs : ∀ m r, r < job.nReduce → unmarshal (disk'.file (reduceName job.jobName m r)) =
    unmarshal (disk.file (reduceName job.jobName m r))
  results : ∀ r, disk'.file (mergeName job.jobName r) = disk.file (mergeName job.jobName r)

variable {job : Job} {disk disk' : Disk}

theorem SameReads.refl (job : Job) (disk : Disk) : job.SameReads disk disk where
  texts := rfl
  present := fun _ => Iff.rfl
  inputs := fun _ _ _ => rfl
  results := fun _ => rfl

theorem SameReads.readGroups_eq (same : job.SameReads disk disk') {r : Nat}
    (reduceTask : r < job.nReduce) (nMap : Nat) :
    readGroups job.jobName r nMap disk' = readGroups job.jobName r nMap disk := by
  unfold readGroups
  congr 1
  funext groups nmap
  rw [disk'.lookup_eq, disk.lookup_eq]
  by_cases present : reduceName job.jobName nmap r ∈ disk.values
  · simp [present, (same.present _).mpr present, same.inputs nmap r reduceTask]
  · simp [present, mt (same.present _).mp present]

theorem SameReads.doReduce (same : job.SameReads disk disk') {r : Nat}
    (reduceTask : r < job.nReduce) :
    Option.Rel job.SameReads
      (doReduce job.jobName r (mergeName job.jobName r) job.files.length job.reduceF disk)
      (doReduce job.jobName r (mergeName job.jobName r) job.files.length job.reduceF disk') := by
  unfold MapReduce.doReduce
  rw [same.readGroups_eq reduceTask]
  cases readGroups job.jobName r job.files.length disk with
  | none => exact .none
  | some groups =>
      apply Option.Rel.some
      constructor
      case texts => simp [Disk.create, same.texts]
      case present =>
        intro name
        rw [Disk.mem_appendAll, Disk.mem_appendAll, Disk.mem_create, Disk.mem_create, same.present]
      case inputs =>
        intro m r' other
        -- a result file is none of the files the reduce tasks read
        have untouched : ((groups.keys.insertionSort (· ≤ ·)).map fun key =>
            (mergeName job.jobName r, Json.object ⟨key, job.reduceF key (groups.get key)⟩)).filter
            (fun write => write.1 = reduceName job.jobName m r') = [] := by
          simp [List.filter_eq_nil_iff, (reduceName_ne_mergeName job.jobName m r' r).symm]
        rw [Disk.file_appendAll, Disk.file_appendAll, untouched]
        simpa using same.inputs m r' other
      case results =>
        intro r'
        rw [Disk.file_appendAll, Disk.file_appendAll, Disk.file_create, Disk.file_create,
          same.results]

theorem SameReads.reducePhase (same : job.SameReads disk disk') :
    Option.Rel job.SameReads (job.reducePhase disk) (job.reducePhase disk') := by
  apply foldlM_rel same
  intro disk disk' r mem same
  exact same.doReduce (List.mem_range.mp mem)

theorem SameReads.merge (same : job.SameReads disk disk')
    (order : GoMap String String → List String) :
    (MapReduce.merge order job.jobName job.nReduce disk').map Disk.texts =
      (MapReduce.merge order job.jobName job.nReduce disk).map Disk.texts := by
  have read : readResults job.jobName job.nReduce disk' =
      readResults job.jobName job.nReduce disk := by
    unfold readResults
    congr 1
    funext kvs i
    rw [disk'.lookup_eq, disk.lookup_eq, same.results]
    by_cases present : mergeName job.jobName i ∈ disk.values
    · simp [present, (same.present _).mpr present]
    · simp [present, mt (same.present _).mp present]
  simp only [MapReduce.merge, read, Option.map_map, Function.comp_def, same.texts]

/-- The output is the same when reduce tasks and merge read the same. -/
theorem SameReads.finish (same : job.SameReads disk disk')
    (order : GoMap String String → List String) :
    (job.finish order disk').map Disk.texts = (job.finish order disk).map Disk.texts := by
  unfold Job.finish
  generalize job.reducePhase disk = reduced, job.reducePhase disk' = reduced',
    same.reducePhase = related
  cases related with
  | none => rfl
  | some same => exact same.merge order

/-! ## The second run -/

/-- A second run of a map task makes every reduce task read no pair of it. -/
theorem unmarshal_twice {jobName inFile content : String} {mapTask nReduce : Nat}
    {mapF : String → String → List KeyValue} {disk : Disk}
    (read : disk.texts.lookup inFile = some content) (positive : 1 ≤ nReduce)
    (new : ∀ r < nReduce, reduceName jobName mapTask r ∉ disk.values) :
    ∃ once twice, doMap jobName mapTask inFile nReduce mapF disk = some once ∧
      doMap jobName mapTask inFile nReduce mapF once = some twice ∧
      ∀ r < nReduce,
        unmarshal (once.file (reduceName jobName mapTask r)) =
          part nReduce r (mapF inFile content) ∧
        unmarshal (twice.file (reduceName jobName mapTask r)) = [] := by
  obtain ⟨once, ran, first⟩ := doMap_spec jobName mapTask mapF read positive
  obtain ⟨twice, ranAgain, second⟩ := doMap_spec jobName mapTask mapF
    (first.texts ▸ read) positive
  refine ⟨once, twice, ran, ranAgain, ?_⟩
  intro r reduceTask
  have empty : disk.file (reduceName jobName mapTask r) = [] := by
    simp [Disk.file, Finmap.lookup_eq_none.mpr (new r reduceTask)]
  rw [second.written r reduceTask, first.written r reduceTask, empty]
  exact ⟨unmarshal_marshal _, unmarshal_long (by simp)⟩

/-- A map task that emits nothing, and of which nothing was read before, changes nothing that
is read. -/
theorem SameReads.of_silent {m : Nat}
    (mapped : Mapped job.jobName m job.nReduce [] disk disk')
    (present : ∀ r < job.nReduce, reduceName job.jobName m r ∈ disk.values)
    (nothing : ∀ r < job.nReduce, unmarshal (disk.file (reduceName job.jobName m r)) = []) :
    job.SameReads disk disk' := by
  constructor
  case texts => exact mapped.texts
  case present =>
    intro name
    rw [mapped.present]
    constructor
    · rintro (⟨r, reduceTask, rfl⟩ | mem)
      · exact present r reduceTask
      · exact mem
    · exact Or.inr
  case inputs =>
    intro m' r reduceTask
    by_cases own : m' = m
    · subst own
      rw [mapped.written r reduceTask, nothing r reduceTask]
      exact unmarshal_append_null _
    · rw [mapped.others]
      intro r' _ same
      exact own (reduceName_inj same).1
  case results =>
    intro r
    apply mapped.others
    intro r' _ same
    exact reduceName_ne_mergeName _ _ _ _ same.symm

/-- After a complete run of a map task, a second run leaves what reduce tasks and merge read, and
so the output of the job, as they were, provided that the map function emits nothing for the
task's file, or that the file can no longer be read. -/
theorem rerun_keeps_output (job : Job) (m : Nat) (mapTask : m < job.files.length)
    (positive : 1 ≤ job.nReduce)
    {before after : Disk} {content : String}
    (read : before.texts.lookup job.files[m] = some content)
    (first : doMap job.jobName m job.files[m] job.nReduce job.mapF before = some after)
    (kept : ∀ r < job.nReduce, disk.values.lookup (reduceName job.jobName m r) =
      after.values.lookup (reduceName job.jobName m r))
    (input : ∀ now, disk.texts.lookup job.files[m] = some now → now = content)
    (silent : job.emits disk job.files[m] = []) (order : GoMap String String → List String) :
    ∃ disk', doMap job.jobName m job.files[m] job.nReduce job.mapF disk = some disk' ∧
      (∀ r < job.nReduce, readGroups job.jobName r job.files.length disk' =
        readGroups job.jobName r job.files.length disk) ∧
      (∀ r < job.nReduce, unmarshal (disk'.file (reduceName job.jobName m r)) =
        unmarshal (disk.file (reduceName job.jobName m r))) ∧
      (job.finish order disk').map Disk.texts = (job.finish order disk).map Disk.texts := by
  suffices again : ∃ disk', doMap job.jobName m job.files[m] job.nReduce job.mapF disk =
      some disk' ∧ job.SameReads disk disk' by
    obtain ⟨disk', ran, same⟩ := again
    exact ⟨disk', ran, fun r reduceTask => same.readGroups_eq reduceTask _,
      fun r reduceTask => same.inputs m r reduceTask, same.finish order⟩
  cases found : disk.texts.lookup job.files[m] with
  | none => exact ⟨disk, doMap_unreadable found, .refl job disk⟩
  | some now =>
      have same := input now found
      subst same
      have nothing : job.mapF job.files[m] now = [] := by simpa [emits, found] using silent
      have once : Mapped job.jobName m job.nReduce [] before after := by
        obtain ⟨once, ran, wrote⟩ := doMap_spec job.jobName m job.mapF read positive
        rw [first, Option.some.injEq] at ran
        rw [ran, ← nothing]
        exact wrote
      have present : ∀ r < job.nReduce, reduceName job.jobName m r ∈ disk.values := by
        intro r reduceTask
        have written := (once.present _).mpr (Or.inl ⟨r, reduceTask, rfl⟩)
        rw [Finmap.mem_iff] at written ⊢
        rw [kept r reduceTask]
        exact written
      have readNothing : ∀ r < job.nReduce,
          unmarshal (disk.file (reduceName job.jobName m r)) = [] := by
        intro r reduceTask
        have same : disk.file (reduceName job.jobName m r) =
            after.file (reduceName job.jobName m r) := by
          simp only [Disk.file, kept r reduceTask]
        rw [same, once.written r reduceTask]
        exact unmarshal_append_null _
      obtain ⟨disk', ranAgain, again⟩ := doMap_spec job.jobName m job.mapF found positive
      rw [nothing] at again
      exact ⟨disk', ranAgain, .of_silent again present readNothing⟩

/-- A job whose map function emits nothing. -/
def silentFiles : Job :=
  { copyFiles with mapF := fun _ _ => [] }

theorem rerun_keeps_output_silentFiles :
    ∃ after, doMap "test" 0 "a" 3 silentFiles.mapF twoFiles = some after ∧
      ∃ disk', doMap "test" 0 "a" 3 silentFiles.mapF after = some disk' ∧
        (∀ r < 3, readGroups "test" r 2 disk' = readGroups "test" r 2 after) ∧
        (∀ r < 3, unmarshal (disk'.file (reduceName "test" 0 r)) =
          unmarshal (after.file (reduceName "test" 0 r))) ∧
        (silentFiles.finish (fun m => m.keys.sort (· ≤ ·)) disk').map Disk.texts =
          (silentFiles.finish (fun m => m.keys.sort (· ≤ ·)) after).map Disk.texts := by
  have read : twoFiles.texts.lookup "a" = some "1" := by decide
  obtain ⟨after, ran, mapped⟩ : ∃ after, doMap "test" 0 "a" 3 silentFiles.mapF twoFiles =
      some after ∧ Mapped "test" 0 3 (silentFiles.mapF "a" "1") twoFiles after :=
    doMap_spec "test" 0 silentFiles.mapF read (by decide)
  have input : ∀ now, after.texts.lookup "a" = some now → now = "1" := by
    intro now found
    rw [mapped.texts, read] at found
    exact (Option.some.inj found).symm
  have silent : silentFiles.emits after "a" = [] := by
    unfold emits
    split <;> rfl
  exact ⟨after, ran, rerun_keeps_output silentFiles 0 (by decide) (by decide) read ran
    (fun _ _ => rfl) input silent _⟩

/-- The job that emits the one file it reads under its own name. -/
def copyFile : Job :=
  { copyFiles with files := ["a"], nReduce := 2 }

/-- One run of the only map task, and the output has the pair that it emits; two runs, and the
output is empty. -/
theorem rerun_loses_pairs :
    ((doMap "test" 0 "a" 2 copyFile.mapF twoFiles).bind
        (copyFile.finish fun m => if "a" ∈ m then ["a"] else [])).bind
      (fun disk => disk.texts.lookup "mrtmp.test") = some "a: 1\n" ∧
    (((doMap "test" 0 "a" 2 copyFile.mapF twoFiles).bind
        (doMap "test" 0 "a" 2 copyFile.mapF)).bind
        (copyFile.finish fun m => if "a" ∈ m then ["a"] else [])).bind
      (fun disk => disk.texts.lookup "mrtmp.test") = some "" := by
  decide +kernel

end Job

end Mit6824.MapReduce
