import Mit6824.MapReduce.Job

/-!
# Running reduce tasks again

A reduce task appends its results to its result file, so a task that ran several times leaves the
same stream of pairs several times in its file. All streams of a task are the same, since the
files it reads do not change, and in each of them the key decides the value. The merge stores
every pair under its key, so what it prints depends neither on the order in which the tasks ran
nor on how often (`Job.reduce_again_keeps_output`).

Nothing is asked of the intermediate files but that they are there, and nothing of the
result files, which may hold something before the first task runs.
-/

namespace Mit6824.MapReduce

open Grouping

/-- Behind a value that `Decode` cannot read nothing is decoded; otherwise what follows is decoded
as it would be alone. -/
theorem decodeAll_append (content : List Json) :
    (∀ more, decodeAll (content ++ more) = decodeAll content) ∨
      ∀ more, decodeAll (content ++ more) = decodeAll content ++ decodeAll more := by
  induction content with
  | nil => exact Or.inr fun more => rfl
  | cons value rest ih =>
      cases value with
      | array kvs => exact Or.inl fun more => rfl
      | null | object =>
          refine ih.imp (fun stops more => ?_) fun goes more => ?_
          · rw [List.cons_append, decodeAll, decodeAll, stops]
          · rw [List.cons_append, decodeAll, decodeAll, goes, List.cons_append]

namespace Job

variable {job : Job} {before disk disk' : Disk}

/-- Reduce tasks run one after the other, in any order and any number of times. -/
def reduceTasks (job : Job) (tasks : List Nat) (disk : Disk) : Option Disk :=
  tasks.foldlM (fun disk i =>
    doReduce job.jobName i (mergeName job.jobName i) job.files.length job.reduceF disk) disk

/-- The pairs that a reduce task writes. -/
def output (job : Job) (disk : Disk) (r : Nat) : List KeyValue :=
  reduction job.reduceF (reduceInput job.jobName r job.files.length disk)

/-- The disk after the reduce tasks `ran`. -/
structure ReducesRan (job : Job) (before : Disk) (ran : List Nat) (disk : Disk) : Prop where
  inputs : ∀ m r,
    disk.file (reduceName job.jobName m r) = before.file (reduceName job.jobName m r)
  present : ∀ name, name ∈ disk.values ↔
    name ∈ before.values ∨ ∃ r ∈ ran, name = mergeName job.jobName r
  written : ∀ r, disk.file (mergeName job.jobName r) = before.file (mergeName job.jobName r) ++
    (List.replicate (ran.count r) (job.output before r)).flatten.map Json.object

theorem ReducesRan.start (job : Job) (disk : Disk) : job.ReducesRan disk [] disk where
  inputs := fun _ _ => rfl
  present := by simp
  written := by simp

/-- One more reduce task. -/
theorem ReducesRan.step {ran : List Nat} {task : Nat} (done : job.ReducesRan before ran disk)
    (reduced : Reduced (mergeName job.jobName task) (job.output before task) disk disk') :
    job.ReducesRan before (ran ++ [task]) disk' := by
  constructor
  case inputs =>
    intro m r
    rw [reduced.others _ (reduceName_ne_mergeName _ _ _ _), done.inputs]
  case present =>
    intro name
    rw [reduced.present, done.present]
    simp only [List.mem_append, List.mem_singleton, or_and_right, exists_or, exists_eq_left]
    exact or_comm.trans or_assoc
  case written =>
    intro r
    by_cases own : r = task
    · subst own
      rw [reduced.written, done.written, List.count_append, List.count_singleton_self,
        List.replicate_succ']
      simp
    · rw [reduced.others _ fun same => own (mergeName_inj same), done.written, List.count_append,
        List.count_singleton, if_neg (by simpa using Ne.symm own), Nat.add_zero]

/-- The reduce tasks come to their end when the intermediate files are there. -/
theorem reduceTasks_spec {tasks : List Nat} (inRange : ∀ r ∈ tasks, r < job.nReduce)
    (present : ∀ m < job.files.length, ∀ r < job.nReduce,
      reduceName job.jobName m r ∈ disk.values) :
    ∃ disk', job.reduceTasks tasks disk = some disk' ∧ job.ReducesRan disk tasks disk' := by
  suffices loop : ∃ disk', job.reduceTasks tasks disk = some disk' ∧
      job.ReducesRan disk (tasks.take tasks.length) disk' by
    rwa [List.take_length] at loop
  apply exists_foldlM (fun i now => job.ReducesRan disk (tasks.take i) now) (.start job disk)
  intro i inside now done
  have reduceTask := inRange tasks[i] (List.getElem_mem inside)
  obtain ⟨next, ran, reduced⟩ := doReduce_spec job.reduceF (mergeName job.jobName tasks[i])
    fun m mapTask => (done.present _).2 (Or.inl (present m mapTask _ reduceTask))
  refine ⟨next, ran, ?_⟩
  rw [List.take_add_one, List.getElem?_eq_getElem inside]
  refine done.step ?_
  simpa only [output, reduceInput, done.inputs] using reduced

/-- The results that are stored do not depend on how often the tasks ran. -/
theorem ReducesRan.storeAll_eq {ran ran' : List Nat} (done : job.ReducesRan before ran disk)
    (done' : job.ReducesRan before ran' disk') {r : Nat} (once : r ∈ ran) (once' : r ∈ ran')
    (m : GoMap String String) :
    storeAll KeyValue.key KeyValue.value m (decodeAll (disk.file (mergeName job.jobName r))) =
      storeAll KeyValue.key KeyValue.value m
        (decodeAll (disk'.file (mergeName job.jobName r))) := by
  let value (key : String) : String := job.reduceF key (valuesOf KeyValue.key KeyValue.value key
    (reduceInput job.jobName r job.files.length before))
  have decided : ∀ count, ∀ kv ∈ (List.replicate count (job.output before r)).flatten,
      kv.value = value kv.key := by
    intro count kv member
    obtain ⟨stream, listed, inStream⟩ := List.mem_flatten.1 member
    rw [List.eq_of_mem_replicate listed] at inStream
    exact (mem_reduction.1 inStream).2
  have members : ∀ {count}, 0 < count → ∀ kv,
      kv ∈ (List.replicate count (job.output before r)).flatten ↔ kv ∈ job.output before r := by
    intro count positive kv
    simp [List.mem_flatten, List.mem_replicate, positive.ne']
  rw [done.written, done'.written]
  rcases decodeAll_append (before.file (mergeName job.jobName r)) with stops | goes
  · rw [stops, stops]
  · rw [goes, goes, decodeAll_objects, decodeAll_objects, storeAll_append, storeAll_append]
    refine Grouping.storeAll_eq (f := value) _ _ (decided _) (decided _) (fun key => ?_) _
    simp only [members (List.count_pos_iff.2 once), members (List.count_pos_iff.2 once')]

/-- The merge reads the same map after any runs in which every task ran. -/
theorem ReducesRan.readResults_eq {ran ran' : List Nat} (done : job.ReducesRan before ran disk)
    (done' : job.ReducesRan before ran' disk') (all : ∀ r < job.nReduce, r ∈ ran)
    (all' : ∀ r < job.nReduce, r ∈ ran') :
    ∃ kvs, readResults job.jobName job.nReduce disk = some kvs ∧
      readResults job.jobName job.nReduce disk' = some kvs := by
  have present : ∀ r < job.nReduce, mergeName job.jobName r ∈ disk.values :=
    fun r reduceTask => (done.present _).2 (Or.inr ⟨r, all r reduceTask, rfl⟩)
  have present' : ∀ r < job.nReduce, mergeName job.jobName r ∈ disk'.values :=
    fun r reduceTask => (done'.present _).2 (Or.inr ⟨r, all' r reduceTask, rfl⟩)
  refine ⟨_, MapReduce.readResults_eq present, ?_⟩
  rw [MapReduce.readResults_eq present', results, results, storeAll_flatMap, storeAll_flatMap]
  refine congrArg some (List.foldl_ext _ _ _ fun m r member => ?_)
  have reduceTask := List.mem_range.1 member
  exact done'.storeAll_eq done (all' r reduceTask) (all r reduceTask) m

/-- When all intermediate files are there, any runs of the reduce tasks in which every task ran,
in whatever order and however often, come to their end, and the merge then prints what it prints
after each task ran once. -/
theorem reduce_again_keeps_output (job : Job) (disk : Disk)
    (present : ∀ m < job.files.length, ∀ r < job.nReduce,
      reduceName job.jobName m r ∈ disk.values)
    (tasks : List Nat) (inRange : ∀ r ∈ tasks, r < job.nReduce)
    (all : ∀ r < job.nReduce, r ∈ tasks) (order order' : GoMap String String → List String)
    (visits : ∀ m, GoMap.Visits (order m) m) (visits' : ∀ m, GoMap.Visits (order' m) m) :
    ∃ once again final final' text, job.reducePhase disk = some once ∧
      job.reduceTasks tasks disk = some again ∧
      merge order job.jobName job.nReduce once = some final ∧
      merge order' job.jobName job.nReduce again = some final' ∧
      final.texts.lookup ("mrtmp." ++ job.jobName) = some text ∧
      final'.texts.lookup ("mrtmp." ++ job.jobName) = some text := by
  obtain ⟨once, ran, done⟩ : ∃ once, job.reducePhase disk = some once ∧
      job.ReducesRan disk (List.range job.nReduce) once :=
    reduceTasks_spec (fun r => List.mem_range.1) present
  obtain ⟨again, ran', done'⟩ := reduceTasks_spec inRange present
  obtain ⟨kvs, read, read'⟩ :=
    done.readResults_eq done' (fun r => List.mem_range.2) all
  have sorted := (insertionSort_of_visits (visits kvs)).trans
    (insertionSort_of_visits (visits' kvs)).symm
  refine ⟨once, again, _, _, _, ran, ran', by rw [merge, read, Option.map_some],
    by rw [merge, read', Option.map_some], Finmap.lookup_insert _, ?_⟩
  rw [sorted]
  exact Finmap.lookup_insert _

/-- The intermediate files of one map task and two reduce tasks. -/
def mappedFile : Disk where
  texts := ∅
  values := GoMap.ofList
    [("mrtmp.test-0-0", [.array [⟨"a", "1"⟩, ⟨"a", "2"⟩]]), ("mrtmp.test-0-1", [.null])]

/-- A job with one file and two reduce tasks. -/
def joinValues : Job :=
  { copyFiles with files := ["in"], nReduce := 2 }

theorem reduce_again_keeps_output_joinValues :
    ∃ once again final final' text, joinValues.reducePhase mappedFile = some once ∧
      joinValues.reduceTasks [1, 0, 1, 0] mappedFile = some again ∧
      merge (fun m => m.keys.sort (· ≤ ·)) "test" 2 once = some final ∧
      merge (fun m => m.keys.sort (· ≤ ·)) "test" 2 again = some final' ∧
      final.texts.lookup "mrtmp.test" = some text ∧
      final'.texts.lookup "mrtmp.test" = some text := by
  have visits : ∀ m : GoMap String String, GoMap.Visits (m.keys.sort (· ≤ ·)) m :=
    fun m => ⟨Finset.sort_nodup _ _, Finset.sort_toFinset _ _⟩
  exact reduce_again_keeps_output joinValues mappedFile (by decide) [1, 0, 1, 0] (by decide)
    (by decide) _ _ visits visits

end Job

end Mit6824.MapReduce
