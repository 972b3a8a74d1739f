import Mit6824.MapReduce.Job
import Mit6824.MapReduce.Schedule

/-!
# Workers

`DoTask` runs one task at a worker, while other workers run theirs: between any two of its accesses
to the disk there may be some of another task. So a task is a state machine that makes one access
at a time (`doTask`). A worker that has the disk to itself does what `doMap` and `doReduce` do
(`reaches_finished`).

A task appends to files of its own. What is in them and what the task still has to write are, put
together, always what was there before and all its writes (`Owes`), whatever is written to other
files meanwhile. So the order in which tasks are done does not matter (`Settled.eq`).
-/

namespace Mit6824.MapReduce

open Grouping

/-- An access that changes the disk. -/
inductive Write where
  /-- Open a file with `O_APPEND|O_CREATE`. -/
  | create (name : String)
  /-- Write a value to the end of a file. -/
  | append (name : String) (v : Json)
deriving DecidableEq, Repr

namespace Write

def name : Write → String
  | .create name => name
  | .append name _ => name

def content : Write → List Json
  | .create _ => []
  | .append _ v => [v]

/-- What the writes append to a file. -/
def appended (name : String) (writes : List Write) : List Json :=
  writes.flatMap fun write => if write.name = name then write.content else []

theorem appended_cons (name : String) (write : Write) (rest : List Write) :
    appended name (write :: rest) =
      (if write.name = name then write.content else []) ++ appended name rest :=
  rfl

end Write

namespace Disk

def write (disk : Disk) : Write → Disk
  | .create name => disk.create name
  | .append name v => disk.append name v

variable {disk : Disk} {write : Write} {other : String}

@[simp]
theorem texts_write : (disk.write write).texts = disk.texts := by
  cases write <;> rfl

theorem file_write : (disk.write write).file other =
    disk.file other ++ if write.name = other then write.content else [] := by
  cases write with
  | create name => simp only [Disk.write, file_create, Write.content, ite_self, List.append_nil]
  | append name v => simp only [Disk.write, file_append, Write.name, Write.content, eq_comm]

theorem mem_write : other ∈ (disk.write write).values ↔
    other = write.name ∨ other ∈ disk.values := by
  cases write with
  | create name => exact mem_create disk name other
  | append name v => exact mem_append disk name other v

theorem lookup_write_of_ne (apart : write.name ≠ other) :
    (disk.write write).values.lookup other = disk.values.lookup other := by
  cases write with
  | create name => exact Finmap.lookup_insert_of_ne _ (Ne.symm apart)
  | append name v => exact Finmap.lookup_insert_of_ne _ (Ne.symm apart)

/-- Make the writes one after the other. -/
def writeAll (disk : Disk) (writes : List Write) : Disk :=
  writes.foldl Disk.write disk

end Disk

/-! ## A task at a worker -/

/-- What a map task writes. -/
def mapWrites (jobName : String) (mapTask nReduce : Nat) (keyValueRet : List KeyValue) :
    List Write :=
  ((List.range nReduce).map fun i => .create (reduceName jobName mapTask i)) ++
    (spread (fun val => ihash val.key % nReduce) nReduce keyValueRet).zipIdx.map fun val =>
      .append (reduceName jobName mapTask val.2) (marshal val.1)

/-- What a reduce task writes when it has read its files. -/
def reduceWrites (outFile : String) (reduceF : String → List String → String)
    (groups : Groups String String) : List Write :=
  .create outFile :: (groups.keys.insertionSort (· ≤ ·)).map fun key =>
    .append outFile (.object ⟨key, reduceF key (groups.get key)⟩)

/-- How far a worker has come with a task. -/
inductive Work where
  /-- The request has not reached the worker. -/
  | sent
  /-- In `doMap`, before the input file is read. -/
  | mapping
  /-- In the loop of `doReduce` over the files of the map tasks. -/
  | reducing (nmap : Nat) (groups : Groups String String)
  | writing (rest : List Write)
  | finished

/-- The next access of a worker to the disk; a panic is `none`. -/
def doTask (job : Job) (args : DoTaskArgs) (disk : Disk) : Work → Option (Work × Disk)
  | .sent =>
      match args.phase with
      | .mapPhase => some (.mapping, disk)
      | .reducePhase => some (.reducing 0 Groups.empty, disk)
  | .mapping =>
      match disk.texts.lookup args.file with
      | none => some (.writing [], disk)
      | some content =>
          let keyValueRet := job.mapF args.file content
          if args.numOtherPhase = 0 ∧ keyValueRet ≠ [] then none
          else
            some (.writing (mapWrites args.jobName args.taskNumber args.numOtherPhase keyValueRet),
              disk)
  | .reducing nmap groups =>
      if nmap < args.numOtherPhase then
        (disk.values.lookup (reduceName args.jobName nmap args.taskNumber)).map fun content =>
          (.reducing (nmap + 1) (groups.addAll KeyValue.key KeyValue.value (unmarshal content)),
            disk)
      else
        some (.writing (reduceWrites (mergeName args.jobName args.taskNumber) job.reduceF groups),
          disk)
  | .writing (write :: rest) => some (.writing rest, disk.write write)
  | .writing [] => some (.finished, disk)
  | .finished => none

/-- The switch of `DoTask` over the phases. -/
def DoTaskArgs.run (job : Job) (args : DoTaskArgs) (disk : Disk) : Option Disk :=
  match args.phase with
  | .mapPhase => doMap args.jobName args.taskNumber args.file args.numOtherPhase job.mapF disk
  | .reducePhase =>
      doReduce args.jobName args.taskNumber (mergeName args.jobName args.taskNumber)
        args.numOtherPhase job.reduceF disk

/-- All that the task writes when it reads from this disk. -/
def taskWrites (job : Job) (args : DoTaskArgs) (disk : Disk) : Option (List Write) :=
  match args.phase with
  | .mapPhase =>
      match disk.texts.lookup args.file with
      | none => some []
      | some content =>
          let keyValueRet := job.mapF args.file content
          if args.numOtherPhase = 0 ∧ keyValueRet ≠ [] then none
          else some (mapWrites args.jobName args.taskNumber args.numOtherPhase keyValueRet)
  | .reducePhase =>
      (readGroups args.jobName args.taskNumber args.numOtherPhase disk).map
        (reduceWrites (mergeName args.jobName args.taskNumber) job.reduceF)

theorem run_eq (job : Job) (args : DoTaskArgs) (disk : Disk) :
    args.run job disk = (taskWrites job args disk).map disk.writeAll := by
  unfold DoTaskArgs.run taskWrites
  cases args.phase with
  | mapPhase =>
      simp only [doMap]
      cases disk.texts.lookup args.file with
      | none => rfl
      | some content =>
          dsimp only
          split_ifs with panics
          · rfl
          · simp only [Option.map_some, Disk.writeAll, mapWrites, List.foldl_append, List.foldl_map,
              Disk.createAll, Disk.appendAll]
            rfl
  | reducePhase =>
      simp only [doReduce, Option.map_map]
      congr 1
      funext groups
      simp only [Function.comp_apply, Disk.writeAll, reduceWrites, List.foldl_cons, List.foldl_map,
        Disk.appendAll]
      rfl

/-- A task writes to files that are named after it. -/
theorem name_of_mem_taskWrites {job : Job} {args : DoTaskArgs} {disk : Disk} {writes : List Write}
    {write : Write} (all : taskWrites job args disk = some writes) (member : write ∈ writes) :
    match args.phase with
    | .mapPhase => ∃ r, write.name = reduceName args.jobName args.taskNumber r
    | .reducePhase => write.name = mergeName args.jobName args.taskNumber := by
  unfold taskWrites at all
  cases phase : args.phase with
  | mapPhase =>
      simp only [phase] at all
      split at all
      · cases all
        cases member
      · split_ifs at all
        cases all
        rcases List.mem_append.1 member with created | appended
        · obtain ⟨r, _, rfl⟩ := List.mem_map.1 created
          exact ⟨r, rfl⟩
        · obtain ⟨⟨_, r⟩, _, rfl⟩ := List.mem_map.1 appended
          exact ⟨r, rfl⟩
  | reducePhase =>
      simp only [phase] at all
      obtain ⟨groups, _, rfl⟩ := Option.map_eq_some_iff.1 all
      rcases List.mem_cons.1 member with rfl | appended
      · rfl
      · obtain ⟨key, _, rfl⟩ := List.mem_map.1 appended
        rfl

namespace Work

/-- What is left to write, of a task that writes `writes`. -/
def rest (writes : List Write) : Work → List Write
  | .sent | .mapping | .reducing _ _ => writes
  | .writing rest => rest
  | .finished => []

/-- The worker has begun and has not finished. -/
def busy : Work → Bool
  | .sent | .finished => false
  | _ => true

/-- The request has not reached the worker. -/
def unbegun : Work → Bool
  | .sent => true
  | _ => false

/-- What the worker has in hand comes from this disk. -/
def Reads (job : Job) (args : DoTaskArgs) (disk : Disk) : Work → Prop
  | .sent => True
  | .mapping => args.phase = .mapPhase
  | .reducing nmap groups => args.phase = .reducePhase ∧ nmap ≤ args.numOtherPhase ∧
      readGroups args.jobName args.taskNumber nmap disk = some groups
  | .writing _ | .finished => (taskWrites job args disk).isSome

end Work

/-- The disk still has what the task reads from `start`. -/
structure SameInputs (args : DoTaskArgs) (start disk : Disk) : Prop where
  texts : disk.texts = start.texts
  files : args.phase = .reducePhase → ∀ nmap,
    disk.values.lookup (reduceName args.jobName nmap args.taskNumber) =
      start.values.lookup (reduceName args.jobName nmap args.taskNumber)

theorem readGroups_succ (jobName : String) (reduceTask nmap : Nat) (disk : Disk) :
    readGroups jobName reduceTask (nmap + 1) disk =
      (readGroups jobName reduceTask nmap disk).bind fun groups =>
        (disk.values.lookup (reduceName jobName nmap reduceTask)).map fun content =>
          groups.addAll KeyValue.key KeyValue.value (unmarshal content) := by
  rw [readGroups, List.range_succ, List.foldlM_append, readGroups, Option.bind_eq_bind]
  congr 1
  funext groups
  exact bind_pure _

section Task

variable {job : Job} {args : DoTaskArgs} {start disk disk' : Disk} {work work' : Work}

theorem SameInputs.readGroups_eq (same : SameInputs args start disk)
    (phase : args.phase = .reducePhase) (nmap : Nat) :
    readGroups args.jobName args.taskNumber nmap disk =
      readGroups args.jobName args.taskNumber nmap start := by
  simp only [readGroups, same.files phase]

theorem SameInputs.taskWrites_eq (same : SameInputs args start disk) :
    taskWrites job args disk = taskWrites job args start := by
  unfold taskWrites
  cases phase : args.phase with
  | mapPhase => rw [same.texts]
  | reducePhase => rw [same.readGroups_eq phase]

/-- A step of a task changes nothing, or it is the next of its writes. -/
theorem doTask_cases {writes : List Write}
    (all : writes = (taskWrites job args start).getD []) (same : SameInputs args start disk)
    (reads : work.Reads job args start)
    (moved : doTask job args disk work = some (work', disk')) :
    work'.Reads job args start ∧ ((disk' = disk ∧ work'.rest writes = work.rest writes) ∨
      ∃ write, work.rest writes = write :: work'.rest writes ∧ disk' = disk.write write) := by
  subst all
  cases work with
  | sent =>
      simp only [doTask] at moved
      split at moved
      all_goals
        rename_i phase
        cases moved
      · exact ⟨phase, Or.inl ⟨rfl, rfl⟩⟩
      · exact ⟨⟨phase, Nat.zero_le _, rfl⟩, Or.inl ⟨rfl, rfl⟩⟩
  | mapping =>
      have phase : args.phase = .mapPhase := reads
      simp only [doTask, same.texts] at moved
      split at moved
      · rename_i unreadable
        cases moved
        have writes : taskWrites job args start = some [] := by
          simp only [taskWrites, phase, unreadable]
        exact ⟨by simp [Work.Reads, writes], Or.inl ⟨rfl, by simp [Work.rest, writes]⟩⟩
      · rename_i content read
        split_ifs at moved with panics
        cases moved
        have writes : taskWrites job args start = some (mapWrites args.jobName args.taskNumber
            args.numOtherPhase (job.mapF args.file content)) := by
          simp only [taskWrites, phase, read, if_neg panics]
        exact ⟨by simp [Work.Reads, writes], Or.inl ⟨rfl, by simp [Work.rest, writes]⟩⟩
  | reducing nmap groups =>
      obtain ⟨phase, bound, read⟩ := reads
      simp only [doTask] at moved
      split_ifs at moved with more
      · rw [same.files phase nmap] at moved
        obtain ⟨content, found, equal⟩ := Option.map_eq_some_iff.1 moved
        cases equal
        refine ⟨⟨phase, more, ?_⟩, Or.inl ⟨rfl, rfl⟩⟩
        rw [readGroups_succ, read, Option.bind_some, found, Option.map_some]
      · cases moved
        obtain rfl : nmap = args.numOtherPhase := by omega
        have writes : taskWrites job args start = some (reduceWrites
            (mergeName args.jobName args.taskNumber) job.reduceF groups) := by
          simp only [taskWrites, phase, read, Option.map_some]
        exact ⟨by simp [Work.Reads, writes], Or.inl ⟨rfl, by simp [Work.rest, writes]⟩⟩
  | writing rest =>
      cases rest with
      | nil =>
          cases moved
          exact ⟨reads, Or.inl ⟨rfl, rfl⟩⟩
      | cons write rest =>
          cases moved
          exact ⟨reads, Or.inr ⟨write, rfl, rfl⟩⟩
  | finished => cases moved

end Task

/-! ## A worker that has the disk to itself -/

section Alone

variable {job : Job} {args : DoTaskArgs} {disk disk' : Disk}

/-- The worker takes steps and nothing else happens. -/
abbrev Alone (job : Job) (args : DoTaskArgs) : Work × Disk → Work × Disk → Prop :=
  Reaches (fun (s : Work × Disk) (_ : Unit) => doTask job args s.2 s.1) anyStep

theorem alone_writing (rest : List Write) (disk : Disk) :
    Alone job args (.writing rest, disk) (.finished, disk.writeAll rest) := by
  induction rest generalizing disk with
  | nil => exact .single (a := ()) trivial rfl
  | cons write rest ih => exact (Reaches.single (a := ()) trivial rfl).trans (ih _)

theorem alone_reducing {nmap : Nat} {groups : Groups String String}
    (inRange : nmap ≤ args.numOtherPhase)
    (read : readGroups args.jobName args.taskNumber nmap disk = some groups) :
    Alone job args (.reducing 0 Groups.empty, disk) (.reducing nmap groups, disk) := by
  induction nmap generalizing groups with
  | zero =>
      cases read
      exact .refl _
  | succ nmap ih =>
      rw [readGroups_succ] at read
      obtain ⟨before, earlier, last⟩ := Option.bind_eq_some_iff.1 read
      obtain ⟨content, found, rfl⟩ := Option.map_eq_some_iff.1 last
      refine .tail (a := ()) (ih (by omega) earlier) trivial ?_
      simp only [doTask, if_pos (show nmap < args.numOtherPhase by omega), found, Option.map_some]

/-- A worker that nobody interferes with does the task as `doMap` and `doReduce` do it. -/
theorem reaches_finished (done : args.run job disk = some disk') :
    Alone job args (.sent, disk) (.finished, disk') := by
  rw [run_eq] at done
  obtain ⟨writes, all, rfl⟩ := Option.map_eq_some_iff.1 done
  refine .trans ?_ (alone_writing writes disk)
  unfold taskWrites at all
  split at all
  · rename_i phase
    have begun : Alone job args (.sent, disk) (.mapping, disk) :=
      .single (a := ()) trivial (by simp only [doTask, phase])
    refine .tail (a := ()) begun trivial ?_
    split at all
    · rename_i unreadable
      cases all
      simp only [doTask, unreadable]
    · rename_i content read
      dsimp only at all
      split_ifs at all with panics
      cases all
      simp only [doTask, read, if_neg panics]
  · rename_i phase
    obtain ⟨groups, read, rfl⟩ := Option.map_eq_some_iff.1 all
    have begun : Alone job args (.sent, disk) (.reducing 0 Groups.empty, disk) :=
      .single (a := ()) trivial (by simp only [doTask, phase])
    refine .tail (a := ()) (begun.trans (alone_reducing le_rfl read)) trivial ?_
    simp only [doTask, if_neg (lt_irrefl _)]

end Alone

/-! ## What is written and what is left -/

/-- The files of a task have what was there and what the task has written so far, and the rest is
still to come. -/
structure Owes (start : Disk) (writes rest : List Write) (disk : Disk) : Prop where
  suffix : rest <:+ writes
  content : ∀ write ∈ writes, disk.file write.name ++ Write.appended write.name rest =
    start.file write.name ++ Write.appended write.name writes
  present : ∀ write ∈ writes, write.name ∈ disk.values ∨ ∃ left ∈ rest, left.name = write.name

namespace Owes

variable {start disk : Disk} {writes rest : List Write} {write : Write}

theorem all (disk : Disk) (writes : List Write) : Owes disk writes writes disk where
  suffix := List.suffix_refl _
  content _ _ := rfl
  present write member := Or.inr ⟨write, member, rfl⟩

/-- The task makes its next write. -/
theorem step (owes : Owes start writes (write :: rest) disk) :
    Owes start writes rest (disk.write write) where
  suffix := (List.suffix_cons write rest).trans owes.suffix
  content other member := by
    rw [Disk.file_write, List.append_assoc, ← Write.appended_cons]
    exact owes.content other member
  present other member := by
    rw [Disk.mem_write]
    rcases owes.present other member with present | ⟨left, later, same⟩
    · exact Or.inl (Or.inr present)
    · rcases List.mem_cons.1 later with rfl | later
      · exact Or.inl (Or.inl same.symm)
      · exact Or.inr ⟨left, later, same⟩

/-- Another file is written to. -/
theorem other (owes : Owes start writes rest disk)
    (apart : ∀ own ∈ writes, own.name ≠ write.name) :
    Owes start writes rest (disk.write write) where
  suffix := owes.suffix
  content own member := by
    rw [Disk.file_write, if_neg (apart own member).symm, List.append_nil]
    exact owes.content own member
  present own member :=
    (owes.present own member).imp_left fun present => Disk.mem_write.2 (Or.inr present)

theorem writeAll (owes : Owes start writes rest disk) :
    Owes start writes [] (disk.writeAll rest) := by
  induction rest generalizing disk with
  | nil => exact owes
  | cons write rest ih => exact ih owes.step

theorem lookup_of_done (owes : Owes start writes [] disk) (member : write ∈ writes) :
    disk.values.lookup write.name =
      some (start.file write.name ++ Write.appended write.name writes) := by
  have present := (owes.present write member).resolve_right (by simp)
  rw [disk.lookup_values present, ← owes.content write member]
  simp [Write.appended]

end Owes

/-- The first `count` tasks are done, and nothing else has changed. -/
structure Settled (count : Nat) (writes : Nat → List Write) (start disk : Disk) : Prop where
  texts : disk.texts = start.texts
  written : ∀ task < count, ∀ write ∈ writes task, disk.values.lookup write.name =
    some (start.file write.name ++ Write.appended write.name (writes task))
  foreign : ∀ name, (∀ task < count, ∀ write ∈ writes task, write.name ≠ name) →
    disk.values.lookup name = start.values.lookup name

namespace Settled

variable {count : Nat} {writes : Nat → List Write} {start disk disk' : Disk}

/-- It does not matter how the tasks were done. -/
theorem eq (settled : Settled count writes start disk)
    (settled' : Settled count writes start disk') : disk = disk' := by
  have values : disk.values = disk'.values := by
    refine Finmap.ext_lookup fun name => ?_
    by_cases own : ∃ task < count, ∃ write ∈ writes task, write.name = name
    · obtain ⟨task, inTasks, write, member, rfl⟩ := own
      rw [settled.written task inTasks write member, settled'.written task inTasks write member]
    · push Not at own
      rw [settled.foreign name own, settled'.foreign name own]
  have texts := settled.texts.trans settled'.texts.symm
  cases disk
  cases disk'
  simp_all

theorem lookup_writeAll_of_ne {disk : Disk} {writes : List Write} {name : String}
    (apart : ∀ write ∈ writes, write.name ≠ name) :
    (disk.writeAll writes).values.lookup name = disk.values.lookup name := by
  induction writes generalizing disk with
  | nil => rfl
  | cons write rest ih =>
      have later : (disk.writeAll (write :: rest)) = (disk.write write).writeAll rest := rfl
      rw [later, ih fun other member => apart other (List.mem_cons_of_mem _ member),
        Disk.lookup_write_of_ne (apart write List.mem_cons_self)]

end Settled

end Mit6824.MapReduce
