import Mit6824.MapReduce.Distributed

/-!
# The disk that a distributed job leaves

In each phase every task is done once, by one worker, and the tasks write to different files. So
the files of a task have at any time what its worker has written so far (`Underway`), and when the
phase is over, the disk is the one that the tasks leave when they are done one after the other.
-/

namespace Mit6824.MapReduce

namespace Job

variable {job : Job} {phase : JobPhase} {start disk : Disk} {task task' : Nat} {name : String}

/-- The arguments of a task. -/
def taskArgs (job : Job) (phase : JobPhase) (task : Nat) : DoTaskArgs :=
  ⟨job.jobName, job.files[task]?.getD "", phase, task, (job.schedules phase).nOther⟩

theorem eq_taskArgs {args : DoTaskArgs} (asks : (job.schedules phase).Asks args) :
    args = job.taskArgs phase args.taskNumber := by
  obtain ⟨jobName, file, phase', numOtherPhase⟩ := asks
  obtain ⟨_, _, _, _, _⟩ := args
  simp only [schedules] at jobName file phase'
  simp only [taskArgs, DoTaskArgs.mk.injEq]
  exact ⟨jobName, by simp [file], phase', trivial, numOtherPhase⟩

/-- All that a task writes when it reads from this disk. -/
def writes (job : Job) (phase : JobPhase) (disk : Disk) (task : Nat) : List Write :=
  (taskWrites job (job.taskArgs phase task) disk).getD []

/-- The file is one that the task writes to. -/
def Owns (job : Job) (phase : JobPhase) (task : Nat) (name : String) : Prop :=
  match phase with
  | .mapPhase => ∃ r, name = reduceName job.jobName task r
  | .reducePhase => name = mergeName job.jobName task

theorem Owns.eq (owns : job.Owns phase task name) (owns' : job.Owns phase task' name) :
    task = task' := by
  cases phase with
  | mapPhase =>
      obtain ⟨r, rfl⟩ := owns
      obtain ⟨r', same⟩ := owns'
      exact (reduceName_inj same).1
  | reducePhase => exact mergeName_inj (owns.symm.trans owns')

theorem owns_of_mem_writes {write : Write} (member : write ∈ job.writes phase disk task) :
    job.Owns phase task write.name := by
  obtain ⟨all, found, member⟩ : ∃ all, taskWrites job (job.taskArgs phase task) disk = some all ∧
      write ∈ all := by
    cases found : taskWrites job (job.taskArgs phase task) disk with
    | none => simp [writes, found] at member
    | some all => exact ⟨all, rfl, by simpa [writes, found] using member⟩
  have named := name_of_mem_taskWrites found member
  cases phase with
  | mapPhase => exact named
  | reducePhase => exact named

/-- Two tasks write to different files. -/
theorem writes_apart (other : task ≠ task') :
    ∀ write ∈ job.writes phase disk task, ∀ write' ∈ job.writes phase disk task',
      write.name ≠ write'.name := by
  intro write member write' member' same
  have owns := owns_of_mem_writes member
  rw [same] at owns
  exact other (owns.eq (owns_of_mem_writes member'))

/-- Nothing that the tasks of a phase read is written to in the phase. -/
theorem sameInputs {count : Nat} (texts : disk.texts = start.texts)
    (foreign : ∀ name, (∀ task < count, ∀ write ∈ job.writes phase start task,
      write.name ≠ name) → disk.values.lookup name = start.values.lookup name) (task : Nat) :
    SameInputs (job.taskArgs phase task) start disk where
  texts := texts
  files reduces nmap := by
    refine foreign _ fun task' _ write member same => ?_
    obtain rfl : phase = .reducePhase := reduces
    have owns : write.name = mergeName job.jobName task' := owns_of_mem_writes member
    exact reduceName_ne_mergeName _ _ _ _ (same.symm.trans owns)

end Job

/-! ## One task after the other -/

namespace Settled

variable {job : Job} {phase : JobPhase} {start disk : Disk} {count : Nat}

/-- One more task is done. -/
theorem step (settled : Settled count (job.writes phase start) start disk)
    (runs : (taskWrites job (job.taskArgs phase count) start).isSome) :
    ∃ disk', (job.taskArgs phase count).run job disk = some disk' ∧
      Settled (count + 1) (job.writes phase start) start disk' := by
  have same := job.sameInputs settled.texts settled.foreign count
  obtain ⟨all, found⟩ := Option.isSome_iff_exists.1 runs
  have writes : job.writes phase start count = all := by simp [Job.writes, found]
  refine ⟨disk.writeAll all, ?_, ?_⟩
  · rw [run_eq, same.taskWrites_eq, found, Option.map_some]
  have texts : ∀ (ws : List Write) (disk : Disk), (disk.writeAll ws).texts = disk.texts := by
    intro ws
    induction ws with
    | nil => exact fun _ => rfl
    | cons write rest ih => exact fun disk => (ih _).trans Disk.texts_write
  have fresh : ∀ write ∈ all, disk.values.lookup write.name = start.values.lookup write.name := by
    intro write member
    refine settled.foreign _ fun task before other member' same => ?_
    rw [← writes] at member
    exact Job.writes_apart (by omega) other member' write member same
  have owes : Owes start all all disk := by
    refine ⟨List.suffix_refl _, fun write member => ?_,
      fun write member => Or.inr ⟨write, member, rfl⟩⟩
    simp only [Disk.file, fresh write member]
  refine ⟨(texts all disk).trans settled.texts, fun task before write member => ?_,
    fun name apart => ?_⟩
  · rcases Nat.lt_succ_iff_lt_or_eq.1 before with earlier | rfl
    · rw [lookup_writeAll_of_ne fun own member' => ?_]
      · exact settled.written task earlier write member
      · rw [← writes] at member'
        exact (Job.writes_apart (by omega) write member own member').symm
    · rw [writes] at member ⊢
      exact owes.writeAll.lookup_of_done member
  · rw [lookup_writeAll_of_ne fun own member => ?_]
    · exact settled.foreign name fun task before => apart task (by omega)
    · rw [← writes] at member
      exact apart count (Nat.lt_succ_self _) own member

theorem zero (writes : Nat → List Write) (disk : Disk) : Settled 0 writes disk disk where
  texts := rfl
  written _ none := absurd none (Nat.not_lt_zero _)
  foreign _ _ := rfl

end Settled

namespace Job

variable {job : Job} {start disk : Disk}

theorem mapPhase_eq (runs : ∀ task < job.files.length,
      (taskWrites job (job.taskArgs .mapPhase task) start).isSome)
    (settled : Settled job.files.length (job.writes .mapPhase start) start disk) :
    job.mapPhase start = some disk := by
  have loop : ∃ disk', job.mapPhase start = some disk' ∧
      Settled job.files.zipIdx.length (job.writes .mapPhase start) start disk' := by
    refine exists_foldlM (fun count => Settled count (job.writes .mapPhase start) start)
      (.zero _ start) fun i inRange now settled => ?_
    have inFiles : i < job.files.length := by simpa using inRange
    obtain ⟨disk', ran, settled'⟩ := settled.step (runs i inFiles)
    refine ⟨disk', ?_, settled'⟩
    simpa [DoTaskArgs.run, taskArgs, schedules, Phase.nOther, inFiles] using ran
  obtain ⟨disk', ran, settled'⟩ := loop
  rw [List.length_zipIdx] at settled'
  rw [ran, settled'.eq settled]

theorem reducePhase_eq (runs : ∀ task < job.nReduce,
      (taskWrites job (job.taskArgs .reducePhase task) start).isSome)
    (settled : Settled job.nReduce (job.writes .reducePhase start) start disk) :
    job.reducePhase start = some disk := by
  have loop : ∃ disk', job.reducePhase start = some disk' ∧
      Settled (List.range job.nReduce).length (job.writes .reducePhase start) start disk' := by
    refine exists_foldlM (fun count => Settled count (job.writes .reducePhase start) start)
      (.zero _ start) fun i inRange now settled => ?_
    have reduceTask : i < job.nReduce := by simpa using inRange
    obtain ⟨disk', ran, settled'⟩ := settled.step (runs i reduceTask)
    refine ⟨disk', ?_, settled'⟩
    simpa [DoTaskArgs.run, taskArgs, schedules, Phase.nOther] using ran
  obtain ⟨disk', ran, settled'⟩ := loop
  rw [List.length_range] at settled'
  rw [ran, settled'.eq settled]

end Job

/-! ## A phase that is under way -/

/-- The state of the call and of its execution fit together. -/
def Call.Agrees (job : Job) (start : Disk) (call : Call) : Option Execution → Prop
  | none => call.state = .created
  | some execution => execution.args = call.args ∧
      execution.work.Reads job execution.args start ∧
      match call.state with
      | .created => False
      | .calling _ _ => True
      | .failed _ _ | .ending false | .done false => execution.work = .sent
      | .ending true | .done true => execution.work = .finished

/-- A call that has been made has an execution. -/
theorem Call.Agrees.exists_execution {job : Job} {start : Disk} {call : Call}
    {entry : Option Execution} (agrees : call.Agrees job start entry)
    (made : call.state ≠ .created) : ∃ execution, entry = some execution ∧
      Call.Agrees job start call (some execution) := by
  cases entry with
  | none => exact absurd agrees made
  | some execution => exact ⟨execution, rfl, agrees⟩

namespace Distributed

variable {job : Job} {start : Disk} {d d' : Distributed}

/-- What the call with number `k` still has to write, of a task that writes `writes`. -/
def restOf (d : Distributed) (k : Nat) (writes : List Write) : List Write :=
  match d.executions d.phase k with
  | none => writes
  | some execution => execution.work.rest writes

/-- What is still to be written for a task: what the call that has it still has to write, or
everything. -/
structure Left (d : Distributed) (writes : List Write) (task : Nat) (rest : List Write) : Prop where
  has : ∀ {k : Nat} {call : Call}, d.schedule.calls[k]? = some call → call.Has task →
    rest = d.restOf k writes
  nobody : (∀ call ∈ d.schedule.calls, ¬ call.Has task) → rest = writes

/-- A phase that began with the disk `start`. -/
structure Underway (job : Job) (start : Disk) (d : Distributed) : Prop where
  shares : d.schedule.Shares (job.schedules d.phase)
  texts : d.disk.texts = start.texts
  foreign : ∀ name, (∀ task < (job.schedules d.phase).ntasks,
    ∀ write ∈ job.writes d.phase start task, write.name ≠ name) →
      d.disk.values.lookup name = start.values.lookup name
  agrees : ∀ {k : Nat} {call : Call}, d.schedule.calls[k]? = some call →
    call.Agrees job start (d.executions d.phase k)
  nobody : ∀ {k : Nat}, d.schedule.calls[k]? = none → d.executions d.phase k = none
  earlier : ∀ {phase : JobPhase} {k : Nat} {execution : Execution}, phase ≠ d.phase →
    d.executions phase k = some execution →
    execution.work.busy = false ∧ d.phase = .reducePhase
  owes : ∀ task < (job.schedules d.phase).ntasks, ∃ rest,
    d.Left (job.writes d.phase start task) task rest ∧
      Owes start (job.writes d.phase start task) rest d.disk
  done : d.schedule.pc = .returned → ∀ task < (job.schedules d.phase).ntasks,
    ∃ call ∈ d.schedule.calls, call.args.taskNumber = task ∧ call.succeeded = true

namespace Underway

/-- The scheduler takes a step that leaves its calls alone. -/
theorem quiet (underway : d.Underway job start) (phase : d'.phase = d.phase)
    (disk : d'.disk = d.disk) (executions : d'.executions = d.executions)
    (calls : d'.schedule.calls = d.schedule.calls)
    (shares : d'.schedule.Shares (job.schedules d.phase))
    (done : d'.schedule.pc = .returned → ∀ task < (job.schedules d.phase).ntasks,
      ∃ call ∈ d.schedule.calls, call.args.taskNumber = task ∧ call.succeeded = true) :
    d'.Underway job start where
  shares := phase ▸ shares
  texts := disk ▸ underway.texts
  foreign := by
    rw [phase, disk]
    exact underway.foreign
  agrees := by
    rw [phase, executions, calls]
    exact underway.agrees
  nobody := by
    rw [phase, executions, calls]
    exact underway.nobody
  earlier := by
    rw [phase, executions]
    exact underway.earlier
  owes task inTasks := by
    rw [phase] at inTasks ⊢
    obtain ⟨rest, left, owes⟩ := underway.owes task inTasks
    refine ⟨rest, ⟨fun {k call} found has => ?_, fun nobody => ?_⟩, disk ▸ owes⟩
    · rw [calls] at found
      rw [left.has found has, restOf, restOf, phase, executions]
    · exact left.nobody (calls ▸ nobody)
  done := by
    rw [phase, calls]
    exact done

/-- A goroutine is made for a task. -/
theorem issue (underway : d.Underway job start) {call : Call} (phase : d'.phase = d.phase)
    (disk : d'.disk = d.disk) (executions : d'.executions = d.executions)
    (created : call.state = .created) (calls : d'.schedule.calls = d.schedule.calls ++ [call])
    (shares : d'.schedule.Shares (job.schedules d.phase)) (running : d'.schedule.pc ≠ .returned) :
    d'.Underway job start := by
  have later : ∀ {k : Nat} {other : Call}, d'.schedule.calls[k]? = some other →
      d.schedule.calls[k]? = some other ∨ k = d.schedule.calls.length ∧ other = call := by
    intro k other found
    rw [calls] at found
    rcases lt_or_ge k d.schedule.calls.length with old | new
    · rw [List.getElem?_append_left old] at found
      exact Or.inl found
    · rw [List.getElem?_append_right new] at found
      obtain ⟨inside, equal⟩ := List.getElem?_eq_some_iff.1 found
      rw [List.length_singleton] at inside
      exact Or.inr ⟨by omega, by simpa using equal.symm⟩
  have none : d.executions d.phase d.schedule.calls.length = none :=
    underway.nobody (List.getElem?_eq_none le_rfl)
  refine ⟨phase ▸ shares, disk ▸ underway.texts, ?_, fun {k other} found => ?_,
    fun {k} absent => ?_, ?_, fun task inTasks => ?_, fun returned => absurd returned running⟩
  · rw [phase, disk]
    exact underway.foreign
  · rw [phase, executions]
    rcases later found with old | ⟨rfl, rfl⟩
    · exact underway.agrees old
    · rw [none]
      exact created
  · rw [phase, executions]
    rw [calls, List.getElem?_eq_none_iff, List.length_append] at absent
    exact underway.nobody (List.getElem?_eq_none (by omega))
  · rw [phase, executions]
    exact underway.earlier
  · rw [phase] at inTasks ⊢
    obtain ⟨rest, left, owes⟩ := underway.owes task inTasks
    refine ⟨rest, ⟨fun {k other} found has => ?_, fun nobody => ?_⟩, disk ▸ owes⟩
    · rw [restOf, phase, executions]
      rcases later found with old | ⟨rfl, rfl⟩
      · exact left.has old has
      · rw [none]
        refine left.nobody fun old member has' => ?_
        -- a call that had the task before would be the new one
        obtain ⟨k, found'⟩ := List.mem_iff_getElem?.1 member
        have inside := (List.getElem?_eq_some_iff.1 found').1
        have same := shares.eq_of_has (calls ▸ List.getElem?_append_left inside ▸ found') found
          has' has
        omega
    · exact left.nobody fun old member => nobody old (calls ▸ List.mem_append_left _ member)

/-- The goroutine of a call goes on, and its worker has nothing more or less to write. -/
theorem move (underway : d.Underway job start) {k : Nat} {call : Call} {state : CallState}
    (phase : d'.phase = d.phase) (disk : d'.disk = d.disk)
    (executions : ∀ phase l, phase ≠ d.phase ∨ l ≠ k →
      d'.executions phase l = d.executions phase l)
    (found : d.schedule.calls[k]? = some call)
    (calls : d'.schedule.calls = d.schedule.calls.set k { call with state })
    (shares : d'.schedule.Shares (job.schedules d.phase))
    (agrees : Call.Agrees job start { call with state } (d'.executions d.phase k))
    (gained : ∀ task, Call.Has { call with state } task → call.Has task)
    (same : ∀ writes, d'.restOf k writes = d.restOf k writes)
    (lost : ∀ task, call.Has task → ¬ Call.Has { call with state } task →
      ∀ writes, d.restOf k writes = writes)
    (done : d'.schedule.pc = .returned → d.schedule.pc = .returned)
    (succeeded : call.succeeded = true → Call.succeeded { call with state } = true) :
    d'.Underway job start := by
  have inside := (List.getElem?_eq_some_iff.1 found).1
  have before : ∀ {l : Nat} {other : Call}, d'.schedule.calls[l]? = some other →
      l = k ∧ other = { call with state } ∨ l ≠ k ∧ d.schedule.calls[l]? = some other := by
    intro l other found'
    rw [calls] at found'
    by_cases own : l = k
    · subst own
      rw [List.getElem?_set_self inside] at found'
      exact Or.inl ⟨rfl, (Option.some.inj found').symm⟩
    · rw [List.getElem?_set_ne (Ne.symm own)] at found'
      exact Or.inr ⟨own, found'⟩
  have others : ∀ {l : Nat}, l ≠ k → d'.executions d.phase l = d.executions d.phase l :=
    fun other => executions _ _ (Or.inr other)
  refine ⟨phase ▸ shares, disk ▸ underway.texts, ?_, fun {l other} found' => ?_,
    fun {l} absent => ?_, fun {phase' l execution} other => ?_, fun task inTasks => ?_,
    fun returned task inTasks => ?_⟩
  · rw [phase, disk]
    exact underway.foreign
  · rw [phase]
    rcases before found' with ⟨rfl, rfl⟩ | ⟨other, old⟩
    · exact agrees
    · rw [others other]
      exact underway.agrees old
  · rw [calls, List.getElem?_eq_none_iff, List.length_set] at absent
    rw [phase, others (by omega)]
    exact underway.nobody (List.getElem?_eq_none absent)
  · rw [phase] at other ⊢
    rw [executions _ _ (Or.inl other)]
    exact underway.earlier other
  · rw [phase] at inTasks ⊢
    obtain ⟨rest, left, owes⟩ := underway.owes task inTasks
    refine ⟨rest, ⟨fun {l other} found' has => ?_, fun nobody => ?_⟩, disk ▸ owes⟩
    · rcases before found' with ⟨rfl, rfl⟩ | ⟨other, old⟩
      · rw [same]
        exact left.has found (gained task has)
      · rw [left.has old has, restOf, restOf, phase, others other]
    · by_cases had : call.Has task
      · have not : ¬ Call.Has { call with state } task :=
          nobody _ (calls ▸ List.mem_set inside _)
        rw [left.has found had, lost task had not]
      · refine left.nobody fun old member has => ?_
        obtain ⟨l, found'⟩ := List.mem_iff_getElem?.1 member
        by_cases own : l = k
        · subst own
          rw [found] at found'
          exact had (Option.some.inj found' ▸ has)
        · refine nobody old ?_ has
          rw [calls]
          exact List.mem_of_getElem? ((List.getElem?_set_ne (Ne.symm own)).trans found')
  · rw [phase] at inTasks
    obtain ⟨old, member, number, ends⟩ := underway.done (done returned) task inTasks
    obtain ⟨l, found'⟩ := List.mem_iff_getElem?.1 member
    by_cases own : l = k
    · subst own
      rw [found] at found'
      obtain rfl := Option.some.inj found'
      exact ⟨{ call with state }, calls ▸ List.mem_set inside _, number, succeeded ends⟩
    · refine ⟨old, ?_, number, ends⟩
      rw [calls]
      exact List.mem_of_getElem? ((List.getElem?_set_ne (Ne.symm own)).trans found')

end Underway

theorem record_of_ne {phase phase' : JobPhase} {k l : Nat} {execution : Execution}
    (other : phase' ≠ phase ∨ l ≠ k) :
    d.record phase k execution phase' l = d.executions phase' l := by
  unfold record
  by_cases same : phase' = phase
  · subst same
    rw [Function.update_self, Function.update_of_ne (by simpa using other)]
  · rw [Function.update_of_ne same]

theorem record_self (phase : JobPhase) (k : Nat) (execution : Execution) :
    d.record phase k execution phase k = some execution := by
  simp [record]

theorem scheduleStep_cases {action : Schedule.Action} (next : d.scheduleStep job action = some d') :
    d.schedule.step (job.schedules d.phase) action = some d'.schedule ∧ d'.disk = d.disk ∧
      d'.phase = d.phase ∧ d'.merged = d.merged ∧
      ((∃ k call, action = .call k .enter ∧ d.schedule.calls[k]? = some call ∧
          d'.executions = d.record d.phase k ⟨d.schedule.workerAddr, call.args, .sent⟩) ∨
        (∀ k, action ≠ .call k .enter) ∧ d'.executions = d.executions ∧
          ∀ k, action = .call k (.reply true) → d.hasFinished k = true) := by
  unfold scheduleStep at next
  split at next
  · split_ifs at next
    obtain ⟨s, stepped, rfl⟩ := Option.map_eq_some_iff.1 next
    exact ⟨stepped, rfl, rfl, rfl, Or.inr ⟨by simp, rfl, by simp⟩⟩
  · obtain ⟨call, found, rest⟩ := Option.bind_eq_some_iff.1 next
    obtain ⟨s, stepped, rfl⟩ := Option.map_eq_some_iff.1 rest
    exact ⟨stepped, rfl, rfl, rfl, Or.inl ⟨_, call, rfl, found, rfl⟩⟩
  · split_ifs at next with finished
    obtain ⟨s, stepped, rfl⟩ := Option.map_eq_some_iff.1 next
    refine ⟨stepped, rfl, rfl, rfl, Or.inr ⟨by simp, rfl, fun k same => ?_⟩⟩
    cases same
    exact finished
  · rename_i notEnter notReply
    obtain ⟨s, stepped, rfl⟩ := Option.map_eq_some_iff.1 next
    exact ⟨stepped, rfl, rfl, rfl, Or.inr ⟨fun k same => notEnter k same, rfl,
      fun k same => absurd same (notReply k)⟩⟩

theorem workStep_cases {phase : JobPhase} {k : Nat} (next : d.workStep job phase k = some d') :
    ∃ execution work disk, d.executions phase k = some execution ∧
      (execution.work.unbegun = true → d.concurrent execution.workerAddr = 0) ∧
      doTask job execution.args d.disk execution.work = some (work, disk) ∧
      d' = { d with
        disk
        executions := d.record phase k { execution with work }
        concurrent := d.counted execution work } := by
  unfold workStep at next
  split at next
  · cases next
  · rename_i execution entry
    split_ifs at next with fatal
    obtain ⟨⟨work, disk⟩, worked, equal⟩ := Option.map_eq_some_iff.1 next
    refine ⟨execution, work, disk, entry, fun unbegun => ?_, worked, equal.symm⟩
    by_contra busy
    exact fatal ⟨unbegun, Nat.pos_of_ne_zero busy⟩

namespace Underway

theorem scheduleStep (underway : d.Underway job start) {action : Schedule.Action}
    (kept : d.Keeps job (.schedule action)) (next : d.scheduleStep job action = some d') :
    d'.Underway job start := by
  obtain ⟨stepped, disk, phase, _, executions⟩ := scheduleStep_cases next
  have shares : d'.schedule.Shares (job.schedules d.phase) := by
    refine underway.shares.step (fun {k call} enter found => ?_) stepped
    subst enter
    simpa [Keeps, keepsFiles, found] using kept
  obtain ⟨effect, _⟩ := Schedule.effect_step underway.shares.inLoop stepped
  cases effect with
  | quiet main calls left =>
      rcases executions with ⟨k, call, rfl, _⟩ | ⟨_, same, _⟩
      · exact absurd rfl (main k .enter)
      refine underway.quiet phase disk same calls shares fun returned task inTasks => ?_
      rcases Schedule.returned_of_step stepped returned with rfl | already
      · have all : d.allDone job = true := kept
        simp only [allDone, List.all_eq_true, List.mem_range, List.any_eq_true, Bool.and_eq_true,
          decide_eq_true_eq] at all
        exact all task inTasks
      · exact underway.done already task inTasks
  | issue created asks running calls left =>
      rcases executions with ⟨k, call, impossible, _⟩ | ⟨_, same, _⟩
      · cases impossible
      · exact underway.issue phase disk same created calls shares running
  | @enter k task _ call found created listed calls left =>
      rcases executions with ⟨k', call', same, found', recorded⟩ | ⟨impossible, _⟩
      swap
      · exact absurd rfl (impossible k)
      cases same
      obtain rfl := Option.some.inj (found'.symm.trans found)
      have none : d.executions d.phase k = none := by
        have agrees := underway.agrees found
        cases entry : d.executions d.phase k with
        | none => rfl
        | some execution =>
            rw [entry, Call.Agrees, created] at agrees
            exact absurd agrees.2.2 id
      refine underway.move phase disk (fun phase' l other => recorded ▸ record_of_ne other) found
        calls shares ?_ (fun task has => ⟨has.1, by simp [created], by simp [created]⟩) ?_
        (fun task has not => absurd ⟨has.1, by simp, by simp⟩ not)
        (fun returned => (Schedule.returned_of_step stepped returned).resolve_left (by simp))
        (fun ends => by simp [Call.succeeded, created] at ends)
      · rw [recorded, record_self]
        exact ⟨rfl, trivial, trivial⟩
      · intro writes
        rw [restOf, restOf, phase, recorded, record_self, none]
        rfl
  | @reply k task addr flag _ call found out calls left =>
      rcases executions with ⟨k', call', impossible, _⟩ | ⟨_, same, finished⟩
      · cases impossible
      obtain ⟨execution, entry, agrees⟩ :=
        (underway.agrees found).exists_execution (by simp [out])
      refine underway.move phase disk (fun phase' l _ => same ▸ rfl) found calls shares ?_
        (fun task has => ⟨has.1, by simp [out], by simp [out]⟩)
        (fun writes => by rw [restOf, restOf, phase, same]) (fun task has not => ?_)
        (fun returned => (Schedule.returned_of_step stepped returned).resolve_left (by simp))
        (fun ends => by simp [Call.succeeded, out] at ends)
      · rw [same, entry]
        refine ⟨agrees.1, agrees.2.1, ?_⟩
        cases flag with
        | true =>
            have ended := finished k rfl
            unfold hasFinished at ended
            rw [entry] at ended
            dsimp only at ended ⊢
            split at ended
            · rename_i shape
              cases shape
              rfl
            · cases ended
        | false =>
            have unbegun : execution.work.unbegun = true := by
              simpa [Keeps, keepsFiles, entry] using kept
            dsimp only
            cases state : execution.work with
            | sent => simp
            | _ => simp [state, Work.unbegun] at unbegun
      · refine absurd ⟨has.1, ?_, ?_⟩ not
        all_goals cases flag <;> simp
  | @report k task addr _ call found failed calls left =>
      rcases executions with ⟨k', call', impossible, _⟩ | ⟨_, same, _⟩
      · cases impossible
      obtain ⟨execution, entry, agrees⟩ :=
        (underway.agrees found).exists_execution (by simp [failed])
      have sent : execution.work = .sent := by
        simpa only [Call.Agrees, failed] using agrees.2.2
      refine underway.move phase disk (fun phase' l _ => same ▸ rfl) found calls shares ?_
        (fun task has => absurd rfl has.2.1)
        (fun writes => by rw [restOf, restOf, phase, same])
        (fun task has not writes => by simp only [restOf, entry, sent, Work.rest])
        (fun returned => (Schedule.returned_of_step stepped returned).resolve_left (by simp))
        (fun ends => by simp [Call.succeeded, failed] at ends)
      rw [same, entry]
      exact ⟨agrees.1, agrees.2.1, sent⟩
  | @done k flag _ call found ending calls left =>
      rcases executions with ⟨k', call', impossible, _⟩ | ⟨_, same, _⟩
      · cases impossible
      obtain ⟨execution, entry, agrees⟩ :=
        (underway.agrees found).exists_execution (by simp [ending])
      refine underway.move phase disk (fun phase' l _ => same ▸ rfl) found calls shares ?_
        (fun task has => ⟨has.1, ?_, by simp [ending]⟩)
        (fun writes => by rw [restOf, restOf, phase, same]) (fun task has not => ?_)
        (fun returned => (Schedule.returned_of_step stepped returned).resolve_left (by simp))
        (fun ends => ?_)
      · rw [same, entry]
        refine ⟨agrees.1, agrees.2.1, ?_⟩
        cases flag <;> simpa only [Call.Agrees, ending] using agrees.2.2
      · rw [ending]
        intro equal
        cases equal
        exact has.2.2 rfl
      · refine absurd ⟨has.1, by simp, fun equal => ?_⟩ not
        cases equal
        exact has.2.1 ending
      · cases flag
        · simp [Call.succeeded, ending] at ends
        · simp [Call.succeeded]

/-- A worker that goes on has a task of this phase whose call is out. -/
theorem exists_out (underway : d.Underway job start) {phase : JobPhase} {k : Nat}
    {execution : Execution} (kept : d.Keeps job (.doTask phase k))
    (entry : d.executions phase k = some execution)
    (works : doTask job execution.args d.disk execution.work ≠ none) :
    phase = d.phase ∧ ∃ call task addr, d.schedule.calls[k]? = some call ∧
      call.state = .calling task addr ∧ execution.args = call.args ∧
      execution.work.Reads job execution.args start := by
  simp only [Keeps, keepsFiles, entry, Option.all_some, Bool.or_eq_true, Bool.not_eq_true',
    Bool.and_eq_true, decide_eq_true_eq] at kept
  have unfinished : execution.work ≠ .finished := by
    intro finished
    rw [finished] at works
    exact works rfl
  have begun : execution.work ≠ .sent ∨ phase = d.phase ∧ d.isOut k = true := by
    refine kept.imp_left fun begun sent => ?_
    rw [sent] at begun
    cases begun
  have now : phase = d.phase := by
    by_contra other
    have idle := (underway.earlier other entry).1
    rcases begun with begun | ⟨same, _⟩
    · cases state : execution.work <;> simp_all [Work.busy]
    · exact other same
  subst now
  obtain ⟨call, found⟩ : ∃ call, d.schedule.calls[k]? = some call := by
    rw [← Option.ne_none_iff_exists']
    intro absent
    rw [underway.nobody absent] at entry
    cases entry
  have agrees := underway.agrees found
  rw [entry] at agrees
  obtain ⟨args, reads, fits⟩ := agrees
  obtain ⟨task, addr, out⟩ : ∃ task addr, call.state = .calling task addr := by
    rcases begun with begun | ⟨_, waits⟩
    · cases state : call.state with
      | calling task addr => exact ⟨task, addr, rfl⟩
      | created =>
          rw [state] at fits
          exact absurd fits id
      | failed task addr =>
          rw [state] at fits
          exact absurd fits begun
      | ending flag | done flag =>
          rw [state] at fits
          cases flag with
          | false => exact absurd fits begun
          | true => exact absurd fits unfinished
    · unfold isOut at waits
      rw [found] at waits
      split at waits
      · rename_i task addr shape
        cases shape
        exact ⟨task, addr, rfl⟩
      · cases waits
  exact ⟨rfl, call, task, addr, found, out, args, reads⟩

/-- The worker makes its next access to the disk. -/
theorem workStep (underway : d.Underway job start) {phase : JobPhase} {k : Nat}
    (kept : d.Keeps job (.doTask phase k)) (next : d.workStep job phase k = some d') :
    d'.Underway job start := by
  obtain ⟨execution, work, disk, entry, _, worked, rfl⟩ := workStep_cases next
  obtain ⟨rfl, call, _, _, found, out, args, reads⟩ :=
    underway.exists_out kept entry (by simp [worked])
  have member := List.mem_of_getElem? found
  generalize own : call.args.taskNumber = task
  have has : call.Has task := ⟨own, by simp [out], by simp [out]⟩
  have inTasks := underway.shares.lt_of_has member has
  have isTask : execution.args = job.taskArgs d.phase task := by
    rw [args, Job.eq_taskArgs (underway.shares.asks call member), own]
  obtain ⟨rest, left, owes⟩ := underway.owes task inTasks
  have before : rest = execution.work.rest (job.writes d.phase start task) := by
    rw [left.has found has, restOf, entry]
  subst before
  have writes : job.writes d.phase start task =
      (taskWrites job execution.args start).getD [] := by rw [Job.writes, isTask]
  obtain ⟨reads', moves⟩ := doTask_cases writes
    (isTask ▸ job.sameInputs underway.texts underway.foreign task) reads worked
  have ofTask : ∀ {write : Write}, execution.work.rest (job.writes d.phase start task) =
      write :: work.rest (job.writes d.phase start task) →
        write ∈ job.writes d.phase start task :=
    fun rest => owes.suffix.mem (rest ▸ List.mem_cons_self)
  refine ⟨underway.shares, ?_, fun name apart => ?_, fun {l other} found' => ?_,
    fun {l} absent => ?_, fun {phase' l execution'} other entry' => ?_,
    fun task' inTasks' => ?_, underway.done⟩
  · rcases moves with ⟨rfl, _⟩ | ⟨write, _, rfl⟩
    · exact underway.texts
    · exact Disk.texts_write.trans underway.texts
  · rcases moves with ⟨rfl, _⟩ | ⟨write, rest, rfl⟩
    · exact underway.foreign name apart
    · refine (Disk.lookup_write_of_ne ?_).trans (underway.foreign name apart)
      exact apart task inTasks write (ofTask rest)
  · by_cases same : l = k
    · subst same
      obtain rfl := Option.some.inj (found'.symm.trans found)
      dsimp only
      rw [record_self]
      exact ⟨args, reads', by simp [out]⟩
    · dsimp only
      rw [record_of_ne (Or.inr same)]
      exact underway.agrees found'
  · have other : l ≠ k := by
      rintro rfl
      rw [found] at absent
      cases absent
    dsimp only
    rw [record_of_ne (Or.inr other)]
    exact underway.nobody absent
  · dsimp only at entry'
    rw [record_of_ne (Or.inl other)] at entry'
    exact underway.earlier other entry'
  · by_cases same : task' = task
    · subst same
      refine ⟨work.rest (job.writes d.phase start task'), ⟨fun {l other} found' has' => ?_,
        fun nobody => absurd has (nobody call member)⟩, ?_⟩
      · obtain rfl := underway.shares.eq_of_has found' found has' has
        simp only [restOf, record_self]
      · rcases moves with ⟨rfl, same⟩ | ⟨write, rest, rfl⟩
        · rwa [same]
        · rw [rest] at owes
          exact owes.step
    · obtain ⟨rest', left', owes'⟩ := underway.owes task' inTasks'
      refine ⟨rest', ⟨fun {l other} found' has' => ?_, left'.nobody⟩, ?_⟩
      · have apart : l ≠ k := by
          rintro rfl
          obtain rfl := Option.some.inj (found'.symm.trans found)
          exact same (has'.1.symm.trans own)
        simp only [left'.has found' has', restOf, record_of_ne (Or.inr apart)]
      · rcases moves with ⟨rfl, _⟩ | ⟨write, rest, rfl⟩
        · exact owes'
        · exact owes'.other fun write' member' =>
            Job.writes_apart same write' member' write (ofTask rest)

/-- When the phase is over, all its tasks are done. -/
theorem settled (underway : d.Underway job start) (returned : d.schedule.pc = .returned) :
    Settled (job.schedules d.phase).ntasks (job.writes d.phase start) start d.disk ∧
      ∀ task < (job.schedules d.phase).ntasks,
        (taskWrites job (job.taskArgs d.phase task) start).isSome := by
  have each : ∀ task < (job.schedules d.phase).ntasks,
      Owes start (job.writes d.phase start task) [] d.disk ∧
        (taskWrites job (job.taskArgs d.phase task) start).isSome := by
    intro task inTasks
    obtain ⟨call, member, number, ends⟩ := underway.done returned task inTasks
    obtain ⟨k, found⟩ := List.mem_iff_getElem?.1 member
    simp only [Call.succeeded, Bool.or_eq_true, decide_eq_true_eq] at ends
    have made : call.state ≠ .created := by
      rcases ends with state | state <;> simp [state]
    obtain ⟨execution, entry, args, reads, fits⟩ := (underway.agrees found).exists_execution made
    have finished : execution.work = .finished := by
      rcases ends with state | state <;> simpa [state] using fits
    have has : call.Has task := by
      rcases ends with state | state <;> exact ⟨number, by simp [state], by simp [state]⟩
    obtain ⟨rest, left, owes⟩ := underway.owes task inTasks
    have nothing : rest = [] := by
      rw [left.has found has, restOf, entry]
      simp [finished, Work.rest]
    refine ⟨nothing ▸ owes, ?_⟩
    rw [finished, args, Job.eq_taskArgs (underway.shares.asks call member), number] at reads
    exact reads
  exact ⟨⟨underway.texts, fun task inTasks write member => (each task inTasks).1.lookup_of_done
    member, underway.foreign⟩, fun task inTasks => (each task inTasks).2⟩

/-- When the phase is over, no worker has a task of it. -/
theorem idle (underway : d.Underway job start) (returned : d.schedule.pc = .returned) {k : Nat}
    {execution : Execution} (entry : d.executions d.phase k = some execution) :
    execution.work.busy = false := by
  obtain ⟨call, found⟩ : ∃ call, d.schedule.calls[k]? = some call := by
    rw [← Option.ne_none_iff_exists']
    intro absent
    rw [underway.nobody absent] at entry
    cases entry
  have member := List.mem_of_getElem? found
  have agrees := underway.agrees found
  rw [entry] at agrees
  obtain ⟨_, _, fits⟩ := agrees
  cases state : call.state with
  | created =>
      rw [state] at fits
      exact absurd fits id
  | failed task addr =>
      rw [state] at fits
      rw [show execution.work = .sent from fits]
      rfl
  | ending flag | done flag =>
      rw [state] at fits
      cases flag with
      | false =>
          rw [show execution.work = .sent from fits]
          rfl
      | true =>
          rw [show execution.work = .finished from fits]
          rfl
  | calling task addr =>
      -- another call would have done the same task
      have has : call.Has call.args.taskNumber := ⟨rfl, by simp [state], by simp [state]⟩
      obtain ⟨other, member', number, ends⟩ :=
        underway.done returned _ (underway.shares.lt_of_has member has)
      obtain ⟨l, found'⟩ := List.mem_iff_getElem?.1 member'
      simp only [Call.succeeded, Bool.or_eq_true, decide_eq_true_eq] at ends
      have has' : other.Has call.args.taskNumber := by
        rcases ends with ended | ended <;> exact ⟨number, by simp [ended], by simp [ended]⟩
      obtain rfl := underway.shares.eq_of_has found found' has has'
      obtain rfl := Option.some.inj (found.symm.trans found')
      rw [state] at ends
      simp at ends

/-- The reduce phase begins. -/
theorem reducePhase (underway : d.Underway job start) (phase : d.phase = .mapPhase)
    (returned : d.schedule.pc = .returned) :
    Underway job d.disk
      { d with phase := .reducePhase, schedule := .start, forwarded := 0, sending := [] } where
  shares := Schedule.shares_start _
  texts := rfl
  foreign _ _ := rfl
  agrees found := by simp [Schedule.start] at found
  nobody {k} _ := by
    cases entry : d.executions .reducePhase k with
    | none => rfl
    | some execution =>
        have later := (underway.earlier (by simp [phase]) entry).2
        rw [phase] at later
        cases later
  earlier {phase' k execution} other entry := by
    refine ⟨?_, rfl⟩
    cases phase' with
    | mapPhase => exact underway.idle returned (phase ▸ entry)
    | reducePhase => exact absurd rfl other
  owes task _ := ⟨_, ⟨fun found => by simp [Schedule.start] at found, fun _ => rfl⟩, .all _ _⟩
  done := by simp [Schedule.start]

/-- A step that does not end the phase. -/
theorem step {order : GoMap String String → List String} {action : DistributedAction}
    (underway : d.Underway job start) (kept : d.Keeps job action)
    (next : d.step order job action = some d') (during : action ≠ .reducePhase)
    (before : action ≠ .merge) :
    d'.Underway job start ∧ d'.phase = d.phase ∧ d'.merged = d.merged := by
  unfold Distributed.step at next
  split at next
  · cases next
  cases action with
  | registerWorker addr =>
      obtain rfl := Option.some.inj next
      exact ⟨underway.quiet rfl rfl rfl rfl underway.shares underway.done, rfl, rfl⟩
  | forward =>
      obtain ⟨addr, _, rfl⟩ := Option.map_eq_some_iff.1 next
      exact ⟨underway.quiet rfl rfl rfl rfl underway.shares underway.done, rfl, rfl⟩
  | schedule action =>
      obtain ⟨_, _, phase, merged, _⟩ := scheduleStep_cases next
      exact ⟨underway.scheduleStep kept next, phase, merged⟩
  | doTask phase k =>
      refine ⟨underway.workStep kept next, ?_⟩
      obtain ⟨_, _, _, _, _, _, rfl⟩ := workStep_cases next
      exact ⟨rfl, rfl⟩
  | reducePhase => exact absurd rfl during
  | merge => exact absurd rfl before

end Underway

/-- How far the job has come: in the map phase, in the reduce phase on the disk that the map tasks
leave, or complete. -/
inductive Stands (order : GoMap String String → List String) (job : Job) (start : Disk)
    (d : Distributed) : Prop where
  | mapping (running : d.merged = false) (phase : d.phase = .mapPhase)
      (underway : d.Underway job start)
  | reducing {mapped : Disk} (running : d.merged = false) (phase : d.phase = .reducePhase)
      (maps : job.mapPhase start = some mapped) (underway : d.Underway job mapped)
  | complete (merged : d.merged = true) (same : job.sequential order start = some d.disk)

theorem Stands.step {order : GoMap String String → List String} {action : DistributedAction}
    (stands : d.Stands order job start) (kept : d.Keeps job action)
    (next : d.step order job action = some d') : d'.Stands order job start := by
  cases stands with
  | mapping running phase underway =>
      by_cases ends : action = .reducePhase
      · subst ends
        rw [Distributed.step, if_neg (by simp [running])] at next
        split_ifs at next with returned
        obtain rfl := Option.some.inj next
        obtain ⟨settled, runs⟩ := underway.settled returned.2
        rw [phase] at settled runs
        exact .reducing running rfl (job.mapPhase_eq runs settled)
          (underway.reducePhase phase returned.2)
      · have early : action ≠ .merge := by
          rintro rfl
          simp [Distributed.step, running, phase] at next
        obtain ⟨underway', phase', merged'⟩ := underway.step kept next ends early
        exact .mapping (merged'.trans running) (phase'.trans phase) underway'
  | @reducing mapped running phase maps underway =>
      by_cases ends : action = .merge
      · subst ends
        rw [Distributed.step, if_neg (by simp [running])] at next
        split_ifs at next with returned
        obtain ⟨disk, merges, rfl⟩ := Option.map_eq_some_iff.1 next
        obtain ⟨settled, runs⟩ := underway.settled returned.2
        rw [phase] at settled runs
        refine .complete rfl ?_
        simp only [Job.sequential, Job.finish, maps, job.reducePhase_eq runs settled,
          Option.bind_some, merges]
      · have late : action ≠ .reducePhase := by
          rintro rfl
          simp [Distributed.step, running, phase] at next
        obtain ⟨underway', phase', merged'⟩ := underway.step kept next late ends
        exact .reducing (merged'.trans running) (phase'.trans phase) maps underway'
  | complete merged same => simp [Distributed.step, merged] at next

/-- What a worker does between a call and the end of its goroutine. -/
def serving (phase : JobPhase) (k accesses : Nat) : List DistributedAction :=
  [.schedule (.call k .enter)] ++ List.replicate accesses (.doTask phase k) ++
    [.schedule (.call k (.reply true)), .schedule (.call k .done), .schedule .waited]

end Distributed

end Mit6824.MapReduce
