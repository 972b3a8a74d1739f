import Mit6824.MapReduce.Holdings
import Mit6824.MapReduce.Worker

/-!
# A distributed job

`Distributed` runs `schedule` for the map phase and then for the reduce phase, and merges. Workers
register with the master at any time; for each phase `forwardRegistrations` tells the scheduler of
all of them, each through a goroutine of its own, so in any order. A call of `DoTask` reaches its
worker or it does not, the worker makes its accesses to the disk while others make theirs, and a
call returns true only when the worker has finished. A worker may go on with a task after its call
has failed, and the next phase may begin while a worker is still busy.

Every worker runs the job's own map and reduce functions. The job is over with the merge; what
`killWorkers` collects is left out, because no file depends on it.

The disk that a distributed job leaves is the one that the sequential job would have left
(`leaves_sequential_disk`), under conditions on the steps (`keepsFiles`): a phase ends only when
each of its tasks was done, a goroutine reads the loop variable while it is its own, and a call that
fails never reaches its worker.
-/

namespace Mit6824.MapReduce

/-- The call of `DoTask` at its worker. -/
structure Execution where
  workerAddr : String
  args : DoTaskArgs
  work : Work

structure Distributed where
  disk : Disk
  /-- The workers that have registered with the master. -/
  workers : List String
  phase : JobPhase
  /-- The counter of `forwardRegistrations`. -/
  forwarded : Nat
  /-- The workers that goroutines wait to send to the scheduler. -/
  sending : List String
  schedule : Schedule
  /-- What has become of the call with a number, in each of the phases. -/
  executions : JobPhase → Nat → Option Execution
  /-- The number of tasks that run at a worker. -/
  concurrent : String → Nat
  merged : Bool

inductive DistributedAction where
  /-- A worker calls `Register`. -/
  | registerWorker (addr : String)
  /-- `forwardRegistrations` makes a goroutine for the next worker. -/
  | forward
  /-- A step of the scheduler. -/
  | schedule (action : Schedule.Action)
  /-- The worker goes on with call `k` of a phase. -/
  | doTask (phase : JobPhase) (k : Nat)
  /-- The map phase has returned. -/
  | reducePhase
  /-- The reduce phase has returned. -/
  | merge

/-- What `schedule` is called with. -/
def Job.schedules (job : Job) (phase : JobPhase) : Phase :=
  ⟨job.jobName, job.files, job.nReduce, phase⟩

namespace Distributed

/-- A job that is about to start. -/
def init (disk : Disk) : Distributed where
  disk := disk
  workers := []
  phase := .mapPhase
  forwarded := 0
  sending := []
  schedule := .start
  executions := fun _ _ => none
  concurrent := fun _ => 0
  merged := false

/-- Write down how far call `k` of a phase has come. -/
def record (d : Distributed) (phase : JobPhase) (k : Nat) (execution : Execution) :
    JobPhase → Nat → Option Execution :=
  Function.update d.executions phase (Function.update (d.executions phase) k (some execution))

/-- The worker has finished the task of call `k`. -/
def hasFinished (d : Distributed) (k : Nat) : Bool :=
  match d.executions d.phase k with
  | some ⟨_, _, .finished⟩ => true
  | _ => false

/-- A step of the scheduler. -/
def scheduleStep (job : Job) (d : Distributed) (action : Schedule.Action) : Option Distributed :=
  let next := d.schedule.step (job.schedules d.phase) action
  match action with
  | .register addr =>
      if addr ∈ d.sending then
        next.map fun s => { d with schedule := s, sending := d.sending.erase addr }
      else none
  | .call k .enter =>
      d.schedule.calls[k]?.bind fun call =>
        next.map fun s =>
          { d with
            schedule := s
            executions := d.record d.phase k ⟨d.schedule.workerAddr, call.args, .sent⟩ }
  | .call k (.reply true) =>
      if d.hasFinished k then next.map fun s => { d with schedule := s } else none
  | _ => next.map fun s => { d with schedule := s }

/-- The number of tasks at the worker after one of them went on. -/
def counted (d : Distributed) (execution : Execution) (work : Work) : String → Nat :=
  let now := d.concurrent execution.workerAddr
  match execution.work.busy, work.busy with
  | false, true => Function.update d.concurrent execution.workerAddr (now + 1)
  | true, false => Function.update d.concurrent execution.workerAddr (now - 1)
  | _, _ => d.concurrent

/-- The worker goes on with a task. It exits when it is called while it has another task. -/
def workStep (job : Job) (d : Distributed) (phase : JobPhase) (k : Nat) : Option Distributed :=
  match d.executions phase k with
  | none => none
  | some execution =>
      if execution.work.unbegun = true ∧ 0 < d.concurrent execution.workerAddr then none
      else
        (doTask job execution.args d.disk execution.work).map fun (work, disk) =>
          { d with
            disk
            executions := d.record phase k { execution with work }
            concurrent := d.counted execution work }

/-- A step, up to the merge; `order` is the order in which the merge ranges over its map. -/
def step (order : GoMap String String → List String) (job : Job) (d : Distributed)
    (action : DistributedAction) : Option Distributed :=
  if d.merged then none
  else
    match action with
    | .registerWorker addr => some { d with workers := d.workers ++ [addr] }
    | .forward =>
        d.workers[d.forwarded]?.map fun addr =>
          { d with forwarded := d.forwarded + 1, sending := d.sending ++ [addr] }
    | .schedule action => d.scheduleStep job action
    | .doTask phase k => d.workStep job phase k
    | .reducePhase =>
        if d.phase = .mapPhase ∧ d.schedule.pc = .returned then
          some { d with phase := .reducePhase, schedule := .start, forwarded := 0, sending := [] }
        else none
    | .merge =>
        if d.phase = .reducePhase ∧ d.schedule.pc = .returned then
          (MapReduce.merge order job.jobName job.nReduce d.disk).map fun disk =>
            { d with disk, merged := true }
        else none

/-- Every task of the phase was done by a call that returned true. -/
def allDone (job : Job) (d : Distributed) : Bool :=
  (List.range (job.schedules d.phase).ntasks).all fun task =>
    d.schedule.calls.any fun call => call.args.taskNumber = task && call.succeeded

/-- The call is out. -/
def isOut (d : Distributed) (k : Nat) : Bool :=
  match d.schedule.calls[k]? with
  | some ⟨_, .calling _ _⟩ => true
  | _ => false

/-- The condition on a step: a goroutine reads the loop variable while it is its own; a call that
fails has not reached its worker and will not; and a phase ends only when its tasks are done. -/
def keepsFiles (job : Job) (d : Distributed) : DistributedAction → Bool
  | .schedule (.call k .enter) =>
      d.schedule.calls[k]?.all fun call =>
        d.schedule.taskList[d.schedule.i]? = some call.args.taskNumber
  | .schedule (.call k (.reply false)) =>
      (d.executions d.phase k).all fun execution => execution.work.unbegun
  | .schedule .leave => d.allDone job
  | .doTask phase k =>
      (d.executions phase k).all fun execution =>
        !execution.work.unbegun || (phase = d.phase && d.isOut k)
  | _ => true

/-- The step meets the condition. -/
def Keeps (job : Job) (d : Distributed) (action : DistributedAction) : Prop :=
  d.keepsFiles job action = true

instance (job : Job) (d : Distributed) (action : DistributedAction) :
    Decidable (d.Keeps job action) :=
  inferInstanceAs (Decidable (d.keepsFiles job action = true))

end Distributed

end Mit6824.MapReduce
