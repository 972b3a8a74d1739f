import Mathlib.Data.List.Count
import Mit6824.Runs
import Mit6824.Grouping

/-!
# The scheduler

`schedule` hands the tasks of a phase to workers in batches: it calls one worker after the other
until as many calls are out as there are workers, waits for all of them, puts the tasks of failed
calls at the end of the list it runs through and goes on.

The model is a state machine. The main goroutine and the goroutines of the calls take turns in
any order; the action says which of them moves and what the run time, the network and the
workers choose: when a timer fires, which worker registers, the order of a `range` over a map,
and what a call returns. A goroutine reads the loop variables `i` and `workerAddr` when it
starts, not when it is made. A panic, in whichever goroutine, is a step that cannot be taken.
-/

namespace Mit6824.MapReduce

inductive JobPhase where
  | mapPhase
  | reducePhase
deriving DecidableEq, Repr

structure DoTaskArgs where
  jobName : String
  file : String
  phase : JobPhase
  taskNumber : Nat
  numOtherPhase : Nat
deriving DecidableEq, Repr

/-- What `schedule` is called with. -/
structure Phase where
  jobName : String
  mapFiles : List String
  nReduce : Nat
  phase : JobPhase

namespace Phase

def ntasks (config : Phase) : Nat :=
  match config.phase with
  | .mapPhase => config.mapFiles.length
  | .reducePhase => config.nReduce

def nOther (config : Phase) : Nat :=
  match config.phase with
  | .mapPhase => config.nReduce
  | .reducePhase => config.mapFiles.length

/-- The arguments are those of a task of this phase. -/
structure Asks (config : Phase) (args : DoTaskArgs) : Prop where
  jobName : args.jobName = config.jobName
  file : config.mapFiles[args.taskNumber]? = some args.file
  phase : args.phase = config.phase
  numOtherPhase : args.numOtherPhase = config.nOther

end Phase

/-- How far the goroutine of a call has come. -/
inductive CallState where
  | created
  /-- It has read the loop variables, and the call is out. -/
  | calling (taskNum : Nat) (workerAddr : String)
  /-- The call returned false. -/
  | failed (taskNum : Nat) (workerAddr : String)
  /-- Only `wg.Done` is left; the flag is what the call returned. -/
  | ending (flag : Bool)
  | done (flag : Bool)
deriving DecidableEq, Repr

structure Call where
  args : DoTaskArgs
  state : CallState
deriving DecidableEq, Repr

namespace Call

/-- The call has returned true. -/
def succeeded (call : Call) : Bool :=
  call.state = .ending true || call.state = .done true

/-- The goroutine has not called `wg.Done` yet. -/
def live (call : Call) : Bool :=
  match call.state with
  | .done _ => false
  | _ => true

end Call

/-- What the goroutine of a call does next. -/
inductive CallMove where
  /-- It reads the loop variables and makes its call. -/
  | enter
  /-- The call returns. -/
  | reply (flag : Bool)
  /-- It reports the failed call. -/
  | report
  /-- It calls `wg.Done`. -/
  | done
deriving DecidableEq, Repr

/-- Where the main goroutine is. -/
inductive Pc where
  /-- Reading the workers that are there at the start. -/
  | collecting
  /-- At the head of the loop over the tasks. -/
  | issuing
  /-- In `wg.Wait`. -/
  | waiting
  /-- Reading the failed calls of a batch. -/
  | draining
  /-- Reading newly registered workers. -/
  | listening
  | returned
deriving DecidableEq, Repr

structure Schedule where
  pc : Pc
  workerSet : List String
  /-- Whether a worker is busy. -/
  workerState : GoMap String Bool
  workerAddr : String
  runningTask : Nat
  wg : Nat
  failedChan : List (String × Nat)
  taskList : List Nat
  i : Nat
  /-- The goroutines, in the order in which they were made. -/
  calls : List Call

namespace Schedule

/-- The state in which `schedule` starts. -/
def start : Schedule where
  pc := .collecting
  workerSet := []
  workerState := ∅
  workerAddr := ""
  runningTask := 0
  wg := 0
  failedChan := []
  taskList := []
  i := 0
  calls := []

inductive Action where
  /-- A worker is received from `registerChan`. -/
  | register (workerAddr : String)
  /-- No worker came for a second. -/
  | collected
  /-- Start the goroutine for the next task; `order` is that of the `range` over the workers. -/
  | issue (order : List String)
  /-- There is no task left. -/
  | leave
  /-- `wg.Wait` returns. -/
  | waited
  /-- A failed call is received from `failedChan`. -/
  | receive
  /-- No failed call came for 10 ms; `order` is that of the `range` over the workers. -/
  | drained (order : List String)
  /-- No worker came for 20 ms. -/
  | listened
  /-- The goroutine of call `k` moves. -/
  | call (k : Nat) (move : CallMove)
deriving Repr

/-- The worker the loop over `workerState` leaves in `workerAddr`: the last idle one it visits. -/
def pick (s : Schedule) (order : List String) : String :=
  order.foldl (fun addr key => if s.workerState.lookup key = some false then key else addr)
    s.workerAddr

def register (s : Schedule) (addr : String) : Option Schedule :=
  match s.pc with
  | .collecting =>
      some { s with
        workerAddr := addr
        workerSet := s.workerSet ++ [addr]
        workerState := s.workerState.insert addr false }
  | .listening =>
      some { s with
        workerAddr := addr
        workerState := s.workerState.insert addr false
        wg := s.wg + 1 }
  | _ => none

def issue (config : Phase) (s : Schedule) (order : List String) : Option Schedule :=
  if s.pc = .issuing ∧ GoMap.Visits order s.workerState then
    s.taskList[s.i]?.bind fun task =>
      -- `mapFiles` is indexed by the task number in both phases
      config.mapFiles[task]?.map fun file =>
        let addr := s.pick order
        let workerState := s.workerState.insert addr true
        { s with
          pc := if s.runningTask + 1 = workerState.keys.card then .waiting else .listening
          workerAddr := addr
          workerState
          runningTask := s.runningTask + 1
          calls := s.calls ++
            [⟨⟨config.jobName, file, config.phase, task, config.nOther⟩, .created⟩] }
  else none

def receive (s : Schedule) : Option Schedule :=
  match s.pc, s.failedChan with
  | .draining, failed :: rest =>
      some { s with
        workerState := s.workerState.erase failed.1
        taskList := s.taskList ++ [failed.2]
        failedChan := rest }
  | _, _ => none

def drained (s : Schedule) (order : List String) : Option Schedule :=
  if s.pc = .draining ∧ GoMap.Visits order s.workerState then
    some { s with
      pc := .listening
      runningTask := 0
      workerState := Grouping.storeAll id (fun _ => false) s.workerState order
      wg := s.wg + s.workerState.keys.card }
  else none

/-- Let goroutine `k` go on from a state. -/
def setCall (s : Schedule) (k : Nat) (call : Call) (state : CallState) : Schedule :=
  { s with calls := s.calls.set k { call with state } }

/-- One step of the goroutine of call `k`. -/
def callStep (config : Phase) (s : Schedule) (k : Nat) (call : Call) : CallMove → Option Schedule
  | .enter =>
      if call.state = .created then
        s.taskList[s.i]?.map fun task => s.setCall k call (.calling task s.workerAddr)
      else none
  | .reply flag =>
      match call.state with
      | .calling task addr =>
          some (s.setCall k call (if flag then .ending true else .failed task addr))
      | _ => none
  | .report =>
      match call.state with
      | .failed task addr =>
          -- the channel has room for one failed call of each task
          if s.failedChan.length < config.ntasks then
            some { s.setCall k call (.ending false) with
              failedChan := s.failedChan ++ [(addr, task)] }
          else none
      | _ => none
  | .done =>
      match call.state with
      | .ending flag =>
          -- `wg.Done` below zero panics
          if 0 < s.wg then some { s.setCall k call (.done flag) with wg := s.wg - 1 }
          else none
      | _ => none

def step (config : Phase) (s : Schedule) : Action → Option Schedule
  | .register addr => s.register addr
  | .collected =>
      if s.pc = .collecting then
        some { s with
          pc := .issuing
          wg := s.workerSet.length
          taskList := List.range config.ntasks }
      else none
  | .issue order => s.issue config order
  | .leave =>
      if s.pc = .issuing ∧ s.taskList.length ≤ s.i then some { s with pc := .returned } else none
  | .waited => if s.pc = .waiting ∧ s.wg = 0 then some { s with pc := .draining } else none
  | .receive => s.receive
  | .drained order => s.drained order
  | .listened =>
      if s.pc = .listening then some { s with pc := .issuing, i := s.i + 1 } else none
  | .call k move => s.calls[k]?.bind fun call => s.callStep config k call move

/-! ## What a step does -/

variable {config : Phase} {s s' : Schedule}

theorem register_cases {addr : String} (moved : s.register addr = some s') :
    (s.pc = .collecting ∧ s' = { s with
      workerAddr := addr
      workerSet := s.workerSet ++ [addr]
      workerState := s.workerState.insert addr false }) ∨
    (s.pc = .listening ∧ s' = { s with
      workerAddr := addr
      workerState := s.workerState.insert addr false
      wg := s.wg + 1 }) := by
  unfold register at moved
  split at moved
  · next place => exact Or.inl ⟨place, (Option.some.inj moved).symm⟩
  · next place => exact Or.inr ⟨place, (Option.some.inj moved).symm⟩
  · cases moved

theorem issue_cases {order : List String} (moved : s.issue config order = some s') :
    s.pc = .issuing ∧ GoMap.Visits order s.workerState ∧
      ∃ call : Call, s.taskList[s.i]? = some call.args.taskNumber ∧ call.state = .created ∧
        config.Asks call.args ∧ s' = { s with
          pc := if s.runningTask + 1 = (Finmap.keys (s.workerState.insert (s.pick order) true)).card
            then .waiting else .listening
          workerAddr := s.pick order
          workerState := s.workerState.insert (s.pick order) true
          runningTask := s.runningTask + 1
          calls := s.calls ++ [call] } := by
  unfold issue at moved
  split at moved
  · next guard =>
      obtain ⟨task, listed, rest⟩ := Option.bind_eq_some_iff.mp moved
      obtain ⟨file, known, made⟩ := Option.map_eq_some_iff.mp rest
      exact ⟨guard.1, guard.2, _, listed, rfl, ⟨rfl, known, rfl, rfl⟩, made.symm⟩
  · cases moved

theorem receive_cases (moved : s.receive = some s') :
    s.pc = .draining ∧ ∃ failed rest, s.failedChan = failed :: rest ∧ s' = { s with
      workerState := s.workerState.erase failed.1
      taskList := s.taskList ++ [failed.2]
      failedChan := rest } := by
  unfold receive at moved
  split at moved
  · next failed rest place channel =>
      exact ⟨place, failed, rest, channel, (Option.some.inj moved).symm⟩
  · cases moved

theorem drained_cases {order : List String} (moved : s.drained order = some s') :
    s.pc = .draining ∧ GoMap.Visits order s.workerState ∧ s' = { s with
      pc := .listening
      runningTask := 0
      workerState := Grouping.storeAll id (fun _ => false) s.workerState order
      wg := s.wg + s.workerState.keys.card } := by
  unfold drained at moved
  split at moved
  · next guard => exact ⟨guard.1, guard.2, (Option.some.inj moved).symm⟩
  · cases moved

end Schedule

end Mit6824.MapReduce
