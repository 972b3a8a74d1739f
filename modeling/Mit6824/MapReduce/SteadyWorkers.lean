import Mathlib.Algebra.GroupWithZero.Nat
import Mathlib.Algebra.Order.BigOperators.Group.List
import Mathlib.Algebra.Order.Group.Nat
import Mit6824.MapReduce.Batches

/-!
# Workers that do not fail

When the workers are all there at the start and no call fails, the tasks are issued one after the
other, each once, and the wait group counts exactly the goroutines that are not done and the
workers that are idle. So the scheduler neither panics nor waits for ever, and it returns after a
number of steps that only depends on the number of tasks.

All of this needs a map file for every task. The scheduler reads the name of one also in the reduce
phase, where there may be more tasks than files.
-/

namespace Mit6824.MapReduce

open Grouping

/-- No failure is under way. -/
def CallState.unfailed : CallState → Bool
  | .failed _ _ | .ending false | .done false => false
  | _ => true

/-- The number of steps the goroutine has left. -/
def CallState.owed : CallState → Nat
  | .created => 3
  | .calling _ _ | .failed _ _ => 2
  | .ending _ => 1
  | .done _ => 0

/-- The number of steps the main goroutine has left, those for further tasks apart. -/
def Pc.owed : Pc → Nat
  | .collecting | .issuing => 1
  | .waiting => 4
  | .draining => 3
  | .listening => 2
  | .returned => 0

namespace Schedule

/-- The condition on a step: the workers register at the start, each of them once, and there is
one; no call fails; and the loop ends only when every goroutine has read the loop variables. -/
def steady (s : Schedule) : Action → Bool
  | .register addr => s.pc = .collecting && addr ∉ s.workerSet
  | .collected => s.workerSet ≠ []
  | .listened =>
      s.i + 1 < s.taskList.length || s.calls.all fun call => call.state ≠ .created
  | .call _ (.reply flag) => flag
  | _ => true

/-- The step meets the condition. -/
def Steady (s : Schedule) (action : Action) : Prop :=
  s.steady action = true

instance (s : Schedule) (action : Action) : Decidable (s.Steady action) :=
  inferInstanceAs (Decidable (s.steady action = true))

/-- How far the loop and the batch are at each place of the main goroutine. -/
def Placed (config : Phase) (s : Schedule) : Prop :=
  match s.pc with
  | .collecting => s.i = 0 ∧ s.runningTask = 0
  | .issuing => s.i ≤ config.ntasks ∧ s.runningTask < s.workerState.keys.card
  | .waiting => s.i < config.ntasks ∧ s.runningTask = s.workerState.keys.card
  | .draining => s.i < config.ntasks ∧ s.wg = 0
  | .listening => s.i < config.ntasks ∧ s.runningTask < s.workerState.keys.card
  | .returned => s.i = config.ntasks

structure Orderly (config : Phase) (s : Schedule) : Prop where
  inOrder : s.calls.map (fun call => call.args.taskNumber) = List.range s.next
  asks : ∀ call ∈ s.calls, config.Asks call.args
  unfailed : ∀ call ∈ s.calls, call.state.unfailed = true
  received : s.failedChan = []
  addresses : s.workerSet.Nodup
  workers : s.workerState.keys = s.workerSet.toFinset
  busy : (s.workerState.withValue true).card = s.runningTask
  placed : s.Placed config
  known : s.pc ≠ .collecting → s.workerSet ≠ []
  tasks : s.pc ≠ .collecting → s.taskList = List.range config.ntasks
  counts : s.pc ≠ .collecting → s.wg = s.live + (s.workerState.withValue false).card
  started : config.ntasks ≤ s.i → ∀ call ∈ s.calls, call.state ≠ .created

variable {config : Phase} {s s' : Schedule}

theorem Orderly.start (config : Phase) : start.Orderly config where
  inOrder := rfl
  asks := fun _ mem => absurd mem List.not_mem_nil
  unfailed := fun _ mem => absurd mem List.not_mem_nil
  received := rfl
  addresses := List.nodup_nil
  workers := rfl
  busy := rfl
  placed := ⟨rfl, rfl⟩
  known := fun running => absurd rfl running
  tasks := fun running => absurd rfl running
  counts := fun running => absurd rfl running
  started := fun _ _ mem => absurd mem List.not_mem_nil

namespace Orderly

theorem calls_eq_nil (orderly : s.Orderly config) (place : s.pc = .collecting) : s.calls = [] := by
  have placed := orderly.placed
  simp only [Placed, place] at placed
  have none := orderly.inOrder
  simpa [next, Pc.issued, place, placed.1] using none

theorem running_of_mem (orderly : s.Orderly config) {call : Call} (mem : call ∈ s.calls) :
    s.pc ≠ .collecting := by
  intro place
  rw [orderly.calls_eq_nil place] at mem
  exact absurd mem List.not_mem_nil

theorem card_workers (orderly : s.Orderly config) :
    s.workerState.keys.card = s.workerSet.length := by
  rw [orderly.workers, List.toFinset_card_of_nodup orderly.addresses]

theorem next_le (orderly : s.Orderly config) : s.next ≤ config.ntasks := by
  have placed := orderly.placed
  cases place : s.pc
  all_goals
    simp only [Placed, place] at placed
    simp only [next, Pc.issued, place, reduceIte, Bool.false_eq_true]
    omega

/-- A goroutine moves without failing. -/
theorem move (orderly : s.Orderly config) {k : Nat} {call : Call} (state : CallState) (wg : Nat)
    (found : s.calls[k]? = some call) (alive : call.live = true) (good : state.unfailed = true)
    (entered : state ≠ .created) (counts : s.wg + Call.weight { call with state } = wg + 1) :
    Orderly config { s.setCall k call state with wg } := by
  have mem : call ∈ s.calls := List.mem_of_getElem? found
  have lives := live_setCall state found alive
  have running := orderly.running_of_mem mem
  have out : 0 < s.live := List.countP_pos_iff.mpr ⟨call, mem, alive⟩
  have before := orderly.counts running
  have changed : ∀ other ∈ s.calls.set k { call with state },
      other ∈ s.calls ∨ other = { call with state } := fun _ => List.mem_or_eq_of_mem_set
  constructor
  case inOrder =>
    obtain ⟨inRange, rfl⟩ := List.getElem?_eq_some_iff.mp found
    refine Eq.trans ?_ orderly.inOrder
    refine List.map_set.trans ?_
    refine Eq.trans ?_ (List.set_getElem_self (by simpa using inRange))
    rw [List.getElem_map]
  case asks =>
    intro other member
    rcases changed other member with old | rfl
    · exact orderly.asks other old
    · exact orderly.asks call mem
  case unfailed =>
    intro other member
    rcases changed other member with old | rfl
    · exact orderly.unfailed other old
    · exact good
  case received => exact orderly.received
  case addresses => exact orderly.addresses
  case workers => exact orderly.workers
  case busy => exact orderly.busy
  case placed =>
    have placed := orderly.placed
    cases place : s.pc <;> simp only [Placed, setCall, place] at placed ⊢ <;> try exact placed
    omega
  case known => exact orderly.known
  case tasks => exact orderly.tasks
  case counts =>
    intro _
    change wg = (s.setCall k call state).live + (s.workerState.withValue false).card
    omega
  case started =>
    intro last other member
    rcases changed other member with old | rfl
    · exact orderly.started last other old
    · exact entered

theorem callStep (orderly : s.Orderly config) {k : Nat} {call : Call} {move : CallMove}
    (found : s.calls[k]? = some call) (succeeds : ∀ flag, move = .reply flag → flag = true)
    (moved : s.callStep config k call move = some s') : s'.Orderly config := by
  have good := orderly.unfailed call (List.mem_of_getElem? found)
  cases move with
  | enter =>
      simp only [Schedule.callStep] at moved
      split_ifs at moved with created
      obtain ⟨task, _, rfl⟩ := Option.map_eq_some_iff.mp moved
      apply orderly.move _ s.wg found <;> simp [Call.live, Call.weight, created, CallState.unfailed]
  | reply flag =>
      obtain rfl := succeeds flag rfl
      cases state : call.state <;> simp only [Schedule.callStep, state, reduceCtorEq] at moved
      case calling task addr =>
        cases moved
        apply orderly.move _ s.wg found <;> simp [Call.live, Call.weight, state, CallState.unfailed]
  | report =>
      cases state : call.state <;> simp only [Schedule.callStep, state, reduceCtorEq] at moved
      case failed task addr => simp [CallState.unfailed, state] at good
  | done =>
      cases state : call.state <;> simp only [Schedule.callStep, state, reduceCtorEq] at moved
      case ending flag =>
        split_ifs at moved with positive
        cases moved
        have succeeded : flag = true := by
          cases flag
          · simp [CallState.unfailed, state] at good
          · rfl
        subst succeeded
        apply orderly.move _ _ found
        · simp [Call.live, state]
        · rfl
        · simp
        · simp only [Call.weight, Call.live, Bool.false_eq_true, if_false]
          omega

theorem register (orderly : s.Orderly config) {addr : String} (place : s.pc = .collecting)
    (new : addr ∉ s.workerSet) (moved : s.register addr = some s') : s'.Orderly config := by
  have placed := orderly.placed
  simp only [Placed, place] at placed
  rcases register_cases moved with ⟨_, rfl⟩ | ⟨other, _⟩
  · constructor
    case workers =>
      rw [GoMap.keys_insert, orderly.workers]
      ext key
      simp
    case addresses =>
      refine List.nodup_append.2 ⟨orderly.addresses, List.nodup_singleton _, ?_⟩
      rintro known member _ same rfl
      exact new (List.mem_singleton.1 same ▸ member)
    case busy =>
      have none := orderly.busy
      rw [GoMap.withValue_insert_of_ne Bool.false_ne_true]
      have fewer := Finset.card_erase_le (s := s.workerState.withValue true) (a := addr)
      change _ = s.runningTask
      omega
    case placed =>
      simp only [Placed, place]
      exact placed
    case inOrder => exact orderly.inOrder
    case asks => exact orderly.asks
    case unfailed => exact orderly.unfailed
    case received => exact orderly.received
    case started => exact orderly.started
    all_goals exact fun running => absurd place running
  · rw [place] at other
    cases other

theorem collected (orderly : s.Orderly config) (place : s.pc = .collecting)
    (some' : s.workerSet ≠ []) :
    Orderly config { s with
      pc := .issuing, wg := s.workerSet.length, taskList := List.range config.ntasks } := by
  have placed := orderly.placed
  simp only [Placed, place] at placed
  have workers := orderly.card_workers
  have positive := List.length_pos_of_ne_nil some'
  have none := orderly.calls_eq_nil place
  have both := s.workerState.card_withValue
  have busy := orderly.busy
  constructor
  case inOrder => simp [none, next, Pc.issued, placed.1]
  case asks => exact orderly.asks
  case unfailed => exact orderly.unfailed
  case received => exact orderly.received
  case addresses => exact orderly.addresses
  case workers => exact orderly.workers
  case busy => exact busy
  case placed => exact ⟨by simp [placed.1], by simp only; omega⟩
  case known => exact fun _ => some'
  case tasks => exact fun _ => rfl
  case counts =>
    intro _
    simp only [live, none, List.countP_nil]
    omega
  case started => exact orderly.started

/-- The task at `i` is issued to an idle worker. -/
theorem issue (orderly : s.Orderly config) {order : List String}
    (moved : s.issue config order = some s') : s'.Orderly config := by
  obtain ⟨place, visits, call, listed, created, asks, rfl⟩ := issue_cases moved
  have running : s.pc ≠ .collecting := by simp [place]
  have placed := orderly.placed
  simp only [Placed, place] at placed
  have both := s.workerState.card_withValue
  have busy := orderly.busy
  have counts := orderly.counts running
  obtain ⟨keys, idle, chosen⟩ := workers_pick visits (by omega)
  rw [orderly.tasks running] at listed
  obtain ⟨inTasks, same⟩ := List.getElem?_eq_some_iff.mp listed
  rw [List.length_range] at inTasks
  rw [List.getElem_range] at same
  have issued : (if s.runningTask + 1 = s.workerState.keys.card then Pc.waiting
      else Pc.listening).issued = true := by
    split_ifs <;> rfl
  have new : ∀ other ∈ s.calls ++ [call], other ∈ s.calls ∨ other = call := by simp
  rw [keys]
  constructor
  case inOrder =>
    have before := orderly.inOrder
    simp only [next, Pc.issued, place, Bool.false_eq_true, if_false] at before
    simp only [next, issued, if_true, List.map_append, before, List.range_succ, List.map_singleton,
      same]
  case asks =>
    intro other member
    rcases new other member with old | rfl
    · exact orderly.asks other old
    · exact asks
  case unfailed =>
    intro other member
    rcases new other member with old | rfl
    · exact orderly.unfailed other old
    · simp [created, CallState.unfailed]
  case received => exact orderly.received
  case addresses => exact orderly.addresses
  case workers => exact keys.trans orderly.workers
  case busy => exact chosen.trans (by rw [busy])
  case placed =>
    by_cases full : s.runningTask + 1 = s.workerState.keys.card
    · simp only [Placed, full, if_true, keys]
      exact ⟨inTasks, trivial⟩
    · simp only [Placed, full, if_false, keys]
      exact ⟨inTasks, by omega⟩
  case known => exact fun _ => orderly.known running
  case tasks => exact fun _ => orderly.tasks running
  case counts =>
    intro _
    have alive : call.live = true := by simp [Call.live, created]
    simp only [live, List.countP_append, List.countP_singleton, alive, if_true]
    unfold live at counts
    omega
  case started => exact fun last => absurd inTasks (not_lt.mpr last)

/-- The main goroutine goes on to another place. -/
theorem goOn (orderly : s.Orderly config) (running : s.pc ≠ .collecting) (pc : Pc) (i : Nat)
    (same : { s with pc, i }.next = s.next)
    (placed : { s with pc, i }.Placed config)
    (started : config.ntasks ≤ i → ∀ call ∈ s.calls, call.state ≠ .created) :
    { s with pc, i }.Orderly config where
  inOrder := by rw [same]; exact orderly.inOrder
  asks := orderly.asks
  unfailed := orderly.unfailed
  received := orderly.received
  addresses := orderly.addresses
  workers := orderly.workers
  busy := orderly.busy
  placed := placed
  known := fun _ => orderly.known running
  tasks := fun _ => orderly.tasks running
  counts := fun _ => orderly.counts running
  started := started

theorem drained (orderly : s.Orderly config) {order : List String}
    (moved : s.drained order = some s') : s'.Orderly config := by
  obtain ⟨place, visits, rfl⟩ := drained_cases moved
  have running : s.pc ≠ .collecting := by simp [place]
  have placed := orderly.placed
  simp only [Placed, place] at placed
  have counts := orderly.counts running
  have keys := keys_storeAll visits
  constructor
  case inOrder =>
    have before := orderly.inOrder
    simpa [next, Pc.issued, place] using before
  case asks => exact orderly.asks
  case unfailed => exact orderly.unfailed
  case received => exact orderly.received
  case addresses => exact orderly.addresses
  case workers => exact keys.trans orderly.workers
  case busy => rw [busy_storeAll visits, Finset.card_empty]
  case placed =>
    simp only [Placed, keys]
    have workers := orderly.card_workers
    have positive := List.length_pos_of_ne_nil (orderly.known running)
    exact ⟨placed.1, by omega⟩
  case known => exact fun _ => orderly.known running
  case tasks => exact fun _ => orderly.tasks running
  case counts =>
    intro _
    rw [idle_storeAll visits]
    change s.wg + s.workerState.keys.card = s.live + s.workerState.keys.card
    omega
  case started => exact orderly.started

theorem step (orderly : s.Orderly config) {action : Action} (steady : s.Steady action)
    (moved : s.step config action = some s') : s'.Orderly config := by
  unfold Steady Schedule.steady at steady
  have placed := orderly.placed
  cases action with
  | register addr =>
      simp only [Bool.and_eq_true, decide_eq_true_eq] at steady
      exact orderly.register steady.1 steady.2 moved
  | collected =>
      simp only [Schedule.step] at moved
      split_ifs at moved with place
      cases moved
      exact orderly.collected place (by simpa using steady)
  | issue order => exact orderly.issue moved
  | leave =>
      simp only [Schedule.step] at moved
      split_ifs at moved with place
      cases moved
      have running : s.pc ≠ .collecting := by simp [place.1]
      have ended := place.2
      rw [orderly.tasks running, List.length_range] at ended
      simp only [Placed, place.1] at placed
      exact orderly.goOn running .returned s.i (by simp [next, Pc.issued, place.1])
        (le_antisymm placed.1 ended) orderly.started
  | waited =>
      simp only [Schedule.step] at moved
      split_ifs at moved with place
      cases moved
      simp only [Placed, place.1] at placed
      exact orderly.goOn (by simp [place.1]) .draining s.i
        (by simp [next, Pc.issued, place.1]) ⟨placed.1, place.2⟩ orderly.started
  | receive =>
      obtain ⟨_, failed, rest, channel, _⟩ := receive_cases moved
      rw [orderly.received] at channel
      cases channel
  | drained order => exact orderly.drained moved
  | listened =>
      simp only [Schedule.step] at moved
      split_ifs at moved with place
      cases moved
      have running : s.pc ≠ .collecting := by simp [place]
      simp only [Placed, place] at placed
      refine orderly.goOn running .issuing (s.i + 1) (by simp [next, Pc.issued, place])
        placed fun last => ?_
      rw [orderly.tasks running, List.length_range] at steady
      simpa [not_lt.mpr last] using steady
  | call k move =>
      obtain ⟨call, found, moved⟩ := Option.bind_eq_some_iff.mp moved
      refine orderly.callStep found (fun flag same => ?_) moved
      subst same
      exact steady

/-! ## Nothing gets stuck -/

/-- A goroutine that is not done can move. -/
theorem exists_move (orderly : s.Orderly config) {k : Nat} {call : Call}
    (found : s.calls[k]? = some call) (alive : call.live = true) :
    ∃ move, s.Steady (.call k move) ∧ (s.step config (.call k move)).isSome = true := by
  have mem : call ∈ s.calls := List.mem_of_getElem? found
  have running := orderly.running_of_mem mem
  have good := orderly.unfailed call mem
  cases state : call.state with
  | created =>
      have inTasks : s.i < config.ntasks := by
        by_contra last
        exact orderly.started (not_lt.mp last) call mem state
      refine ⟨.enter, rfl, ?_⟩
      simp [Schedule.step, found, Schedule.callStep, state, orderly.tasks running, inTasks]
  | calling task addr =>
      refine ⟨.reply true, rfl, ?_⟩
      simp [Schedule.step, found, Schedule.callStep, state]
  | failed task addr => simp [state, CallState.unfailed] at good
  | ending flag =>
      have out : 0 < s.live := List.countP_pos_iff.mpr ⟨call, mem, alive⟩
      have positive : 0 < s.wg := by
        rw [orderly.counts running]
        omega
      refine ⟨.done, rfl, ?_⟩
      simp [Schedule.step, found, Schedule.callStep, state, positive]
  | done flag => simp [Call.live, state] at alive

/-- A goroutine that is not done lets the scheduler go on. -/
theorem exists_step_of_mem (orderly : s.Orderly config) {call : Call} (mem : call ∈ s.calls)
    (alive : call.live = true) :
    ∃ action, s.Steady action ∧ (s.step config action).isSome = true := by
  obtain ⟨k, found⟩ := List.mem_iff_getElem?.mp mem
  obtain ⟨move, steady, moves⟩ := orderly.exists_move found alive
  exact ⟨.call k move, steady, moves⟩

/-- While the scheduler has not returned, some step can be taken. -/
theorem exists_step (orderly : s.Orderly config) (files : config.ntasks ≤ config.mapFiles.length)
    (running : s.pc ≠ .collecting) (unreturned : s.pc ≠ .returned) :
    ∃ action, s.Steady action ∧ (s.step config action).isSome = true := by
  have placed := orderly.placed
  have tasks := orderly.tasks running
  obtain ⟨order, visits⟩ := s.workerState.exists_visits
  cases place : s.pc with
  | collecting => exact absurd place running
  | returned => exact absurd place unreturned
  | issuing =>
      by_cases inTasks : s.i < config.ntasks
      · refine ⟨.issue order, rfl, ?_⟩
        simp [Schedule.step, Schedule.issue, place, visits, tasks, inTasks,
          inTasks.trans_le files]
      · refine ⟨.leave, rfl, ?_⟩
        simp [Schedule.step, place, tasks, not_lt.mp inTasks]
  | waiting =>
      by_cases ended : s.wg = 0
      · exact ⟨.waited, rfl, by simp [Schedule.step, place, ended]⟩
      · -- no worker is idle, so the wait group counts goroutines only
        simp only [Placed, place] at placed
        have both := s.workerState.card_withValue
        have busy := orderly.busy
        have counts := orderly.counts running
        have out : 0 < s.live := by omega
        obtain ⟨call, mem, alive⟩ := List.countP_pos_iff.mp out
        exact orderly.exists_step_of_mem mem alive
  | draining =>
      refine ⟨.drained order, rfl, ?_⟩
      simp [Schedule.step, Schedule.drained, place, visits]
  | listening =>
      by_cases all : s.calls.all (fun call => call.state ≠ .created) = true
      · refine ⟨.listened, ?_, by simp [Schedule.step, place]⟩
        rw [Steady, steady, all, Bool.or_true]
      · obtain ⟨call, mem, created⟩ : ∃ call ∈ s.calls, call.state = .created := by
          simpa using all
        exact orderly.exists_step_of_mem mem (by simp [Call.live, created])

end Orderly

/-! ## The number of steps -/

/-- An upper bound for the number of steps that are left; a task takes seven. -/
def owed (config : Phase) (s : Schedule) : Nat :=
  7 * (config.ntasks - s.next) + s.pc.owed + (s.calls.map fun call => call.state.owed).sum

theorem owed_setCall {k : Nat} {call : Call} (state : CallState)
    (found : s.calls[k]? = some call) :
    (s.setCall k call state).owed config + call.state.owed = s.owed config + state.owed := by
  obtain ⟨inRange, rfl⟩ := List.getElem?_eq_some_iff.mp found
  have whole := congrArg (fun calls => (calls.map fun call => call.state.owed).sum)
    (List.take_append_drop k s.calls)
  simp only [List.drop_eq_getElem_cons inRange] at whole
  simp only [owed, setCall, next, List.set_eq_take_append_cons_drop, inRange, if_true]
  simp only [List.map_append, List.map_cons, List.sum_append, List.sum_cons] at whole ⊢
  omega

theorem Orderly.owed_callStep (orderly : s.Orderly config) {k : Nat} {call : Call}
    {move : CallMove} (found : s.calls[k]? = some call)
    (succeeds : ∀ flag, move = .reply flag → flag = true)
    (moved : s.callStep config k call move = some s') :
    s'.pc = s.pc ∧ s'.owed config < s.owed config := by
  have good := orderly.unfailed call (List.mem_of_getElem? found)
  -- in each case the state that follows owes one step less
  have lowered : ∀ state : CallState, state.owed < call.state.owed →
      (s.setCall k call state).owed config < s.owed config := by
    intro state less
    have changed : (s.setCall k call state).owed config + call.state.owed =
        s.owed config + state.owed := owed_setCall state found
    omega
  cases move with
  | enter =>
      simp only [Schedule.callStep] at moved
      split_ifs at moved with created
      obtain ⟨task, _, rfl⟩ := Option.map_eq_some_iff.mp moved
      exact ⟨rfl, lowered _ (by simp [created, CallState.owed])⟩
  | reply flag =>
      cases state : call.state <;> simp only [Schedule.callStep, state, reduceCtorEq] at moved
      case calling task addr =>
        cases moved
        obtain rfl := succeeds flag rfl
        exact ⟨rfl, lowered (.ending true) (by simp [state, CallState.owed])⟩
  | report =>
      cases state : call.state <;> simp only [Schedule.callStep, state, reduceCtorEq] at moved
      case failed task addr => simp [CallState.unfailed, state] at good
  | done =>
      cases state : call.state <;> simp only [Schedule.callStep, state, reduceCtorEq] at moved
      case ending flag =>
        split_ifs at moved
        cases moved
        exact ⟨rfl, lowered (.done flag) (by simp [state, CallState.owed])⟩

/-- Every step but those of the start takes one away. -/
theorem Orderly.owed_step (orderly : s.Orderly config) (running : s.pc ≠ .collecting)
    {action : Action} (steady : s.Steady action) (moved : s.step config action = some s') :
    s'.pc ≠ .collecting ∧ s'.owed config < s.owed config := by
  cases action with
  | register addr =>
      simp [Steady, Schedule.steady, running] at steady
  | collected => simp [Schedule.step, running] at moved
  | issue order =>
      have orderly' := orderly.issue moved
      obtain ⟨place, _, call, _, created, _, rfl⟩ := issue_cases moved
      have new : call.state.owed = 3 := by rw [created]; rfl
      have next' := orderly'.next_le
      simp only [owed, next, List.map_append, List.sum_append, List.map_singleton,
        List.sum_singleton, new, place, Pc.issued, Pc.owed] at next' ⊢
      split_ifs at next' ⊢ <;> simp_all <;> omega
  | leave =>
      simp only [Schedule.step] at moved
      split_ifs at moved with place
      cases moved
      simp [owed, next, Pc.issued, Pc.owed, place.1]
  | waited =>
      simp only [Schedule.step] at moved
      split_ifs at moved with place
      cases moved
      simp [owed, next, Pc.issued, Pc.owed, place.1]
  | receive =>
      obtain ⟨_, failed, rest, channel, _⟩ := receive_cases moved
      rw [orderly.received] at channel
      cases channel
  | drained order =>
      obtain ⟨place, _, rfl⟩ := drained_cases moved
      simp [owed, next, Pc.issued, Pc.owed, place]
  | listened =>
      simp only [Schedule.step] at moved
      split_ifs at moved with place
      cases moved
      simp [owed, next, Pc.issued, Pc.owed, place]
  | call k move =>
      obtain ⟨call, found, moved⟩ := Option.bind_eq_some_iff.mp moved
      obtain ⟨same, less⟩ := orderly.owed_callStep found
        (fun flag same => by subst same; exact steady) moved
      exact ⟨same ▸ running, less⟩

theorem Orderly.owed_le (orderly : s.Orderly config) :
    s.owed config ≤ 7 * config.ntasks + 4 := by
  have next := orderly.next_le
  have made : s.calls.length = s.next := by
    have lengths := congrArg List.length orderly.inOrder
    simpa using lengths
  have calls : (s.calls.map fun call => call.state.owed).sum ≤ s.calls.length * 3 := by
    refine (List.sum_le_card_nsmul _ 3 ?_).trans_eq (by simp)
    simp only [List.mem_map, forall_exists_index, and_imp, forall_apply_eq_imp_iff₂]
    rintro ⟨_, state⟩ _
    cases state <;> simp [CallState.owed]
  have place : s.pc.owed ≤ 4 := by cases s.pc <;> simp [Pc.owed]
  rw [owed]
  omega

/-! ## Whole runs -/

theorem orderly_of_run (run : Reaches (step config) Steady start s) : s.Orderly config :=
  run.invariant (Orderly config) (.start config) fun orderly steady moved =>
    orderly.step steady moved

theorem Orderly.execute_length_le (orderly : s.Orderly config) (running : s.pc ≠ .collecting)
    {actions : List Action} (executed : execute (Schedule.step config) Steady s actions = some s') :
    actions.length ≤ 7 * config.ntasks + 4 := by
  have owed := orderly.owed_le
  obtain ⟨k, _, bound⟩ := Mit6824.execute_length_le
    (fun s k => s.Orderly config ∧ s.pc ≠ .collecting ∧ s.owed config = k)
    (fun {_ _ _ _} ⟨orderly, running, same⟩ steady moved =>
      have ⟨running', less⟩ := orderly.owed_step running steady moved
      ⟨_, same ▸ less, orderly.step steady moved, running', rfl⟩)
    ⟨orderly, running, rfl⟩ executed
  omega

/-- The reduce phase, with a map file for each of its tasks. In every run the reduce tasks have
been issued from the first on, each once; no index is out of range, no goroutine panics, and the
scheduler goes on until it returns, which it does after all of them. -/
theorem reduce_issues_every_task {config : Phase} {s : Schedule}
    (reduces : config.phase = .reducePhase) (files : config.nReduce ≤ config.mapFiles.length)
    (run : Reaches (step config) Steady start s) :
    (∃ k ≤ config.nReduce, s.calls.map (fun call => call.args.taskNumber) = List.range k ∧
      (s.pc = .returned → k = config.nReduce ∧ ∀ call ∈ s.calls, call.state ≠ .created)) ∧
    (∀ call ∈ s.calls, config.Asks call.args ∧
      call.args.numOtherPhase = config.mapFiles.length) ∧
    (s.pc = .issuing → ∀ task, s.taskList[s.i]? = some task → task < config.mapFiles.length) ∧
    (∀ k call, s.calls[k]? = some call → call.live = true →
      ∃ move, s.Steady (.call k move) ∧ (s.step config (.call k move)).isSome = true) ∧
    (s.pc ≠ .collecting → s.pc ≠ .returned →
      ∃ action, s.Steady action ∧ (s.step config action).isSome = true) ∧
    (s.pc ≠ .collecting → ∀ actions s', execute (step config) Steady s actions = some s' →
      actions.length ≤ 7 * config.nReduce + 4) := by
  have orderly := orderly_of_run run
  have placed := orderly.placed
  have ntasks : config.ntasks = config.nReduce := by simp [Phase.ntasks, reduces]
  have nOther : config.nOther = config.mapFiles.length := by simp [Phase.nOther, reduces]
  rw [← ntasks] at files ⊢
  refine ⟨⟨s.next, orderly.next_le, orderly.inOrder, fun returned => ?_⟩, fun call mem => ?_,
    fun place task listed => ?_, fun k call found alive => orderly.exists_move found alive,
    orderly.exists_step files, fun running actions s' => orderly.execute_length_le running⟩
  · simp only [Placed, returned] at placed
    exact ⟨by simp [next, Pc.issued, returned, placed], orderly.started placed.ge⟩
  · have asks := orderly.asks call mem
    exact ⟨asks, asks.numOtherPhase.trans nOther⟩
  · rw [orderly.tasks (by simp [place])] at listed
    exact (List.mem_range.1 (List.mem_of_getElem? listed)).trans_le files

/-- A reduce phase with two tasks. -/
def twoReduces (mapFiles : List String) : Phase where
  jobName := "test"
  mapFiles := mapFiles
  nReduce := 2
  phase := .reducePhase

/-- The only worker does one task, and the loop goes on to the next. -/
def nextRound (k : Nat) : List Action :=
  [.issue ["a"], .call k .enter, .call k (.reply true), .call k .done, .waited, .drained ["a"],
    .listened]

theorem reduce_issues_every_task_twoReduces :
    ∃ s, Reaches (step (twoReduces ["x", "y"])) Steady start s ∧ s.pc = .returned ∧
      s.calls.map (fun call => call.args.taskNumber) = List.range 2 := by
  obtain ⟨s, run, returned⟩ : ∃ s, Reaches (step (twoReduces ["x", "y"])) Steady start s ∧
      s.pc = .returned :=
    exists_reaches ([.register "a", .collected] ++ nextRound 0 ++ nextRound 1 ++ [.leave])
      (by decide +kernel)
  obtain ⟨⟨k, _, issued, ends⟩, _⟩ := reduce_issues_every_task rfl (by decide) run
  obtain rfl := (ends returned).1
  exact ⟨s, run, returned, issued⟩

/-- With one map file the second reduce task reads a file name that is not there. -/
theorem reduce_reads_missing_file :
    ∃ s, Reaches (step (twoReduces ["x"])) Steady start s ∧ s.pc = .issuing ∧
      (∃ task, s.taskList[s.i]? = some task ∧ (twoReduces ["x"]).mapFiles.length ≤ task) ∧
      ∀ order, s.step (twoReduces ["x"]) (.issue order) = none := by
  obtain ⟨s, run, place, listed⟩ : ∃ s, Reaches (step (twoReduces ["x"])) Steady start s ∧
      s.pc = .issuing ∧ s.taskList[s.i]? = some 1 :=
    exists_reaches ([.register "a", .collected] ++ nextRound 0) (by decide +kernel)
  refine ⟨s, run, place, ⟨1, listed, by decide⟩, fun order => ?_⟩
  simp [Schedule.step, Schedule.issue, listed, twoReduces]

end Schedule

end Mit6824.MapReduce
