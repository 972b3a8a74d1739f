import Mit6824.MapReduce.Schedule

/-!
# Every task is done when the scheduler returns

A task that no call has done yet is still in the list, in the hands of a goroutine or in the
channel of failed calls; the scheduler may return only when none of the three can be the case.
The wait group counts at least the goroutines that are not done and the workers that are idle, so
it comes to zero only when the whole batch is done.

The scheduler keeps to this only under four conditions (`keepsTasks`). It does not wait for the
last batch unless that batch is full, it gives up on a failed call that does not come out of the
channel within 10 ms, it calls a worker that has already failed when no worker is left, and a
goroutine that starts late reports the number of another task.
-/

namespace Mit6824.MapReduce

open Grouping

namespace Call

/-- The call is not over, or it has returned true. -/
def Has (call : Call) (task : Nat) : Prop :=
  call.args.taskNumber = task ∧ call.state ≠ .ending false ∧ call.state ≠ .done false

/-- What the goroutine will report is the number of its own task. -/
def ReportsOwn (call : Call) : Prop :=
  ∀ task addr, call.state = .calling task addr ∨ call.state = .failed task addr →
    task = call.args.taskNumber

/-- One for a goroutine that is not done. -/
def weight (call : Call) : Nat :=
  if call.live then 1 else 0

end Call

/-- The main goroutine is in the loop and has issued task `i`. -/
def Pc.issued : Pc → Bool
  | .waiting | .draining | .listening => true
  | _ => false

namespace Schedule

/-! ## Choosing a worker -/

theorem lookup_pick_of_mem {workers : GoMap String Bool} {order : List String} {addr : String}
    (idle : workers.lookup addr = some false ∨ ∃ key ∈ order, workers.lookup key = some false) :
    workers.lookup (order.foldl
      (fun addr key => if workers.lookup key = some false then key else addr) addr) =
        some false := by
  induction order generalizing addr with
  | nil => simpa using idle
  | cons key rest ih =>
      rw [List.foldl_cons]
      apply ih
      by_cases free : workers.lookup key = some false
      · left
        rw [if_pos free, free]
      · rw [if_neg free]
        simpa [free] using idle

/-- The loop finds an idle worker when there is one. -/
theorem lookup_pick {s : Schedule} {order : List String}
    (visits : GoMap.Visits order s.workerState) (idle : 0 < (s.workerState.withValue false).card) :
    s.workerState.lookup (s.pick order) = some false := by
  obtain ⟨key, mem⟩ := Finset.card_pos.mp idle
  have free := GoMap.mem_withValue.mp mem
  apply lookup_pick_of_mem
  exact Or.inr ⟨key, visits.mem_iff.mpr (Finmap.mem_iff.mpr ⟨false, free⟩), free⟩

/-- The chosen worker becomes busy, and nothing else changes. -/
theorem workers_pick {s : Schedule} {order : List String}
    (visits : GoMap.Visits order s.workerState) (idle : 0 < (s.workerState.withValue false).card) :
    Finmap.keys (s.workerState.insert (s.pick order) true) = s.workerState.keys ∧
      (GoMap.withValue (s.workerState.insert (s.pick order) true) false).card + 1 =
        (s.workerState.withValue false).card ∧
      (GoMap.withValue (s.workerState.insert (s.pick order) true) true).card =
        (s.workerState.withValue true).card + 1 := by
  have free := lookup_pick visits idle
  have inKeys : s.pick order ∈ s.workerState.keys :=
    Finmap.mem_keys.mpr (Finmap.mem_iff.mpr ⟨false, free⟩)
  refine ⟨by rw [GoMap.keys_insert, Finset.insert_eq_of_mem inKeys], ?_, ?_⟩
  · rw [GoMap.withValue_insert_of_ne (by decide)]
    exact Finset.card_erase_add_one (GoMap.mem_withValue.mpr free)
  · rw [GoMap.withValue_insert]
    refine Finset.card_insert_of_notMem fun mem => ?_
    rw [GoMap.mem_withValue, free] at mem
    cases mem

/-- The loop that makes all workers idle again. -/
theorem lookup_storeAll_idle {workers : GoMap String Bool} {order : List String}
    (visits : GoMap.Visits order workers) (key : String) :
    (storeAll id (fun _ => false) workers order).lookup key =
      if key ∈ workers then some false else none := by
  rw [lookup_storeAll id (fun _ => false) (f := fun _ => false) fun _ _ => rfl]
  by_cases known : key ∈ workers
  · simp [known, visits.mem_iff]
  · simp [known, visits.mem_iff, Finmap.lookup_eq_none.mpr known]

theorem keys_storeAll {workers : GoMap String Bool} {order : List String}
    (visits : GoMap.Visits order workers) :
    Finmap.keys (storeAll id (fun _ => false) workers order) = workers.keys := by
  ext key
  rw [Finmap.mem_keys, Finmap.mem_iff, lookup_storeAll_idle visits, Finmap.mem_keys]
  simp

theorem idle_storeAll {workers : GoMap String Bool} {order : List String}
    (visits : GoMap.Visits order workers) :
    GoMap.withValue (storeAll id (fun _ => false) workers order) false = workers.keys := by
  ext key
  rw [GoMap.mem_withValue, lookup_storeAll_idle visits, Finmap.mem_keys]
  simp

theorem busy_storeAll {workers : GoMap String Bool} {order : List String}
    (visits : GoMap.Visits order workers) :
    GoMap.withValue (storeAll id (fun _ => false) workers order) true = ∅ := by
  refine Finset.eq_empty_of_forall_notMem fun key mem => ?_
  rw [GoMap.mem_withValue, lookup_storeAll_idle visits] at mem
  split_ifs at mem
  cases mem

/-! ## The condition and the invariant -/

/-- The condition on a step: a goroutine reads the loop variables while `i` is still its own; a
task is issued only while there is a worker; the failed calls of a batch are all received; and
the loop ends only with no batch under way. -/
def keepsTasks (s : Schedule) : Action → Bool
  | .issue _ => s.workerState.keys ≠ ∅
  | .leave => s.runningTask = 0
  | .drained _ => s.failedChan = []
  | .call k .enter =>
      s.calls[k]?.all fun call => s.taskList[s.i]? = some call.args.taskNumber
  | _ => true

/-- The step meets the condition. -/
def Keeps (s : Schedule) (action : Action) : Prop :=
  s.keepsTasks action = true

instance (s : Schedule) (action : Action) : Decidable (s.Keeps action) :=
  inferInstanceAs (Decidable (s.keepsTasks action = true))

/-- The place in the list from which on no task has been issued. -/
def next (s : Schedule) : Nat :=
  if s.pc.issued then s.i + 1 else s.i

/-- The number of goroutines that are not done. -/
def live (s : Schedule) : Nat :=
  s.calls.countP Call.live

theorem live_setCall {s : Schedule} {k : Nat} {call : Call} (state : CallState)
    (found : s.calls[k]? = some call) (alive : call.live = true) :
    (s.setCall k call state).live + 1 = s.live + Call.weight { call with state } := by
  obtain ⟨inRange, at_k⟩ := List.getElem?_eq_some_iff.mp found
  have out : 0 < s.live := List.countP_pos_iff.mpr ⟨call, List.mem_of_getElem? found, alive⟩
  unfold setCall Call.weight
  unfold live at out ⊢
  rw [List.countP_set inRange, at_k, alive, if_pos rfl]
  omega

/-- Some call has done the task, or it is not lost. -/
def Accounts (s : Schedule) (task : Nat) : Prop :=
  (∃ call ∈ s.calls, call.Has task) ∨ task ∈ s.taskList.drop s.next ∨
    ∃ addr, (addr, task) ∈ s.failedChan

structure Inv (config : Phase) (s : Schedule) : Prop where
  accounted : s.pc ≠ .collecting → ∀ task < config.ntasks, s.Accounts task
  own : ∀ call ∈ s.calls, call.ReportsOwn
  waits : s.pc ≠ .collecting → s.live + (s.workerState.withValue false).card ≤ s.wg
  collects : s.pc = .collecting → s.calls = [] ∧ s.i = 0 ∧
    (s.workerState.withValue false).card ≤ s.workerSet.length
  settled : s.runningTask = 0 → s.live = 0 ∧ s.failedChan = []
  drains : s.pc = .draining → s.live = 0
  busy : (s.workerState.withValue true).card ≤ s.runningTask
  room : s.pc ≠ .waiting → s.pc ≠ .draining →
    s.runningTask < s.workerState.keys.card ∨ s.runningTask = 0
  inList : s.pc.issued → s.i < s.taskList.length

variable {config : Phase} {s s' : Schedule}

theorem Inv.start (config : Phase) : start.Inv config where
  accounted := fun running => absurd rfl running
  own := fun _ mem => absurd mem List.not_mem_nil
  waits := fun running => absurd rfl running
  collects := fun _ => ⟨rfl, rfl, by decide⟩
  settled := fun _ => ⟨rfl, rfl⟩
  drains := fun _ => rfl
  busy := by decide
  room := fun _ _ => Or.inr rfl
  inList := nofun

/-! ## The main goroutine -/

theorem Inv.register (inv : s.Inv config) {addr : String}
    (moved : s.register addr = some s') : s'.Inv config := by
  have idle : (GoMap.withValue (s.workerState.insert addr false) false).card ≤
      (s.workerState.withValue false).card + 1 := by
    rw [GoMap.withValue_insert]
    exact Finset.card_insert_le _ _
  have busy : (GoMap.withValue (s.workerState.insert addr false) true).card ≤ s.runningTask := by
    rw [GoMap.withValue_insert_of_ne Bool.false_ne_true]
    exact le_trans Finset.card_erase_le inv.busy
  have workers :
      s.workerState.keys.card ≤ (Finmap.keys (s.workerState.insert addr false)).card := by
    rw [GoMap.keys_insert]
    exact Finset.card_le_card (Finset.subset_insert _ _)
  have room : s.pc ≠ .waiting → s.pc ≠ .draining →
      s.runningTask < (Finmap.keys (s.workerState.insert addr false)).card ∨ s.runningTask = 0 :=
    fun notWaiting notDraining =>
      (inv.room notWaiting notDraining).imp_left (lt_of_lt_of_le · workers)
  rcases register_cases moved with ⟨place, rfl⟩ | ⟨place, rfl⟩
  · obtain ⟨calls, first, set⟩ := inv.collects place
    exact {
      accounted := fun running => absurd place running
      own := inv.own
      waits := fun running => absurd place running
      collects := fun _ => ⟨calls, first, by
        rw [List.length_append]
        exact idle.trans (Nat.add_le_add_right set 1)⟩
      settled := inv.settled
      drains := inv.drains
      busy
      room
      inList := inv.inList }
  · have running : s.pc ≠ .collecting := by simp [place]
    have waits := inv.waits running
    exact {
      accounted := fun _ => inv.accounted running
      own := inv.own
      waits := fun _ => by
        change s.live + (GoMap.withValue (s.workerState.insert addr false) false).card ≤ s.wg + 1
        omega
      collects := fun collecting => absurd collecting running
      settled := inv.settled
      drains := inv.drains
      busy
      room
      inList := inv.inList }

theorem Inv.collected (inv : s.Inv config) (place : s.pc = .collecting) :
    Inv config { s with
      pc := .issuing, wg := s.workerSet.length, taskList := List.range config.ntasks } := by
  obtain ⟨calls, first, set⟩ := inv.collects place
  have none : s.live = 0 := by simp [live, calls]
  constructor
  case accounted =>
    intro _ task inRange
    refine Or.inr (Or.inl ?_)
    simpa [next, Pc.issued, first] using inRange
  case own => exact inv.own
  case waits =>
    intro _
    change s.live + (s.workerState.withValue false).card ≤ s.workerSet.length
    omega
  case collects => nofun
  case settled => exact inv.settled
  case drains => nofun
  case busy => exact inv.busy
  case room =>
    intro _ _
    exact inv.room (by simp [place]) (by simp [place])
  case inList => nofun

/-- Issuing a task: it leaves the list for a new goroutine, and an idle worker becomes busy. -/
theorem Inv.issue (inv : s.Inv config) {order : List String} (workers : s.workerState.keys ≠ ∅)
    (moved : s.issue config order = some s') : s'.Inv config := by
  obtain ⟨place, visits, call, listed, created, _, rfl⟩ := issue_cases moved
  have running : s.pc ≠ .collecting := by simp [place]
  have room := inv.room (by simp [place]) (by simp [place])
  have known : 0 < s.workerState.keys.card :=
    Finset.card_pos.mpr (Finset.nonempty_iff_ne_empty.mpr workers)
  have both := s.workerState.card_withValue
  have busy := inv.busy
  have waits := inv.waits running
  obtain ⟨keys, idle, chosen⟩ := workers_pick visits (by omega)
  have issued : (if s.runningTask + 1 = s.workerState.keys.card then Pc.waiting
      else Pc.listening).issued = true := by
    split_ifs <;> rfl
  rw [keys]
  constructor
  case accounted =>
    intro _ task inRange
    rcases inv.accounted running task inRange with ⟨other, mem, has⟩ | pending | failed
    · exact Or.inl ⟨other, List.mem_append_left _ mem, has⟩
    · have here : s.next = s.i := by simp [next, Pc.issued, place]
      rw [here, List.drop_eq_getElem?_toList_append, listed] at pending
      rcases List.mem_append.mp pending with first | later
      · have same : task = call.args.taskNumber := by simpa using first
        exact Or.inl ⟨call, by simp, same.symm, by simp [created], by simp [created]⟩
      · refine Or.inr (Or.inl ?_)
        simpa only [next, issued, if_true] using later
    · exact Or.inr (Or.inr failed)
  case own =>
    intro other mem
    rcases List.mem_append.mp mem with old | new
    · exact inv.own other old
    · rw [List.mem_singleton.mp new]
      intro task addr state
      simp [created] at state
  case waits =>
    intro _
    have alive : call.live = true := by simp [Call.live, created]
    simp only [live, List.countP_append, List.countP_singleton, alive, if_true]
    unfold live at waits
    omega
  case collects =>
    intro collecting
    split_ifs at collecting
  case settled => nofun
  case drains =>
    intro draining
    split_ifs at draining
  case busy =>
    rw [chosen]
    exact Nat.add_le_add_right busy 1
  case room =>
    intro notWaiting _
    left
    simp only [keys]
    by_cases full : s.runningTask + 1 = s.workerState.keys.card
    · simp [full] at notWaiting
    · omega
  case inList =>
    intro _
    exact (List.getElem?_eq_some_iff.mp listed).1

/-- The main goroutine goes on to another place without touching the batch. -/
theorem Inv.goOn (inv : s.Inv config) (running : s.pc ≠ .collecting) (pc : Pc) (i : Nat)
    (onward : pc ≠ .collecting) (same : { s with pc, i }.next = s.next)
    (drains : pc = .draining → s.live = 0)
    (room : pc ≠ .waiting → pc ≠ .draining →
      s.runningTask < s.workerState.keys.card ∨ s.runningTask = 0)
    (inList : pc.issued → i < s.taskList.length) : { s with pc, i }.Inv config where
  accounted := by
    intro _ task inRange
    have accounts := inv.accounted running task inRange
    simpa only [Accounts, same] using accounts
  own := inv.own
  waits := fun _ => inv.waits running
  collects := fun collecting => absurd collecting onward
  settled := inv.settled
  drains := drains
  busy := inv.busy
  room := room
  inList := inList

theorem Inv.leave (inv : s.Inv config) (place : s.pc = .issuing) :
    Inv config { s with pc := .returned } := by
  refine inv.goOn (by simp [place]) .returned s.i (by simp) ?_ nofun ?_ nofun
  · simp [next, Pc.issued, place]
  · exact fun _ _ => inv.room (by simp [place]) (by simp [place])

theorem Inv.waited (inv : s.Inv config) (place : s.pc = .waiting) (zero : s.wg = 0) :
    Inv config { s with pc := .draining } := by
  have waits := inv.waits (by simp [place])
  refine inv.goOn (by simp [place]) .draining s.i (by simp) ?_ ?_ ?_ ?_
  · simp [next, Pc.issued, place]
  · intro _
    omega
  · exact fun _ notDraining => absurd rfl notDraining
  · exact fun _ => inv.inList (by rw [place]; rfl)

/-- A failed call that is received goes back to the list. -/
theorem Inv.receive (inv : s.Inv config) (moved : s.receive = some s') : s'.Inv config := by
  obtain ⟨place, failed, rest, channel, rfl⟩ := receive_cases moved
  have running : s.pc ≠ .collecting := by simp [place]
  have issued : s.pc.issued = true := by rw [place]; rfl
  have longer : (s.taskList ++ [failed.2]).drop s.next = s.taskList.drop s.next ++ [failed.2] := by
    rw [next, if_pos issued]
    exact List.drop_append_of_le_length (inv.inList issued)
  constructor
  case accounted =>
    intro _ task inRange
    rcases inv.accounted running task inRange with called | pending | ⟨addr, inChannel⟩
    · exact Or.inl called
    · refine Or.inr (Or.inl ?_)
      change task ∈ (s.taskList ++ [failed.2]).drop s.next
      rw [longer]
      exact List.mem_append_left _ pending
    · rw [channel] at inChannel
      rcases List.mem_cons.mp inChannel with first | later
      · refine Or.inr (Or.inl ?_)
        change task ∈ (s.taskList ++ [failed.2]).drop s.next
        rw [longer, ← first]
        simp
      · exact Or.inr (Or.inr ⟨addr, later⟩)
  case own => exact inv.own
  case waits =>
    intro _
    have waits := inv.waits running
    have fewer : (GoMap.withValue (s.workerState.erase failed.1) false).card ≤
        (s.workerState.withValue false).card := by
      rw [GoMap.withValue_erase]
      exact Finset.card_erase_le
    change s.live + (GoMap.withValue (s.workerState.erase failed.1) false).card ≤ s.wg
    omega
  case collects => exact fun collecting => absurd collecting running
  case settled =>
    intro idle
    have empty := (inv.settled idle).2
    rw [channel] at empty
    cases empty
  case drains => exact inv.drains
  case busy =>
    rw [GoMap.withValue_erase]
    exact Finset.card_erase_le.trans inv.busy
  case room => exact fun _ notDraining => absurd place notDraining
  case inList =>
    intro _
    have before := inv.inList issued
    simp only [List.length_append, List.length_singleton]
    omega

/-- When the failed calls of a batch have all been received, the batch is over. -/
theorem Inv.drained (inv : s.Inv config) {order : List String} (received : s.failedChan = [])
    (moved : s.drained order = some s') : s'.Inv config := by
  obtain ⟨place, visits, rfl⟩ := drained_cases moved
  have running : s.pc ≠ .collecting := by simp [place]
  have issued : s.pc.issued = true := by rw [place]; rfl
  have ended := inv.drains place
  constructor
  case accounted =>
    intro _ task inRange
    have accounts := inv.accounted running task inRange
    simpa [Accounts, next, Pc.issued, place] using accounts
  case own => exact inv.own
  case waits =>
    intro _
    calc s.live + _ = s.workerState.keys.card := by rw [ended, idle_storeAll visits, Nat.zero_add]
      _ ≤ s.wg + s.workerState.keys.card := Nat.le_add_left _ _
  case collects => nofun
  case settled => exact fun _ => ⟨ended, received⟩
  case drains => nofun
  case busy =>
    rw [busy_storeAll visits, Finset.card_empty]
  case room => exact fun _ _ => Or.inr rfl
  case inList => exact fun _ => inv.inList issued

theorem Inv.listened (inv : s.Inv config) (place : s.pc = .listening) :
    Inv config { s with pc := .issuing, i := s.i + 1 } := by
  refine inv.goOn (by simp [place]) .issuing (s.i + 1) (by simp) ?_ nofun ?_ nofun
  · simp [next, Pc.issued, place]
  · exact fun _ _ => inv.room (by simp [place]) (by simp [place])

/-! ## The goroutines of the calls -/

/-- A goroutine that is not done moves: its task stays accounted for, and the wait group still
counts it, or it is done. -/
theorem Inv.move (inv : s.Inv config) {k : Nat} {call : Call} (state : CallState)
    (failedChan : List (String × Nat)) (wg : Nat) (found : s.calls[k]? = some call)
    (alive : call.live = true) (own : Call.ReportsOwn { call with state })
    (kept : ∀ task, call.Has task →
      Call.Has { call with state } task ∨ ∃ addr, (addr, task) ∈ failedChan)
    (more : ∀ failed ∈ s.failedChan, failed ∈ failedChan)
    (counts : s.wg + Call.weight { call with state } ≤ wg + 1) :
    Inv config { s.setCall k call state with failedChan, wg } := by
  obtain ⟨inRange, at_k⟩ := List.getElem?_eq_some_iff.mp found
  have mem : call ∈ s.calls := List.mem_of_getElem? found
  have out : 0 < s.live := List.countP_pos_iff.mpr ⟨call, mem, alive⟩
  have running : s.pc ≠ .collecting := by
    intro collecting
    rw [(inv.collects collecting).1] at mem
    exact absurd mem List.not_mem_nil
  have lives := live_setCall state found alive
  constructor
  case accounted =>
    intro _ task inTasks
    rcases inv.accounted running task inTasks with ⟨other, mem, has⟩ | pending | ⟨addr, failed⟩
    · obtain ⟨j, found'⟩ := List.mem_iff_getElem?.mp mem
      by_cases same : j = k
      · subst same
        rw [found, Option.some.injEq] at found'
        subst found'
        rcases kept task has with still | reported
        · exact Or.inl ⟨_, List.mem_set inRange _, still⟩
        · exact Or.inr (Or.inr reported)
      · refine Or.inl ⟨other, List.mem_of_getElem? (i := j) ?_, has⟩
        change (s.calls.set k { call with state })[j]? = some other
        rw [List.getElem?_set_ne (Ne.symm same), found']
    · exact Or.inr (Or.inl pending)
    · exact Or.inr (Or.inr ⟨addr, more _ failed⟩)
  case own =>
    intro other mem
    rcases List.mem_or_eq_of_mem_set mem with old | new
    · exact inv.own other old
    · rw [new]
      exact own
  case waits =>
    intro _
    have waits := inv.waits running
    change (s.setCall k call state).live + (s.workerState.withValue false).card ≤ wg
    omega
  case collects => exact fun collecting => absurd collecting running
  case settled =>
    intro idle
    have ended := (inv.settled idle).1
    omega
  case drains =>
    intro draining
    have ended := inv.drains draining
    omega
  case busy => exact inv.busy
  case room => exact inv.room
  case inList => exact inv.inList

theorem Inv.callStep (inv : s.Inv config) {k : Nat} {call : Call} {move : CallMove}
    (found : s.calls[k]? = some call)
    (enters : move = .enter → s.taskList[s.i]? = some call.args.taskNumber)
    (moved : s.callStep config k call move = some s') : s'.Inv config := by
  have own := inv.own call (List.mem_of_getElem? found)
  cases move with
  | enter =>
      simp only [Schedule.callStep, enters rfl, Option.map_some] at moved
      split_ifs at moved with created
      cases moved
      apply inv.move _ s.failedChan s.wg found
      · simp [Call.live, created]
      · intro task addr state
        simp only [CallState.calling.injEq, reduceCtorEq, or_false] at state
        exact state.1.symm
      · exact fun task has => Or.inl ⟨has.1, by simp, by simp⟩
      · exact fun _ mem => mem
      · exact Nat.add_le_add_left (by simp [Call.weight, Call.live]) _
  | reply flag =>
      cases state : call.state <;> simp only [Schedule.callStep, state, reduceCtorEq] at moved
      case calling task addr =>
        cases moved
        have same := own task addr (Or.inl state)
        apply inv.move _ s.failedChan s.wg found
        · simp [Call.live, state]
        · intro task' addr' state'
          cases flag
          · simp only [Bool.false_eq_true, if_false, reduceCtorEq, CallState.failed.injEq,
              false_or] at state'
            rw [← state'.1, same]
          · simp at state'
        · exact fun task has => Or.inl ⟨has.1, by cases flag <;> simp, by cases flag <;> simp⟩
        · exact fun _ mem => mem
        · exact Nat.add_le_add_left (by cases flag <;> simp [Call.weight, Call.live]) _
  | report =>
      cases state : call.state <;> simp only [Schedule.callStep, state, reduceCtorEq] at moved
      case failed task addr =>
        split_ifs at moved
        cases moved
        have same := own task addr (Or.inr state)
        apply inv.move _ _ s.wg found
        · simp [Call.live, state]
        · intro _ _ state'
          simp at state'
        · intro task' has
          right
          refine ⟨addr, List.mem_append_right _ ?_⟩
          rw [List.mem_singleton, same, has.1]
        · exact fun _ mem => List.mem_append_left _ mem
        · exact Nat.add_le_add_left (by simp [Call.weight, Call.live]) _
  | done =>
      cases state : call.state <;> simp only [Schedule.callStep, state, reduceCtorEq] at moved
      case ending flag =>
        split_ifs at moved with positive
        cases moved
        apply inv.move _ s.failedChan _ found
        · simp [Call.live, state]
        · intro _ _ state'
          simp at state'
        · intro task has
          left
          refine ⟨has.1, by simp, ?_⟩
          cases flag
          · exact absurd state has.2.1
          · simp
        · exact fun _ mem => mem
        · simp only [Call.weight, Call.live, Bool.false_eq_true, if_false]
          omega

/-! ## Whole runs -/

theorem Inv.step (inv : s.Inv config) {action : Action} (keeps : s.Keeps action)
    (moved : s.step config action = some s') : s'.Inv config := by
  unfold Keeps keepsTasks at keeps
  cases action with
  | register addr => exact inv.register moved
  | collected =>
      simp only [Schedule.step] at moved
      split_ifs at moved with place
      cases moved
      exact inv.collected place
  | issue order => exact inv.issue (by simpa using keeps) moved
  | leave =>
      simp only [Schedule.step] at moved
      split_ifs at moved with place
      cases moved
      exact inv.leave place.1
  | waited =>
      simp only [Schedule.step] at moved
      split_ifs at moved with place
      cases moved
      exact inv.waited place.1 place.2
  | receive => exact inv.receive moved
  | drained order => exact inv.drained (by simpa using keeps) moved
  | listened =>
      simp only [Schedule.step] at moved
      split_ifs at moved with place
      cases moved
      exact inv.listened place
  | call k move =>
      obtain ⟨call, found, moved⟩ := Option.bind_eq_some_iff.mp moved
      apply inv.callStep found _ moved
      intro enter
      subst enter
      simpa [found] using keeps

/-- In every run that meets the condition, some call for each task has returned true when the
scheduler returns. -/
theorem tasks_done_on_return {config : Phase} {s s' : Schedule}
    (run : Reaches (step config) Keeps start s) (keeps : s.Keeps .leave)
    (returns : s.step config .leave = some s') {task : Nat} (inTasks : task < config.ntasks) :
    ∃ call ∈ s.calls, call.args.taskNumber = task ∧ call.succeeded = true := by
  have inv : s.Inv config := run.invariant (Inv config) (.start config)
    fun inv keeps moved => inv.step keeps moved
  simp only [Schedule.step] at returns
  split_ifs at returns with ends
  have idle : s.runningTask = 0 := by simpa [Keeps, keepsTasks] using keeps
  obtain ⟨ended, received⟩ := inv.settled idle
  rcases inv.accounted (by simp [ends.1]) task inTasks with ⟨call, mem, has⟩ | pending | failed
  · refine ⟨call, mem, has.1, ?_⟩
    have dead := List.countP_eq_zero.mp ended call mem
    obtain ⟨_, notFailing, notFailed⟩ := has
    cases state : call.state with
    | done flag =>
        cases flag
        · exact absurd state notFailed
        · simp [Call.succeeded, state]
    | _ => simp [Call.live, state] at dead
  · have none : s.taskList.drop s.next = [] := by
      apply List.drop_eq_nil_of_le
      simpa [next, Pc.issued, ends.1] using ends.2
    simp [none] at pending
  · simp [received] at failed

/-- A phase with one task. -/
def oneTask : Phase where
  jobName := "test"
  mapFiles := ["in"]
  nReduce := 1
  phase := .mapPhase

/-- One worker does the task; its batch is full. -/
def fullBatch : List Action :=
  [.register "a", .collected, .issue ["a"], .call 0 .enter, .call 0 (.reply true), .call 0 .done,
    .waited, .drained ["a"], .listened]

theorem tasks_done_on_return_fullBatch :
    ∃ s s', Reaches (step oneTask) Keeps start s ∧ s.Keeps .leave ∧
      s.step oneTask .leave = some s' ∧
      ∃ call ∈ s.calls, call.args.taskNumber = 0 ∧ call.succeeded = true := by
  obtain ⟨s, s', run, keeps, returns, _⟩ : ∃ s s', Reaches (step oneTask) Keeps start s ∧
      s.Keeps .leave ∧ s.step oneTask .leave = some s' ∧ True :=
    exists_step fullBatch .leave (by decide +kernel)
  exact ⟨s, s', run, keeps, returns, tasks_done_on_return run keeps returns (by decide)⟩

/-- With two workers the batch of the one task is not full. -/
def partialBatch : List Action :=
  [.register "a", .register "b", .collected, .issue ["a", "b"], .call 0 .enter, .listened]

/-- The scheduler returns while the only call is still out. -/
theorem returns_before_reply :
    ∃ s s', Reaches (step oneTask) anyStep start s ∧ s.step oneTask .leave = some s' ∧
      s.workerSet ≠ [] ∧ ∃ task < oneTask.ntasks,
        ∀ call ∈ s.calls, call.args.taskNumber = task → call.succeeded = false := by
  obtain ⟨s, s', run, _, returns, property⟩ :
      ∃ s s', Reaches (step oneTask) anyStep start s ∧ anyStep s Action.leave ∧
        s.step oneTask .leave = some s' ∧ s.workerSet ≠ [] ∧ ∃ task < oneTask.ntasks,
          ∀ call ∈ s.calls, call.args.taskNumber = task → call.succeeded = false :=
    exists_step partialBatch .leave (by decide +kernel)
  exact ⟨s, s', run, returns, property⟩

end Schedule

end Mit6824.MapReduce
