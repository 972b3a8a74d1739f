import Mathlib.Algebra.BigOperators.Group.Finset.Basic
import Mathlib.Algebra.Order.BigOperators.Group.Finset
import Mit6824.Runs
import Mit6824.Linearizability.Operations
import Mit6824.Linearizability.Search

/-!
# Checking part by part

`CheckOperations` checks every part of a history in a goroutine of its own and collects the
results, in the order in which they come, until one of them is false or all of them are there. For
`kvModel` the parts are the operations on one key, and what comes out is whether the history as
a whole is linearizable for a store of all keys (`checkOperations_exact`).

The model is a state machine. The goroutines take turns in any order, and a goroutine that has
its result waits until it is received.
-/

namespace Mit6824.Linearizability

open Linearization

variable {ι ο σ : Type} {model : Model ι ο σ}

/-- How far the goroutine of a part has come. -/
inductive Worker (σ : Type) where
  | starting
  | searching (current : Search σ)
  /-- It waits for its result to be received. -/
  | sending (result : Bool)
  | sent
  | panicked

def Worker.isSent : Worker σ → Bool
  | .sent => true
  | _ => false

/-- The next move of a goroutine, up to the sending of its result. -/
def Worker.work (model : Model ι ο σ) (part : List (Operation ι ο)) (kill : Bool) :
    Worker σ → Option (Worker σ)
  | .starting => (startSearch model (makeLinkedEntries (makeEntries part))).map .searching
  | .searching current =>
      let subhistory := makeLinkedEntries (makeEntries part)
      match turn model (withHead subhistory.nodes) subhistory.nodes.length kill current with
      | none => some .panicked
      | some (.returns ok) => some (.sending ok)
      | some (.continues next) => some (.searching next)
  | _ => none

/-- The goroutines and the variables of the loop that collects their results. -/
structure Checking (σ : Type) where
  workers : List (Worker σ)
  ok : Bool
  kill : Bool
  count : Nat
  outcome : Outcome

inductive Action where
  /-- The goroutine of this part makes a move. -/
  | work (i : Nat)
  /-- The result of this part is received. -/
  | receive (i : Nat)
  | timeout

/-- A goroutine has made its move; a panic ends the program. -/
def Checking.move (checking : Checking σ) (i : Nat) (moved : Worker σ) : Checking σ :=
  { checking with
    workers := checking.workers.set i moved
    outcome := match moved with
      | .panicked => .panicked
      | _ => .running }

/-- The turn of the loop in which a result is received. -/
def Checking.receive (checking : Checking σ) (partitions i : Nat) (result : Bool) : Checking σ :=
  let workers := checking.workers.set i .sent
  let ok := checking.ok && result
  if !ok then
    { checking with workers := workers, ok := ok, kill := true, outcome := .returned ok }
  else
    let count := checking.count + 1
    { checking with
      workers := workers
      ok := ok
      count := count
      outcome := if count ≥ partitions then .returned ok else .running }

/-- One step while the check is running; there is no timeout if `timed` is false. -/
def checkOperationsTimeout (model : Model ι ο σ) (partitions : List (List (Operation ι ο)))
    (timed : Bool) (checking : Checking σ) (action : Action) : Option (Checking σ) :=
  if checking.outcome ≠ .running then none
  else match action with
    | .work i => do
        let part ← partitions[i]?
        let worker ← checking.workers[i]?
        let moved ← worker.work model part checking.kill
        return checking.move i moved
    | .receive i =>
        match checking.workers[i]? with
        | some (.sending result) => some (checking.receive partitions.length i result)
        | _ => none
    | .timeout => if timed then some { checking with outcome := .returned checking.ok } else none

/-- Nothing has been checked yet. -/
def startChecking (partitions : List (List (Operation ι ο))) : Checking σ where
  workers := partitions.map fun _ => .starting
  ok := true
  kill := false
  count := 0
  outcome := .running

def checkOperations (model : Model ι ο σ) (partitions : List (List (Operation ι ο))) :
    Checking σ → Action → Option (Checking σ) :=
  checkOperationsTimeout model partitions false

section Steps

variable {partitions : List (List (Operation ι ο))} {checking next : Checking σ} {i : Nat}

theorem checkOperations_work (running : checking.outcome = .running) :
    checkOperations model partitions checking (.work i) = some next ↔
      ∃ part worker moved, partitions[i]? = some part ∧ checking.workers[i]? = some worker ∧
        worker.work model part checking.kill = some moved ∧ checking.move i moved = next := by
  simp [checkOperations, checkOperationsTimeout, running, Option.bind_eq_some_iff]

theorem checkOperations_receive (running : checking.outcome = .running) :
    checkOperations model partitions checking (.receive i) = some next ↔
      ∃ result, checking.workers[i]? = some (.sending result) ∧
        checking.receive partitions.length i result = next := by
  simp only [checkOperations, checkOperationsTimeout, running]
  cases checking.workers[i]? with
  | none => simp
  | some worker => cases worker <;> simp

end Steps

/-! ## One goroutine -/

/-- The goroutine sends `ok` after at most so many moves, its last one being received. -/
inductive Owes (model : Model ι ο σ) (part : List (Operation ι ο)) (ok : Bool) :
    Worker σ → Nat → Prop where
  | starting {start : Search σ} {fuel : Nat}
      (started : startSearch model (makeLinkedEntries (makeEntries part)) = some start)
      (answers : search model (withHead (makeLinkedEntries (makeEntries part)).nodes)
        (makeLinkedEntries (makeEntries part)).nodes.length false fuel start = .returned ok) :
      Owes model part ok .starting (fuel + 2)
  | searching {current : Search σ} {fuel : Nat}
      (answers : search model (withHead (makeLinkedEntries (makeEntries part)).nodes)
        (makeLinkedEntries (makeEntries part)).nodes.length false fuel current = .returned ok) :
      Owes model part ok (.searching current) (fuel + 1)
  | sending : Owes model part ok (.sending ok) 1
  | sent (accepted : ok = true) : Owes model part ok .sent 0

section Worker

variable {part : List (Operation ι ο)} {ok : Bool} {worker moved : Worker σ} {k : Nat}

theorem Owes.work (owes : Owes model part ok worker k)
    (moves : worker.work model part false = some moved) :
    ∃ k' < k, Owes model part ok moved k' ∧ worker.isSent = false ∧ moved.isSent = false := by
  cases owes with
  | starting started answers =>
      rw [Worker.work, started, Option.map_some] at moves
      obtain rfl := Option.some.inj moves
      exact ⟨_, Nat.lt_succ_self _, .searching answers, rfl, rfl⟩
  | @searching current fuel answers =>
      cases fuel with
      | zero => simp [search] at answers
      | succ fuel =>
          rw [search] at answers
          rw [Worker.work] at moves
          cases turned : turn model (withHead (makeLinkedEntries (makeEntries part)).nodes)
              (makeLinkedEntries (makeEntries part)).nodes.length false current with
          | none => simp [turned] at answers
          | some result =>
              cases result with
              | returns result =>
                  obtain rfl : result = ok := by simpa [turned] using answers
                  obtain rfl : Worker.sending result = moved := by simpa [turned] using moves
                  exact ⟨1, by omega, .sending, rfl, rfl⟩
              | continues next =>
                  obtain rfl : Worker.searching next = moved := by simpa [turned] using moves
                  exact ⟨fuel + 1, by omega, .searching (by simpa [turned] using answers), rfl, rfl⟩
  | sending => simp [Worker.work] at moves
  | sent => simp [Worker.work] at moves

theorem Owes.of_sending {result : Bool} (owes : Owes model part ok (.sending result) k) :
    result = ok ∧ 0 < k := by
  cases owes with
  | sending => exact ⟨rfl, Nat.one_pos⟩

/-- Unless its result is there, a goroutine can go on. -/
theorem Owes.exists_work (owes : Owes model part ok worker k) (unsent : worker.isSent = false) :
    worker = .sending ok ∨ ∃ moved, worker.work model part false = some moved := by
  cases owes with
  | starting started answers => exact .inr ⟨_, by rw [Worker.work, started]; rfl⟩
  | searching answers =>
      right
      rw [Worker.work]
      split <;> exact ⟨_, rfl⟩
  | sending => exact .inl rfl
  | sent => simp [Worker.isSent] at unsent

end Worker

/-! ## All of them -/

section Checking

variable {partitions : List (List (Operation ι ο))} {answer : Nat → Bool}
  {budget : Nat → Nat} {checking next : Checking σ} {action : Action}

/-- What each goroutine owes. -/
def OwesAll (model : Model ι ο σ) (partitions : List (List (Operation ι ο)))
    (answer : Nat → Bool) (budget : Nat → Nat) (workers : List (Worker σ)) : Prop :=
  ∀ i part worker, partitions[i]? = some part → workers[i]? = some worker →
    Owes model part (answer i) worker (budget i)

/-- The loop is waiting for results; `answer` is what the goroutines will say, after at most
`budget` moves. -/
structure Underway (model : Model ι ο σ) (partitions : List (List (Operation ι ο)))
    (answer : Nat → Bool) (budget : Nat → Nat) (checking : Checking σ) : Prop where
  running : checking.outcome = .running
  alive : checking.kill = false
  accepted : checking.ok = true
  size : checking.workers.length = partitions.length
  owes : OwesAll model partitions answer budget checking.workers
  counted : checking.count = checking.workers.countP Worker.isSent
  unfinished : checking.count < partitions.length

/-- The loop waits for results, with so many moves to go, or has the answer. -/
def Collecting (model : Model ι ο σ) (partitions : List (List (Operation ι ο)))
    (answer : Nat → Bool) (checking : Checking σ) (k : Nat) : Prop :=
  (∃ budget, Underway model partitions answer budget checking ∧
    ∑ i ∈ Finset.range partitions.length, budget i = k) ∨
  ∃ ok, checking.outcome = .returned ok ∧ k = 0 ∧
    (ok = true ↔ ∀ i < partitions.length, answer i = true)

theorem sum_update_lt {n i k : Nat} (bound : i < n) (less : k < budget i) :
    ∑ j ∈ Finset.range n, Function.update budget i k j < ∑ j ∈ Finset.range n, budget j := by
  refine Finset.sum_lt_sum (fun j _ => ?_) ⟨i, Finset.mem_range.2 bound, by simpa using less⟩
  by_cases same : j = i
  · subst same
    simpa using less.le
  · rw [Function.update_of_ne same]

theorem lt_sum {n i k : Nat} (bound : i < n) (less : k < budget i) :
    k < ∑ j ∈ Finset.range n, budget j :=
  less.trans_le (Finset.single_le_sum (fun _ _ => Nat.zero_le _) (Finset.mem_range.2 bound))

/-- A goroutine has moved. -/
theorem Underway.owes_set {i k : Nat} {part : List (Operation ι ο)} {moved : Worker σ}
    (underway : Underway model partitions answer budget checking)
    (found : partitions[i]? = some part) (owes : Owes model part (answer i) moved k) :
    OwesAll model partitions answer (Function.update budget i k)
      (checking.workers.set i moved) := by
  intro j part' worker found' position
  by_cases same : j = i
  · subst same
    obtain rfl := Option.some.inj (found.symm.trans found')
    have bound : j < checking.workers.length :=
      underway.size ▸ (List.getElem?_eq_some_iff.1 found).1
    rw [List.getElem?_set_self bound] at position
    obtain rfl := Option.some.inj position
    rwa [Function.update_self]
  · rw [List.getElem?_set_ne (Ne.symm same)] at position
    rw [Function.update_of_ne same]
    exact underway.owes j part' worker found' position

theorem countP_isSent_set {workers : List (Worker σ)} {i : Nat} {worker : Worker σ}
    (position : workers[i]? = some worker) (unsent : worker.isSent = false) (moved : Worker σ) :
    (workers.set i moved).countP Worker.isSent =
      workers.countP Worker.isSent + if moved.isSent then 1 else 0 := by
  obtain ⟨bound, rfl⟩ := List.getElem?_eq_some_iff.1 position
  simp [List.countP_set bound, unsent]

theorem Underway.work {i : Nat} (underway : Underway model partitions answer budget checking)
    (steps : checkOperations model partitions checking (.work i) = some next) :
    ∃ k < ∑ i ∈ Finset.range partitions.length, budget i,
      Collecting model partitions answer next k := by
  obtain ⟨part, worker, moved, found, position, moves, rfl⟩ :=
    (checkOperations_work underway.running).1 steps
  rw [underway.alive] at moves
  obtain ⟨k, less, owes, unsent, unsent'⟩ := (underway.owes i _ _ found position).work moves
  have bound := (List.getElem?_eq_some_iff.1 found).1
  refine ⟨_, sum_update_lt bound less, .inl ⟨Function.update budget i k, ?_, rfl⟩⟩
  exact {
    running := by cases owes <;> rfl
    alive := underway.alive
    accepted := underway.accepted
    size := List.length_set.trans underway.size
    owes := underway.owes_set found owes
    counted := by
      have counted := countP_isSent_set position unsent moved
      rw [unsent', ← underway.counted] at counted
      exact counted.symm
    unfinished := underway.unfinished }

/-- All results are there, and all of them are true. -/
theorem answers_of_all_sent {workers : List (Worker σ)}
    (size : workers.length = partitions.length)
    (owes : OwesAll model partitions answer budget workers)
    (all : workers.countP Worker.isSent = workers.length) :
    ∀ i < partitions.length, answer i = true := by
  intro i bound
  have position := List.getElem?_eq_getElem (size ▸ bound : i < workers.length)
  have sent := List.countP_eq_length.1 all _ (List.mem_of_getElem? position)
  have owed := owes i _ _ (List.getElem?_eq_getElem bound) position
  generalize workers[i] = worker at owed sent
  generalize budget i = k at owed
  cases owed with
  | sent accepted => exact accepted
  | _ => simp [Worker.isSent] at sent

theorem Underway.receive {i : Nat} (underway : Underway model partitions answer budget checking)
    (steps : checkOperations model partitions checking (.receive i) = some next) :
    ∃ k < ∑ i ∈ Finset.range partitions.length, budget i,
      Collecting model partitions answer next k := by
  obtain ⟨result, position, rfl⟩ := (checkOperations_receive underway.running).1 steps
  have bound : i < partitions.length :=
    underway.size ▸ (List.getElem?_eq_some_iff.1 position).1
  have found := List.getElem?_eq_getElem bound
  obtain ⟨own, less⟩ := (underway.owes i _ _ found position).of_sending
  cases result with
  | false =>
      refine ⟨0, lt_sum bound less, .inr ⟨false, ?_, rfl, ?_⟩⟩
      · simp [Checking.receive]
      · simp only [Bool.false_eq_true, false_iff, not_forall]
        exact ⟨i, bound, by simp [← own]⟩
  | true =>
      have received : checking.receive partitions.length i true = { checking with
          workers := checking.workers.set i .sent
          ok := true
          count := checking.count + 1
          outcome := if checking.count + 1 ≥ partitions.length then .returned true
            else .running } := by
        simp [Checking.receive, underway.accepted]
      have size : (checking.workers.set i .sent).length = partitions.length :=
        List.length_set.trans underway.size
      have counted : (checking.workers.set i .sent).countP Worker.isSent = checking.count + 1 := by
        rw [countP_isSent_set position rfl _, ← underway.counted]
        rfl
      have owes := underway.owes_set found (.sent own.symm)
      rw [received]
      by_cases last : checking.count + 1 ≥ partitions.length
      · have answers := answers_of_all_sent size owes (by have := underway.unfinished; omega)
        exact ⟨0, lt_sum bound less, .inr ⟨true, if_pos last, rfl, by simpa using answers⟩⟩
      · refine ⟨_, sum_update_lt bound less, .inl ⟨Function.update budget i 0, ?_, rfl⟩⟩
        exact {
          running := if_neg last
          alive := underway.alive
          accepted := rfl
          size := size
          owes := owes
          counted := counted.symm
          unfinished := not_le.1 last }

theorem Collecting.step {k : Nat} (collecting : Collecting model partitions answer checking k)
    (steps : checkOperations model partitions checking action = some next) :
    ∃ k' < k, Collecting model partitions answer next k' := by
  rcases collecting with ⟨budget, underway, rfl⟩ | ⟨ok, returned, _⟩
  · cases action with
    | work i => exact underway.work steps
    | receive i => exact underway.receive steps
    | timeout => simp [checkOperations, checkOperationsTimeout] at steps
  · simp [checkOperations, checkOperationsTimeout, returned] at steps

/-- The loop does not wait for nothing. -/
theorem Underway.exists_step (underway : Underway model partitions answer budget checking) :
    ∃ action next, checkOperations model partitions checking action = some next := by
  have some_left : ∃ worker ∈ checking.workers, ¬worker.isSent = true := by
    by_contra none_left
    push Not at none_left
    have all := List.countP_eq_length.2 none_left
    have unfinished := underway.unfinished
    have counted := underway.counted
    have size := underway.size
    omega
  obtain ⟨worker, member, unsent⟩ := some_left
  obtain ⟨i, position⟩ := List.mem_iff_getElem?.1 member
  have bound : i < partitions.length :=
    underway.size ▸ (List.getElem?_eq_some_iff.1 position).1
  have found := List.getElem?_eq_getElem bound
  rcases (underway.owes i _ _ found position).exists_work (by simpa using unsent) with
    rfl | ⟨moved, moves⟩
  · exact ⟨.receive i, _, (checkOperations_receive underway.running).2 ⟨_, position, rfl⟩⟩
  · rw [← underway.alive] at moves
    exact ⟨.work i, _,
      (checkOperations_work underway.running).2 ⟨_, _, moved, found, position, moves, rfl⟩⟩

/-- Every run ends, it never waits for nothing, and its answer is whether all parts are
linearizable. -/
theorem exists_bound (congruent : model.Congruent) (timed : ∀ part ∈ partitions, Timed part)
    (nonempty : partitions ≠ []) :
    ∃ bound, ∀ actions checking,
      execute (checkOperations model partitions) anyStep (startChecking partitions) actions =
        some checking →
      actions.length ≤ bound ∧
        match checking.outcome with
        | .running => ∃ action next, checkOperations model partitions checking action = some next
        | .returned ok => ok = true ↔
            ∀ part ∈ partitions, Completable Before model.perform part model.init
        | .panicked => False := by
  have answered : ∀ i : Nat, ∃ ok k, ∀ part, partitions[i]? = some part →
      Owes model part ok .starting k ∧
        (ok = true ↔ Completable Before model.perform part model.init) := by
    intro i
    cases found : partitions[i]? with
    | none => exact ⟨true, 0, by simp⟩
    | some part =>
        have timed := timed part (List.mem_of_getElem? found)
        obtain ⟨start, ok, turns, started, answers, decides⟩ :=
          timed.wellFormed.exists_answer congruent
        refine ⟨ok, turns + 2, fun part' same => ?_⟩
        obtain rfl := Option.some.inj same
        exact ⟨.starting started (answers 0), decides.trans (timed.linearizable_iff model)⟩
  choose answer budget answered using answered
  have start : Underway model partitions answer budget (startChecking partitions) := {
    running := rfl
    alive := rfl
    accepted := rfl
    size := by simp [startChecking]
    owes := by
      intro i part worker found position
      obtain rfl : Worker.starting = worker := by
        simpa only [startChecking, List.getElem?_map, found, Option.map_some, Option.some.injEq]
          using position
      exact (answered i part found).1
    counted := by
      refine (List.countP_eq_zero.2 fun worker member => ?_).symm
      obtain ⟨_, _, rfl⟩ := List.mem_map.1 member
      simp [Worker.isSent]
    unfinished := List.length_pos_of_ne_nil nonempty }
  refine ⟨∑ i ∈ Finset.range partitions.length, budget i, fun actions checking executed => ?_⟩
  obtain ⟨k, collecting, short⟩ := execute_length_le (Collecting model partitions answer)
    (fun collecting _ next => collecting.step next) (.inl ⟨budget, start, rfl⟩) executed
  refine ⟨by omega, ?_⟩
  rcases collecting with ⟨budget, underway, _⟩ | ⟨ok, returned, _, decides⟩
  · rw [underway.running]
    exact underway.exists_step
  · rw [returned]
    refine decides.trans ⟨fun all part member => ?_, fun all i bound => ?_⟩
    · obtain ⟨i, found⟩ := List.mem_iff_getElem?.1 member
      exact (answered i part found).2.1 (all i (List.getElem?_eq_some_iff.1 found).1)
    · have found := List.getElem?_eq_getElem bound
      exact (answered i _ found).2.2 (all _ (List.mem_of_getElem? found))

end Checking

/-! ## One store for all keys -/

/-- The operation on a store of all keys, where a key that was never written reads as empty. -/
def storeStep (store : String → String) (operation : Operation KvInput KvOutput) :
    Option (String → String) :=
  let input := operation.input
  if input.op = 0 then
    if operation.output.value = store input.key then some store else none
  else if input.op = 1 then some (Function.update store input.key input.value)
  else some (Function.update store input.key (store input.key ++ input.value))

/-- The whole history is linearizable for one store of all keys. -/
def StoreLinearizable (history : List (Operation KvInput KvOutput)) : Prop :=
  Completable Before storeStep history fun _ => ""

section Store

variable {history : List (Operation KvInput KvOutput)}
  {partitions : List (List (Operation KvInput KvOutput))}

/-- The store is one value for each key. -/
theorem storeStep_eq_keyed :
    storeStep = keyed (fun operation => operation.input.key) kvModel.perform := by
  funext store operation
  simp only [storeStep, keyed, Model.perform, kvModel]
  split_ifs <;> simp_all

/-- Nothing is lost and nothing is added by looking at one key at a time. -/
theorem storeLinearizable_iff (proper : ∀ operation ∈ history, operation.call < operation.returned)
    (order : partitions.Perm (kvModel.partition history)) :
    StoreLinearizable history ↔
      ∀ part ∈ partitions, Completable Before kvModel.perform part kvModel.init := by
  rw [StoreLinearizable, storeStep_eq_keyed]
  refine (completable_keys fun operation member => (proper operation member).le).trans ?_
  constructor
  · intro each part member
    obtain ⟨key, _, rfl⟩ := List.mem_map.1 (order.mem_iff.1 member)
    exact each key
  · intro each key
    by_cases written : key ∈ history.map fun operation => operation.input.key
    · exact each _ (order.mem_iff.2 (List.mem_map.2 ⟨key, List.mem_dedup.2 written, rfl⟩))
    · have nothing : history.filter (fun operation => operation.input.key = key) = [] := by
        rw [List.filter_eq_nil_iff]
        intro operation member same
        exact written (List.mem_map.2 ⟨operation, member, of_decide_eq_true same⟩)
      rw [nothing]
      exact completable_nil _ _ _

theorem Timed.sublist {ι ο : Type} {history part : List (Operation ι ο)} (timed : Timed history)
    (sublist : part.Sublist history) : Timed part where
  proper operation member := timed.proper operation (sublist.mem member)
  distinct := timed.distinct.sublist (sublist.flatMap _)

/-- The check of a non-empty history of operations on any keys ends on every schedule, in
whatever order the parts are taken and the results come in, and says whether the history is
linearizable for one store of all keys. -/
theorem checkOperations_exact (history : List (Operation KvInput KvOutput))
    (nonempty : history ≠ []) (timed : Timed history)
    (partitions : List (List (Operation KvInput KvOutput)))
    (order : partitions.Perm (kvModel.partition history)) :
    ∃ bound, ∀ actions checking,
      execute (checkOperations kvModel partitions) anyStep (startChecking partitions) actions =
        some checking →
      actions.length ≤ bound ∧
        match checking.outcome with
        | .running => ∃ action next, checkOperations kvModel partitions checking action = some next
        | .returned ok => ok = true ↔ StoreLinearizable history
        | .panicked => False := by
  have timedParts : ∀ part ∈ partitions, Timed part := by
    intro part member
    obtain ⟨key, _, rfl⟩ := List.mem_map.1 (order.mem_iff.1 member)
    exact timed.sublist List.filter_sublist
  have someParts : partitions ≠ [] := by
    obtain ⟨operation, member⟩ := List.exists_mem_of_ne_nil history nonempty
    have key : operation.input.key ∈ (history.map fun operation => operation.input.key).dedup :=
      List.mem_dedup.2 (List.mem_map_of_mem member)
    exact List.ne_nil_of_mem (order.mem_iff.2 (List.mem_map_of_mem key))
  obtain ⟨bound, runs⟩ := exists_bound kvModel_congruent timedParts someParts
  refine ⟨bound, fun actions checking executed => ?_⟩
  rw [storeLinearizable_iff timed.proper order]
  exact runs actions checking executed

/-- A get of `x` that began before the put it saw, and an append to `y` meanwhile. -/
def twoKeys : List (Operation KvInput KvOutput) :=
  [⟨⟨0, "x", ""⟩, 1, ⟨"a"⟩, 6⟩, ⟨⟨2, "y", "b"⟩, 2, ⟨""⟩, 5⟩, ⟨⟨1, "x", "a"⟩, 3, ⟨""⟩, 4⟩]

theorem checkOperations_exact_twoKeys :
    ∃ bound, ∀ actions checking,
      execute (checkOperations kvModel (kvModel.partition twoKeys).reverse) anyStep
        (startChecking (kvModel.partition twoKeys).reverse) actions = some checking →
      actions.length ≤ bound ∧
        match checking.outcome with
        | .running => ∃ action next,
            checkOperations kvModel (kvModel.partition twoKeys).reverse checking action = some next
        | .returned ok => ok = true ↔ StoreLinearizable twoKeys
        | .panicked => False :=
  checkOperations_exact twoKeys (by decide) ⟨by decide, by decide⟩ _ (List.reverse_perm _)

end Store

end Mit6824.Linearizability
