import Mit6824.MapReduce.Batches

/-!
# Who has a task

At any time a task of a phase is in one place: the list of what is still to be issued, the channel
of failed calls, or the hands of one call (`Shares`). `Effect` says what a step of the scheduler
does to these three.
-/

namespace Mit6824.MapReduce

/-- The task of the call, unless it has been given up. -/
def Call.held (call : Call) : List Nat :=
  match call.state with
  | .ending false | .done false => []
  | _ => [call.args.taskNumber]

theorem Call.mem_held {call : Call} {task : Nat} : task ∈ call.held ↔ call.Has task := by
  unfold Call.held Call.Has
  split <;> simp_all [eq_comm]

namespace Schedule

variable {config : Phase} {s s' : Schedule} {action : Action}

/-- The tasks that no call has. -/
def left (config : Phase) (s : Schedule) : List Nat :=
  (if s.pc = .collecting then List.range config.ntasks else s.taskList.drop s.next) ++
    s.failedChan.map Prod.snd

/-- The tasks that calls have. -/
def held (s : Schedule) : List Nat :=
  s.calls.flatMap Call.held

/-- The loop variable is in the list while a task is being issued. -/
structure InLoop (s : Schedule) : Prop where
  first : s.pc = .collecting → s.i = 0
  inList : s.pc.issued = true → s.i < s.taskList.length

theorem inLoop_start : start.InLoop where
  first _ := rfl
  inList issued := by cases issued

/-- What a step does to the calls and the tasks that are left. -/
inductive Effect (config : Phase) (s : Schedule) : Action → Schedule → Prop where
  | quiet {action : Action} {s' : Schedule} (main : ∀ k move, action ≠ .call k move)
      (calls : s'.calls = s.calls) (left : (s'.left config).Perm (s.left config)) :
      Effect config s action s'
  | issue {order : List String} {s' : Schedule} {call : Call} (created : call.state = .created)
      (asks : config.Asks call.args) (running : s'.pc ≠ .returned)
      (calls : s'.calls = s.calls ++ [call])
      (left : (call.args.taskNumber :: s'.left config).Perm (s.left config)) :
      Effect config s (.issue order) s'
  | enter {k task : Nat} {s' : Schedule} {call : Call} (found : s.calls[k]? = some call)
      (created : call.state = .created) (listed : s.taskList[s.i]? = some task)
      (calls : s'.calls = s.calls.set k { call with state := .calling task s.workerAddr })
      (left : s'.left config = s.left config) :
      Effect config s (.call k .enter) s'
  | reply {k task : Nat} {addr : String} {flag : Bool} {s' : Schedule} {call : Call}
      (found : s.calls[k]? = some call) (out : call.state = .calling task addr)
      (calls : s'.calls = s.calls.set k
        { call with state := if flag then .ending true else .failed task addr })
      (left : s'.left config = s.left config) :
      Effect config s (.call k (.reply flag)) s'
  | report {k task : Nat} {addr : String} {s' : Schedule} {call : Call}
      (found : s.calls[k]? = some call) (failed : call.state = .failed task addr)
      (calls : s'.calls = s.calls.set k { call with state := .ending false })
      (left : (s'.left config).Perm (task :: s.left config)) :
      Effect config s (.call k .report) s'
  | done {k : Nat} {flag : Bool} {s' : Schedule} {call : Call}
      (found : s.calls[k]? = some call) (ending : call.state = .ending flag)
      (calls : s'.calls = s.calls.set k { call with state := .done flag })
      (left : s'.left config = s.left config) :
      Effect config s (.call k .done) s'

theorem effect_register {addr : String} (inLoop : s.InLoop)
    (moved : s.register addr = some s') : Effect config s (.register addr) s' ∧ s'.InLoop := by
  rcases register_cases moved with ⟨place, rfl⟩ | ⟨place, rfl⟩
  · exact ⟨.quiet (by simp) rfl (.refl _), inLoop.first, inLoop.inList⟩
  · exact ⟨.quiet (by simp) rfl (.refl _), inLoop.first, inLoop.inList⟩

theorem effect_issue {order : List String} (moved : s.issue config order = some s') :
    Effect config s (.issue order) s' ∧ s'.InLoop := by
  obtain ⟨place, _, call, listed, created, asks, rfl⟩ := issue_cases moved
  obtain ⟨inList, same⟩ := List.getElem?_eq_some_iff.1 listed
  generalize place' : (if s.runningTask + 1 =
    (Finmap.keys (s.workerState.insert (s.pick order) true)).card then Pc.waiting
      else Pc.listening) = pc
  have issued : pc.issued = true ∧ pc ≠ .collecting ∧ pc ≠ .returned := by
    rw [← place']
    split_ifs <;> simp [Pc.issued]
  refine ⟨.issue created asks issued.2.2 rfl ?_, ⟨fun collecting => absurd collecting issued.2.1,
    fun _ => inList⟩⟩
  have before : s.left config = s.taskList.drop s.i ++ s.failedChan.map Prod.snd := by
    simp [left, next, place, Pc.issued]
  rw [before, List.drop_eq_getElem_cons inList, same]
  simp only [left, next, issued.1, if_neg issued.2.1, if_true]
  exact .refl _

theorem effect_receive (inLoop : s.InLoop) (moved : s.receive = some s') :
    Effect config s .receive s' ∧ s'.InLoop := by
  obtain ⟨place, failed, rest, channel, rfl⟩ := receive_cases moved
  have inList := inLoop.inList (by simp [place, Pc.issued])
  refine ⟨.quiet (by simp) rfl ?_, fun collecting => absurd collecting (by simp [place]),
    fun _ => ?_⟩
  · simp only [left, next, place, channel, Pc.issued, if_true, reduceCtorEq, if_false,
      List.map_cons]
    rw [List.drop_append_of_le_length inList, List.append_assoc]
    exact .refl _
  · simp only [List.length_append]
    omega

theorem effect_callStep {k : Nat} {call : Call} {move : CallMove} (inLoop : s.InLoop)
    (found : s.calls[k]? = some call) (moved : s.callStep config k call move = some s') :
    Effect config s (.call k move) s' ∧ s'.InLoop := by
  cases move with
  | enter =>
      simp only [callStep] at moved
      split_ifs at moved with created
      obtain ⟨task, listed, rfl⟩ := Option.map_eq_some_iff.1 moved
      exact ⟨.enter found created listed rfl rfl, inLoop.first, inLoop.inList⟩
  | reply flag =>
      simp only [callStep] at moved
      split at moved
      · rename_i task addr out
        cases moved
        exact ⟨.reply found out rfl rfl, inLoop.first, inLoop.inList⟩
      · cases moved
  | report =>
      simp only [callStep] at moved
      split at moved
      · rename_i task addr failed
        split_ifs at moved
        cases moved
        refine ⟨.report found failed rfl ?_, inLoop.first, inLoop.inList⟩
        have same : left config { s.setCall k call (.ending false) with
            failedChan := s.failedChan ++ [(addr, task)] } = s.left config ++ [task] := by
          simp only [left, List.map_append, List.append_assoc]
          rfl
        rw [same]
        exact List.perm_append_singleton task _
      · cases moved
  | done =>
      simp only [callStep] at moved
      split at moved
      · rename_i flag ending
        split_ifs at moved
        cases moved
        exact ⟨.done found ending rfl rfl, inLoop.first, inLoop.inList⟩
      · cases moved

theorem effect_step (inLoop : s.InLoop) (moved : s.step config action = some s') :
    Effect config s action s' ∧ s'.InLoop := by
  cases action with
  | register addr => exact effect_register inLoop moved
  | collected =>
      simp only [step] at moved
      split_ifs at moved with place
      cases moved
      refine ⟨.quiet (by simp) rfl ?_, by simp, by simp [Pc.issued]⟩
      have first := inLoop.first place
      simp [left, next, place, first, Pc.issued]
  | issue order => exact effect_issue moved
  | leave =>
      simp only [step] at moved
      split_ifs at moved with place
      cases moved
      refine ⟨.quiet (by simp) rfl ?_, by simp, by simp [Pc.issued]⟩
      simp [left, next, place.1, Pc.issued]
  | waited =>
      simp only [step] at moved
      split_ifs at moved with place
      cases moved
      refine ⟨.quiet (by simp) rfl ?_, by simp, fun _ => inLoop.inList (by simp [place, Pc.issued])⟩
      simp [left, next, place.1, Pc.issued]
  | receive => exact effect_receive inLoop moved
  | drained order =>
      obtain ⟨place, _, rfl⟩ := drained_cases moved
      refine ⟨.quiet (by simp) rfl ?_, by simp, fun _ => inLoop.inList (by simp [place, Pc.issued])⟩
      simp [left, next, place, Pc.issued]
  | listened =>
      simp only [step] at moved
      split_ifs at moved with place
      cases moved
      refine ⟨.quiet (by simp) rfl ?_, by simp, by simp [Pc.issued]⟩
      simp [left, next, place, Pc.issued]
  | call k move =>
      obtain ⟨call, found, moves⟩ := Option.bind_eq_some_iff.1 moved
      exact effect_callStep inLoop found moves

theorem pc_of_callStep {k : Nat} {call : Call} {move : CallMove}
    (moved : s.callStep config k call move = some s') : s'.pc = s.pc := by
  cases move with
  | enter =>
      simp only [callStep] at moved
      split_ifs at moved
      obtain ⟨_, _, rfl⟩ := Option.map_eq_some_iff.1 moved
      rfl
  | reply flag =>
      simp only [callStep] at moved
      split at moved
      · cases moved
        rfl
      · cases moved
  | report | done =>
      simp only [callStep] at moved
      split at moved
      · split_ifs at moved
        cases moved
        rfl
      · cases moved

/-- The scheduler returns by leaving its loop. -/
theorem returned_of_step (moved : s.step config action = some s') (returned : s'.pc = .returned) :
    action = .leave ∨ s.pc = .returned := by
  cases action with
  | leave => exact Or.inl rfl
  | register addr =>
      right
      rcases register_cases moved with ⟨_, rfl⟩ | ⟨_, rfl⟩
      · exact returned
      · exact returned
  | issue order =>
      obtain ⟨_, _, _, _, _, _, rfl⟩ := issue_cases moved
      dsimp only at returned
      split_ifs at returned
  | receive =>
      obtain ⟨_, _, _, _, rfl⟩ := receive_cases moved
      exact Or.inr returned
  | drained order =>
      obtain ⟨_, _, rfl⟩ := drained_cases moved
      cases returned
  | collected | waited | listened =>
      simp only [step] at moved
      split_ifs at moved
      cases moved
      cases returned
  | call k move =>
      obtain ⟨call, _, moves⟩ := Option.bind_eq_some_iff.1 moved
      exact Or.inr ((pc_of_callStep moves).symm.trans returned)

/-! ## Every task is in one place -/

/-- What an element contributes is exchanged when the element is. -/
theorem perm_flatMap_set {α β : Type} {f : α → List β} {l : List α} {k : Nat} {a : α}
    (found : l[k]? = some a) (b : α) :
    (f a ++ (l.set k b).flatMap f).Perm (f b ++ l.flatMap f) := by
  obtain ⟨inside, rfl⟩ := List.getElem?_eq_some_iff.1 found
  have parts : l.flatMap f =
      (l.take k).flatMap f ++ (f l[k] ++ (l.drop (k + 1)).flatMap f) := by
    rw [← List.flatMap_cons, ← List.drop_eq_getElem_cons inside, ← List.flatMap_append,
      List.take_append_drop]
  rw [List.set_eq_take_append_cons_drop, if_pos inside, List.flatMap_append, List.flatMap_cons,
    parts]
  refine (List.perm_append_comm_assoc _ _ _).trans (.trans ?_ (List.perm_append_comm_assoc _ _ _))
  exact .append_left _ (List.perm_append_comm_assoc _ _ _)

structure Shares (config : Phase) (s : Schedule) : Prop where
  inLoop : s.InLoop
  whole : (s.held ++ s.left config).Perm (List.range config.ntasks)
  own : ∀ call ∈ s.calls, call.ReportsOwn
  asks : ∀ call ∈ s.calls, config.Asks call.args

theorem shares_start (config : Phase) : start.Shares config where
  inLoop := inLoop_start
  whole := by simp [start, left, held]
  own := by simp [start]
  asks := by simp [start]

namespace Shares

/-- A call moves on with its task. -/
theorem whole_of_set (shares : s.Shares config) {k : Nat} {call : Call} {state : CallState}
    (found : s.calls[k]? = some call) (same : Call.held { call with state } = call.held)
    (calls : s'.calls = s.calls.set k { call with state })
    (left : s'.left config = s.left config) :
    (s'.held ++ s'.left config).Perm (List.range config.ntasks) := by
  have exchanged := perm_flatMap_set (f := Call.held) found { call with state }
  rw [same, List.perm_append_left_iff] at exchanged
  rw [held, calls, left]
  exact (exchanged.append_right _).trans shares.whole

theorem own_of_set (shares : s.Shares config) {k : Nat} {call : Call} {state : CallState}
    (own : Call.ReportsOwn { call with state })
    (calls : s'.calls = s.calls.set k { call with state }) :
    ∀ call ∈ s'.calls, call.ReportsOwn := by
  intro other member
  rw [calls] at member
  rcases List.mem_or_eq_of_mem_set member with old | rfl
  · exact shares.own other old
  · exact own

theorem asks_of_set (shares : s.Shares config) {k : Nat} {call : Call} {state : CallState}
    (found : s.calls[k]? = some call) (calls : s'.calls = s.calls.set k { call with state }) :
    ∀ call ∈ s'.calls, config.Asks call.args := by
  intro other member
  rw [calls] at member
  rcases List.mem_or_eq_of_mem_set member with old | rfl
  · exact shares.asks other old
  · exact shares.asks call (List.mem_of_getElem? found)

/-- The tasks stay where they are or go from one place to another, as long as a goroutine reads
the loop variable while it is still its own. -/
theorem step (shares : s.Shares config)
    (own : ∀ {k call}, action = .call k .enter → s.calls[k]? = some call →
      s.taskList[s.i]? = some call.args.taskNumber)
    (moved : s.step config action = some s') : s'.Shares config := by
  obtain ⟨effect, inLoop⟩ := effect_step shares.inLoop moved
  cases effect with
  | quiet main calls left =>
      refine ⟨inLoop, ?_, calls ▸ shares.own, calls ▸ shares.asks⟩
      rw [held, calls]
      exact (left.append_left _).trans shares.whole
  | @issue _ _ call created asks running calls left =>
      have new : ∀ {other}, other ∈ s'.calls → other ∈ s.calls ∨ other = call := by
        simp [calls]
      refine ⟨inLoop, ?_, fun other member => ?_, fun other member => ?_⟩
      · have hold : call.held = [call.args.taskNumber] := by simp [Call.held, created]
        rw [held, calls, List.flatMap_append, List.flatMap_singleton, hold, List.append_assoc]
        exact (left.append_left _).trans shares.whole
      · rcases new member with old | rfl
        · exact shares.own other old
        · intro task addr state
          simp [created] at state
      · rcases new member with old | rfl
        · exact shares.asks other old
        · exact asks
  | @enter k task _ call found created listed calls left =>
      refine ⟨inLoop, shares.whole_of_set found (by simp [Call.held, created]) calls left,
        shares.own_of_set ?_ calls, shares.asks_of_set found calls⟩
      have mine := own rfl found
      rw [listed] at mine
      intro task' addr state
      simp only [CallState.calling.injEq, reduceCtorEq, or_false] at state
      exact state.1.symm.trans (Option.some.inj mine)
  | @reply k task addr flag _ call found out calls left =>
      refine ⟨inLoop, shares.whole_of_set found ?_ calls left, shares.own_of_set ?_ calls,
        shares.asks_of_set found calls⟩
      · cases flag <;> simp [Call.held, out]
      · have mine := shares.own call (List.mem_of_getElem? found) task addr (Or.inl out)
        intro task' addr' state
        cases flag
        · simp only [Bool.false_eq_true, if_false, CallState.failed.injEq, reduceCtorEq,
            false_or] at state
          exact state.1.symm.trans mine
        · simp at state
  | @report k task addr _ call found failed calls left =>
      have mine := shares.own call (List.mem_of_getElem? found) task addr (Or.inr failed)
      refine ⟨inLoop, ?_, shares.own_of_set (fun task' addr' state => by simp at state) calls,
        shares.asks_of_set found calls⟩
      have exchanged := perm_flatMap_set (f := Call.held) found { call with state := .ending false }
      have before : call.held = [task] := by simp [Call.held, failed, mine]
      have after : Call.held { call with state := .ending false } = [] := rfl
      rw [before, after, List.nil_append, List.singleton_append] at exchanged
      rw [held, calls]
      exact ((left.append_left _).trans List.perm_middle).trans
        ((exchanged.append_right _).trans shares.whole)
  | @done k flag _ call found ending calls left =>
      refine ⟨inLoop, shares.whole_of_set found ?_ calls left,
        shares.own_of_set (fun task' addr' state => by simp at state) calls,
        shares.asks_of_set found calls⟩
      cases flag <;> simp [Call.held, ending]

theorem nodup (shares : s.Shares config) : (s.held ++ s.left config).Nodup :=
  shares.whole.nodup_iff.2 List.nodup_range

/-- No two calls have the same task. -/
theorem eq_of_has (shares : s.Shares config) {k l task : Nat} {a b : Call}
    (found : s.calls[k]? = some a) (found' : s.calls[l]? = some b) (has : a.Has task)
    (has' : b.Has task) : k = l := by
  have apart := (List.nodup_flatMap.1 (List.nodup_append.1 shares.nodup).1).2
  rw [List.pairwise_iff_getElem] at apart
  obtain ⟨inside, rfl⟩ := List.getElem?_eq_some_iff.1 found
  obtain ⟨inside', rfl⟩ := List.getElem?_eq_some_iff.1 found'
  rcases Nat.lt_trichotomy k l with before | same | after
  · exact absurd (Call.mem_held.2 has') (apart k l inside inside' before (Call.mem_held.2 has))
  · exact same
  · exact absurd (Call.mem_held.2 has) (apart l k inside' inside after (Call.mem_held.2 has'))

theorem lt_of_has (shares : s.Shares config) {task : Nat} {call : Call} (member : call ∈ s.calls)
    (has : call.Has task) : task < config.ntasks := by
  have held : task ∈ s.held := List.mem_flatMap.2 ⟨call, member, Call.mem_held.2 has⟩
  exact List.mem_range.1 (shares.whole.mem_iff.1 (List.mem_append_left _ held))

end Shares

end Schedule

end Mit6824.MapReduce
