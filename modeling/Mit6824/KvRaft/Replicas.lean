import Mit6824.KvRaft.Deployment
import Mit6824.KvRaft.PutAppend

/-!
# Replicas

All servers of a deployment build their stores from one sequence of commands, as long as the
cluster agrees on what is committed (`one_sequence`). The sequence is what was applied so far by
the server that is furthest ahead. `Consumed` says what each server has made of it: a server that
was restored from a snapshot has consumed less of the sequence than its maps have seen.
-/

namespace Mit6824.KvRaft

/-- A server that has applied the first `r` commands. -/
def stage (ops : List Op) (r : Nat) : KVServer := KVServer.start.applyOps (ops.take r)

theorem stage_append {ops : List Op} {r : Nat} (within : r ≤ ops.length) (more : List Op) :
    stage (ops ++ more) r = stage ops r := by
  rw [stage, List.take_append_of_le_length within, stage]

theorem getElem?_append_of_some {ops : List Op} {k : Nat} {op : Op} (found : ops[k]? = some op)
    (more : List Op) : (ops ++ more)[k]? = some op := by
  rw [List.getElem?_append_left (List.getElem?_eq_some_iff.1 found).1, found]

namespace Consumed

variable {ops : List Op} {p r : Nat} {kv : KVServer}

theorem append (consumed : Consumed ops p r kv) (more : List Op) :
    Consumed (ops ++ more) p r kv := by
  induction consumed with
  | start => exact .start
  | command _ next applied ih => exact .command ih (getElem?_append_of_some next more) applied
  | newClient _ client ih => exact .newClient ih client
  | restore _ _ labelled restored ih ih' => exact .restore ih ih' labelled restored

theorem le_length (consumed : Consumed ops p r kv) : r ≤ ops.length := by
  induction consumed with
  | start => exact Nat.zero_le _
  | command _ next _ ih => exact max_le ih (List.getElem?_eq_some_iff.1 next).1
  | newClient _ _ ih => exact ih
  | restore _ _ _ _ _ ih => exact ih

end Consumed

/-- The state was captured by a server that had consumed what the label says. -/
def Captured (ops : List Op) (label : Nat) (state : Saved) : Prop :=
  ∃ q s taker, Consumed ops q s taker ∧ label ≤ q ∧ taker.saved = state

theorem Captured.append {ops : List Op} {label : Nat} {state : Saved}
    (captured : Captured ops label state) (more : List Op) :
    Captured (ops ++ more) label state := by
  obtain ⟨q, s, taker, consumed, labelled, same⟩ := captured
  exact ⟨q, s, taker, consumed.append more, labelled, same⟩

/-- The command at position `g` is a `Get`, and the answer is what a server that had seen the first
`r` commands had for its key. -/
structure Reads (ops : List Op) (op : Op) (answer : String) (g r : Nat) : Prop where
  get : op.optype = .getType
  found : ops[g]? = some op
  later : g ≤ r
  within : r ≤ ops.length
  value : answer = (stage ops r).value op.key

theorem Reads.append {ops : List Op} {op : Op} {answer : String} {g r : Nat}
    (reads : Reads ops op answer g r) (more : List Op) : Reads (ops ++ more) op answer g r where
  get := reads.get
  found := getElem?_append_of_some reads.found more
  later := reads.later
  within := reads.within.trans (by simp)
  value := by
    rw [stage_append reads.within]
    exact reads.value

/-- What a server makes of the sequence: it has consumed the first `p` commands, its maps have seen
the first `r`, and every result that is stored was read. -/
structure KVServer.Follows (ops : List Op) (kv : KVServer) (p r : Nat) : Prop where
  consumed : Consumed ops p r kv
  reached : kv.curCommitIndex ≤ p
  stored : ∀ {id answer}, kv.resultMap.lookup id = some answer →
    ∃ op g s, op.commID = id ∧ Reads ops op answer g s

namespace KVServer.Follows

variable {ops : List Op} {kv kv' : KVServer} {p r : Nat}

theorem append (follows : kv.Follows ops p r) (more : List Op) : kv.Follows (ops ++ more) p r where
  consumed := follows.consumed.append more
  reached := follows.reached
  stored found := by
    obtain ⟨op, g, s, same, reads⟩ := follows.stored found
    exact ⟨op, g, s, same, reads.append more⟩

theorem start : KVServer.start.Follows ops 0 0 where
  consumed := .start
  reached := le_rfl
  stored found := by simp [KVServer.start] at found

/-- The server takes the next command of the sequence. -/
theorem command (follows : kv.Follows ops p r) {op : Op} (next : ops[p]? = some op)
    (applied : kv.apply ⟨true, some op, p + 1, none⟩ = some kv') :
    kv'.Follows ops (p + 1) (max r (p + 1)) := by
  have consumed := follows.consumed.command next applied
  obtain ⟨ahead, same⟩ := follows.consumed.sameStore
  rw [KVServer.apply_command] at applied
  have after := (Option.some.inj applied).symm
  have reached := follows.reached
  refine ⟨consumed, ?_, fun {id answer} found => ?_⟩
  · rw [after]
    push_cast
    exact max_le (by omega) le_rfl
  · rw [after] at found
    dsimp only at found
    by_cases write : op.isWrite = true
    · refine follows.stored ?_
      rcases le_or_gt op.proposalID (kv.maxSeq op.clientID) with old | new
      · rwa [KVServer.applyOp_old write old] at found
      · rwa [KVServer.applyOp_new write new] at found
    · have get : op.optype = .getType := not_not.1 (mt Op.isWrite_iff.2 write)
      rw [KVServer.applyOp_get get] at found
      by_cases here : id = op.commID
      · subst here
        rw [Finmap.lookup_insert] at found
        refine ⟨op, p, r, rfl, get, next, ahead, follows.consumed.le_length, ?_⟩
        rw [← Option.some.inj found, KVServer.value, same.rsm]
        rfl
      · rw [Finmap.lookup_insert_of_ne _ here] at found
        exact follows.stored found

/-- The server is restored from a snapshot. -/
theorem restore (follows : kv.Follows ops p r) {q : Nat} {state : Saved}
    (captured : Captured ops q state) (forward : p ≤ q)
    (applied : kv.apply ⟨false, none, 0, some state⟩ = some kv') : ∃ r', kv'.Follows ops q r' := by
  obtain ⟨s, r', taker, source, labelled, rfl⟩ := captured
  have consumed := follows.consumed.restore source labelled applied
  have reached := follows.reached
  rw [KVServer.apply_snapshot] at applied
  have after := (Option.some.inj applied).symm
  refine ⟨r', consumed, ?_, fun found => follows.stored ?_⟩
  · rw [after]
    exact reached.trans (by exact_mod_cast forward)
  · rwa [after] at found

theorem addClient (follows : kv.Follows ops p r) (client : Int) :
    (kv.addClient client).Follows ops p r := by
  have unchanged : (kv.addClient client).resultMap = kv.resultMap := by
    unfold KVServer.addClient
    split_ifs <;> rfl
  refine ⟨follows.consumed.newClient client, ?_, ?_⟩
  · rw [(kv.addClient_frame client).1]
    exact follows.reached
  · rw [unchanged]
    exact follows.stored

theorem captured (follows : kv.Follows ops p r) {index : Int}
    (reached : index ≤ kv.curCommitIndex) : Captured ops (index - 1).toNat kv.saved := by
  have ahead := follows.reached
  exact ⟨p, r, kv, follows.consumed, by omega, rfl⟩

end KVServer.Follows

/-! ## Runs -/

/-- The service has consumed the first `p` commands. -/
def Service.Follows {n : Nat} (ops : List Op) (service : Service n) (p : Nat) : Prop :=
  ∃ r, service.node.kv.Follows ops p r

/-- What the service makes of a message of its channel. -/
theorem Service.moves_apply {n : Nat} {i : Fin n} {service service' : Service n}
    {action : ServiceAction n} {message : ApplyMsg Op Saved}
    (next : service.node.rf.applyCh[service.node.taken]? = some message)
    (applied : service.node.kv.apply message = some service'.node.kv)
    (server : service'.node.server = service.node.server)
    (taken : service'.node.taken = service.node.taken + 1) :
    (host n).Moves Captured Service.Follows i service action service' := by
  refine .apply next server taken ?_ ?_
  · rintro p command rfl
    cases command with
    | none => simp [KVServer.apply] at applied
    | some op =>
        refine ⟨op, rfl, fun found follows => ?_⟩
        obtain ⟨r, follows⟩ := follows
        exact ⟨_, follows.command found applied⟩
  · rintro ops p q state rfl forward captured ⟨r, follows⟩
    exact follows.restore captured forward applied

theorem host_moves {n : Nat} {i : Fin n} {service service' : Service n} {action : ServiceAction n}
    (next : (host n).step i service action = some service') :
    (host n).Moves Captured Service.Follows i service action service' := by
  obtain ⟨own, stepped⟩ := host_step next
  cases Service.step_hosts stepped own with
  | idle server taken kv =>
      refine .idle server taken fun ⟨r, follows⟩ => ⟨r, ?_⟩
      rcases kv with same | ⟨client, added⟩
      · rwa [same]
      · rw [added]
        exact follows.addClient client
  | start starting appended server taken kv =>
      refine .start starting appended server taken fun ⟨r, follows⟩ => ⟨r, ?_⟩
      rwa [kv]
  | takeSnapshots reached stepped taken kv =>
      refine .takeSnapshots (fun ⟨r, follows⟩ => follows.captured reached) stepped taken
        fun ⟨r, follows⟩ => ⟨r, ?_⟩
      rwa [kv]
  | apply _ next applied server taken => exact Service.moves_apply next applied server taken
  | restart crashes boots =>
      refine .restart (beq_iff_eq.2 crashes) (congrArg Node.server boots)
        (congrArg Node.taken boots) fun _ => ⟨0, ?_⟩
      rw [boots]
      exact .start

theorem host_replica (n : Nat) : (host n).Replica Captured Service.Follows where
  server_withServer _ _ := rfl
  withServer_server _ := rfl
  taken_withServer _ _ := rfl
  server_boot _ := rfl
  taken_boot _ := rfl
  state_boot _ := ⟨0, .start⟩
  state_withServer _ follows := follows
  state_le := fun ⟨_, follows⟩ => follows.consumed.sameStore.1.trans follows.consumed.le_length
  state_append more := fun ⟨r, follows⟩ => ⟨r, follows.append more⟩
  good_append more captured := captured.append more
  moves := host_moves

namespace Deployment

variable {n : Nat} {i : Fin n} {P : Op → Prop} {ops : List Op} {d d' : Deployment n}

/-- All that was applied anywhere is one sequence of commands, and each server follows it. -/
abbrev Replicates (P : Op → Prop) (ops : List Op) (d : Deployment n) : Prop :=
  Deployed.Replicates (host n) Captured Service.Follows P ops d

/-- A step meets the condition. -/
def Keeps (d : Deployment n) (action : DeploymentAction n) : Prop := d.keepsCommits action = true

instance (d : Deployment n) (action : DeploymentAction n) : Decidable (d.Keeps action) :=
  inferInstanceAs (Decidable (d.keepsCommits action = true))

end Deployment

end Mit6824.KvRaft
