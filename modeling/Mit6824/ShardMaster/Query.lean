import Mit6824.Dedup
import Mit6824.Raft.Awaited
import Mit6824.ShardMaster.Node

/-!
# Query

`Query` waits until `curCommitIndex` reaches the index that `Start` gave it and then takes what is
stored in `resultMap` under the id of its request. But `mainProcess` raises `curCommitIndex` before
it stores the result, so a call that polls in between finds nothing and answers with the zero
`Config` (`Node.query_before_result`). The same happens when `Start` returns `-1` and the
leadership comes back, when the entry was overwritten, and when another call with the same id took
the result first.

Under `Node.keepsQueries` a call finds the result of its own command (`Node.query_configuration`).
Until `mainProcess` reads the command the call is covered by `Raft.Awaits`; from then on the
command is outstanding or its result is stored.
-/

namespace Mit6824.Shards

/-- The client is an `int32`, and the number fits into the lower half of the id. -/
def Op.InRange (op : Op) : Prop :=
  -2 ^ 31 ≤ op.clientID ∧ op.clientID < 2 ^ 31 ∧ 0 ≤ op.proposalID ∧ op.proposalID < 2 ^ 32

instance (op : Op) : Decidable op.InRange :=
  inferInstanceAs (Decidable (_ ∧ _))

/-- In range the id tells the client and the number. -/
theorem Op.commID_eq {op op' : Op} (inRange : op.InRange) (inRange' : op'.InRange)
    (equal : op.commID = op'.commID) :
    op.clientID = op'.clientID ∧ op.proposalID = op'.proposalID :=
  Dedup.packed_injective inRange inRange' equal

/-- Only a `Query` stores a result. -/
theorem ShardMaster.applyOp_results {ranges : Ranges} {sm sm' : ShardMaster} {op : Op}
    (applied : sm.applyOp ranges op = some sm') :
    sm'.curCommitIndex = sm.curCommitIndex ∧
      (sm'.resultMap = sm.resultMap ∧ op.optype ≠ .queryType ∨
        op.optype = .queryType ∧ ∃ config, sm.asked op = some config ∧
          sm'.resultMap = sm.resultMap.insert op.commID config) := by
  rcases applyOp_cases applied with ⟨query, config, asked, rfl⟩ | ⟨change, _, rfl⟩ |
    ⟨change, _, _, _, _, _, rfl⟩
  · exact ⟨rfl, .inr ⟨query, config, asked, rfl⟩⟩
  · exact ⟨rfl, .inl ⟨rfl, change⟩⟩
  · exact ⟨rfl, .inl ⟨rfl, change⟩⟩

/-- The index that a call of `Query` waits for. -/
def QueryCall.index (call : QueryCall) : Option Int :=
  match call.place with
  | .pollLeader index | .pollCommit index | .readResult index => some index
  | _ => none

namespace Node

variable {n : Nat}

/-- The indexes somebody waits for. -/
def awaited (node : Node n) : List Int := node.queries.filterMap QueryCall.index

/-- The call goes on as it should: it enters `Start` as the leader; and it takes the result when
the command at its index is not outstanding, and no other call with its id whose index has been
reached still waits. -/
def goesOn (node : Node n) (k : Nat) (call : QueryCall) : Bool :=
  match call.place with
  | .startCheck => node.rf.leaderNum == node.rf.me
  | .readResult index =>
      (node.outstanding.all fun outstanding => outstanding.1 ≠ index) &&
        (node.queries.eraseIdx k).all fun other =>
          other.args.comm.commID ≠ call.args.comm.commID ||
            other.index.all fun index => node.sm.curCommitIndex < index
  | _ => true

/-- The condition on a step: a call goes on as it should; an `AppendEntry` writes nothing behind an
index somebody waits for; no snapshot is installed; a crash takes nothing back; and a `Query` that
is requested or applied has an id in range and asks for the number that `numOf` gives for its client
and its sequence number. -/
def keepsQueries (numOf : Int → Int → Int) (node : Node n) : NodeAction n → Bool
  | .raft (.request (.appendEntry args)) =>
      !node.rf.accepts args || args.entries.isEmpty ||
        node.awaited.all fun index => index ≤ node.rf.commitIndex ∨ index ≤ args.prevLogIndex
  | .raft (.request (.installSnapShot args)) => !node.rf.installs args
  | .take =>
      node.nextCommand.all fun (_, op) =>
        op.optype ≠ .queryType || decide (op.InRange ∧ op.num = numOf op.clientID op.proposalID)
  | .query args =>
      decide (args.comm.InRange ∧ args.num = numOf args.clientID args.commSeq)
  | .handler k => node.queries[k]?.all fun call => node.goesOn k call
  | .restart => node.rf.recovers
  | _ => true

/-- A step meets the condition. -/
def Keeps (numOf : Int → Int → Int) (node : Node n) (action : NodeAction n) : Prop :=
  node.keepsQueries numOf action = true

instance (numOf : Int → Int → Int) (node : Node n) (action : NodeAction n) :
    Decidable (node.Keeps numOf action) :=
  inferInstanceAs (Decidable (node.keepsQueries numOf action = true))

/-- The configuration is the one that a `Query` for `num` asks for, as of the application of a
`Query` of the client with the sequence number. -/
def Read (node : Node n) (client seq num : Int) (config : Config) : Prop :=
  ∃ (op : Op) (sm : ShardMaster), (op, sm) ∈ node.applied ∧ op.optype = .queryType ∧
    op.clientID = client ∧ op.proposalID = seq ∧ op.num = num ∧ sm.asked op = some config

/-- The command of a call is still to come, it was read and not yet applied, or its result is
stored. -/
inductive Waits (node : Node n) (comm : Op) (index : Int) : Prop where
  | coming (awaits : node.rf.Awaits node.taken node.sm.curCommitIndex comm index)
  | outstanding (reached : index ≤ node.sm.curCommitIndex)
      (read : node.outstanding = some (index, comm))
  | stored (reached : index ≤ node.sm.curCommitIndex)
      (found : (node.sm.resultMap.lookup comm.commID).isSome = true)

/-- A call has asked for what `numOf` says, it will find a result if it waits, and it got one if it
was answered. -/
structure Fits (numOf : Int → Int → Int) (node : Node n) (call : QueryCall) : Prop where
  requested : call.args.comm.InRange ∧ call.args.num = numOf call.args.clientID call.args.commSeq
  waits : ∀ index, call.index = some index → node.Waits call.args.comm index
  passed : ∀ index, call.place = .readResult index → index ≤ node.sm.curCommitIndex
  answered : ∀ config, call.place = .replied false config → ∃ found, config = some found ∧
    node.Read call.args.clientID call.args.commSeq call.args.num found

/-- Between the steps of a node: what is stored was read for the request with its id. -/
structure Serves (numOf : Int → Int → Int) (i : Fin n) (node : Node n) : Prop where
  feeds : node.server.Feeds i node.taken node.sm.curCommitIndex
  valid : ∀ q message, node.taken ≤ q → node.rf.applyCh[q]? = some message →
    message.command ≠ none → message.commandValid = true
  asks : ∀ index op, node.outstanding = some (index, op) → op.optype = .queryType →
    op.InRange ∧ op.num = numOf op.clientID op.proposalID
  stored : ∀ id config, node.sm.resultMap.lookup id = some config →
    ∃ op : Op, op.InRange ∧ op.commID = id ∧
      node.Read op.clientID op.proposalID (numOf op.clientID op.proposalID) config
  calls : ∀ call ∈ node.queries, node.Fits numOf call

variable {numOf : Int → Int → Int} {i : Fin n} {node node' : Node n} {call : QueryCall}

theorem Read.mono {client seq num : Int} {config : Config}
    (read : node.Read client seq num config) (more : node.applied ⊆ node'.applied) :
    node'.Read client seq num config := by
  obtain ⟨op, sm, member, rest⟩ := read
  exact ⟨op, sm, more member, rest⟩

/-- Only the way of the command to `mainProcess` changes. -/
theorem Waits.congr {comm : Op} {index : Int} (waits : node.Waits comm index)
    (sm : node'.sm = node.sm) (outstanding : node'.outstanding = node.outstanding)
    (coming : node.rf.Awaits node.taken node.sm.curCommitIndex comm index →
      node'.rf.Awaits node'.taken node.sm.curCommitIndex comm index) :
    node'.Waits comm index := by
  cases waits with
  | coming awaits => exact .coming (sm ▸ coming awaits)
  | outstanding reached read => exact .outstanding (sm ▸ reached) (outstanding.trans read)
  | stored reached found => exact .stored (sm ▸ reached) (sm ▸ found)

/-- The node moves and the call stays where it is. -/
theorem Fits.mono (fits : node.Fits numOf call)
    (waits : ∀ index, call.index = some index → node.Waits call.args.comm index →
      node'.Waits call.args.comm index)
    (rises : node.sm.curCommitIndex ≤ node'.sm.curCommitIndex)
    (more : node.applied ⊆ node'.applied) : node'.Fits numOf call where
  requested := fits.requested
  waits index waiting := waits index waiting (fits.waits index waiting)
  passed index place := (fits.passed index place).trans rises
  answered config place := by
    obtain ⟨found, equal, read⟩ := fits.answered config place
    exact ⟨found, equal, read.mono more⟩

namespace Serves

theorem boot (i : Fin n) {persister : Persister Op Unit} {applyCh : List (ApplyMsg Op Unit)}
    {l : List (CommandTerm Op)} (stands : (Raft.make n i persister applyCh).Stands l)
    (applied : List (Op × ShardMaster)) :
    Serves numOf i (Node.boot i persister applyCh applied) where
  feeds := .boot i stands
  valid := by
    -- What is on the channel of a new life has no command.
    intro q message ahead found command
    rw [rf, Node.boot, Server.boot, Raft.make_eq, List.getElem?_append_right ahead] at found
    have member := List.mem_of_getElem? found
    simp only [Option.mem_toList, Option.map_eq_some_iff] at member
    obtain ⟨_, _, rfl⟩ := member
    exact absurd rfl command
  asks := by simp [Node.boot]
  stored := by simp [Node.boot, ShardMaster.start]
  calls := by simp [Node.boot]

/-- The peer moves and the commands somebody waits for stay. -/
theorem feed (serves : node.Serves numOf i) {server : Server n Op Unit}
    (feeds : server.Feeds i node.taken node.sm.curCommitIndex)
    (channel : ∃ l a count, server.rf.applyCh = node.rf.applyCh ++ deliveries Unit l a count)
    (stay : ∀ call ∈ node.queries, ∀ index, call.index = some index →
      node.rf.Awaits node.taken node.sm.curCommitIndex call.args.comm index →
        server.rf.Awaits node.taken node.sm.curCommitIndex call.args.comm index) :
    Serves numOf i { node with server := server } where
  feeds := feeds
  valid := by
    obtain ⟨_, _, _, channel⟩ := channel
    exact Raft.forall_from_advance serves.valid (fun _ valid _ => valid) channel
  asks := serves.asks
  stored := serves.stored
  calls call member :=
    (serves.calls call member).mono
      (fun index waiting waits => waits.congr rfl rfl (stay call member index waiting)) le_rfl
      (.refl _)

theorem raft (serves : node.Serves numOf i) {input : Input n Op Unit}
    (kept : node.Keeps numOf (.raft input)) (moved : node.raft i input = some node') :
    node'.Serves numOf i := by
  obtain ⟨server, output, up, stepped, rfl⟩ := raft_cases moved
  have keeps : ∀ args, input = .request (.installSnapShot args) →
      node.rf.installs args = false := by
    rintro args rfl
    simpa [Keeps, keepsQueries] using kept
  obtain ⟨feeds, channel, stay⟩ := serves.feeds.step stepped up keeps
  refine serves.feed feeds channel fun call member index waiting => stay _ _ ?_
  rintro above args rfl accepts entries
  have awaits : index ∈ node.awaited := List.mem_filterMap.2 ⟨call, member, waiting⟩
  simp only [Keeps, keepsQueries, accepts, Bool.not_true, Bool.false_or, Bool.or_eq_true,
    List.isEmpty_iff, entries, false_or, List.all_eq_true, decide_eq_true_eq] at kept
  exact (kept index awaits).resolve_left (not_le.2 above)

/-- `mainProcess` reads a command. -/
theorem take (serves : node.Serves numOf i) (kept : node.Keeps numOf .take)
    (moved : node.step i .take = some node') : node'.Serves numOf i := by
  obtain ⟨⟨index, op⟩, next, rfl⟩ := Option.map_eq_some_iff.1 moved
  obtain ⟨free, message, found, command, rfl⟩ := nextCommand_cases next
  have valid := serves.valid node.taken message le_rfl found (by simp [command])
  constructor
  case feeds => exact serves.feeds.take found (.inr ⟨valid, rfl⟩)
  case valid => exact fun q message ahead => serves.valid q message (Nat.le_of_succ_le ahead)
  case asks =>
    intro index' op' read query
    obtain ⟨rfl, rfl⟩ := Prod.mk.inj (Option.some.inj read)
    simpa [Keeps, keepsQueries, next, query] using kept
  case stored => exact serves.stored
  case calls =>
    intro call member
    refine (serves.calls call member).mono (fun index _ waits => ?_) (le_max_left _ _) (.refl _)
    cases waits with
    | coming awaits =>
        rcases awaits.take found with ⟨rfl, _⟩ | still
        · -- It is the command that was waited for.
          obtain rfl := Option.some.inj command
          exact .outstanding (le_max_right _ _) rfl
        · exact .coming (still _ (.inr ⟨valid, rfl⟩))
    | outstanding _ read =>
        rw [free] at read
        cases read
    | stored reached found => exact .stored (reached.trans (le_max_left _ _)) found

/-- The result of a command is stored, if it is a `Query`. -/
theorem apply (serves : node.Serves numOf i) {ranges : Ranges}
    (moved : node.step i (.apply ranges) = some node') : node'.Serves numOf i := by
  obtain ⟨⟨index, op⟩, read, moved⟩ := Option.bind_eq_some_iff.1 moved
  obtain ⟨sm, applied, rfl⟩ := Option.map_eq_some_iff.1 moved
  have more : node.applied ⊆ node.applied ++ [(op, node.sm)] := List.subset_append_left _ _
  obtain ⟨same, results⟩ := ShardMaster.applyOp_results applied
  constructor
  case feeds => exact same ▸ serves.feeds
  case valid => exact serves.valid
  case asks => exact fun _ _ none => absurd none.symm (Option.some_ne_none _)
  case stored =>
    intro id config found
    rcases results with ⟨kept, _⟩ | ⟨query, config', asked, stored⟩
    · obtain ⟨op', inRange, own, read⟩ := serves.stored id config (kept ▸ found)
      exact ⟨op', inRange, own, read.mono more⟩
    · dsimp only at found
      rw [stored] at found
      by_cases here : id = op.commID
      · subst here
        obtain ⟨inRange, num⟩ := serves.asks index op read query
        obtain rfl := Option.some.inj ((Finmap.lookup_insert _).symm.trans found)
        exact ⟨op, inRange, rfl, op, node.sm, by simp, query, rfl, rfl, num, asked⟩
      · rw [Finmap.lookup_insert_of_ne _ here] at found
        obtain ⟨op', inRange, own, read⟩ := serves.stored id config found
        exact ⟨op', inRange, own, read.mono more⟩
  case calls =>
    intro call member
    refine (serves.calls call member).mono (fun index _ waits => ?_) same.ge more
    cases waits with
    | coming awaits => exact .coming (same ▸ awaits)
    | outstanding reached read' =>
        obtain ⟨rfl, rfl⟩ := Prod.mk.inj (Option.some.inj (read.symm.trans read'))
        refine .stored (same ▸ reached) ?_
        rcases results with ⟨_, change⟩ | ⟨_, config, _, stored⟩
        · exact absurd rfl change
        · simp [stored]
    | stored reached found =>
        refine .stored (same ▸ reached) ?_
        rcases results with ⟨kept, _⟩ | ⟨_, config, _, stored⟩
        · exact kept ▸ found
        · dsimp only
          rw [stored]
          by_cases here : call.args.comm.commID = op.commID
          · rw [here, Finmap.lookup_insert]
            rfl
          · rwa [Finmap.lookup_insert_of_ne _ here]

/-- Calls come in or go on. -/
theorem withQueries (serves : node.Serves numOf i) {queries : List QueryCall}
    (fits : ∀ call ∈ queries, call ∈ node.queries ∨ node.Fits numOf call) :
    Serves numOf i { node with queries := queries } where
  feeds := serves.feeds
  valid := serves.valid
  asks := serves.asks
  stored := serves.stored
  calls call member := by
    have fits : node.Fits numOf call := (fits call member).elim (serves.calls call) id
    exact fits.mono (fun index _ waits => waits.congr rfl rfl id) le_rfl (.refl _)

/-- A call goes on to a place where it has no answer. -/
theorem moveTo (serves : node.Serves numOf i) {k : Nat} {place : QueryPlace}
    (found : node.queries[k]? = some call)
    (waits : ∀ index, QueryCall.index ⟨call.args, place⟩ = some index →
      node.Waits call.args.comm index)
    (passed : ∀ index, place = .readResult index → index ≤ node.sm.curCommitIndex)
    (unanswered : ∀ config, place ≠ .replied false config) :
    Serves numOf i { node with queries := node.queries.set k { call with place := place } } := by
  have requested := (serves.calls call (List.mem_of_getElem? found)).requested
  refine serves.withQueries fun other after => ?_
  rcases List.mem_or_eq_of_mem_set after with old | rfl
  · exact .inl old
  · exact .inr ⟨requested, waits, passed, fun config equal => absurd equal (unanswered config)⟩

/-- The result of a call that behaves as it should is there. -/
theorem exists_result (serves : node.Serves numOf i) {args : QueryArgs} {index : Int}
    (member : ⟨args, .readResult index⟩ ∈ node.queries)
    (applied : node.outstanding.all (fun outstanding => outstanding.1 ≠ index) = true) :
    ∃ config, node.sm.resultMap.lookup args.comm.commID = some config ∧
      node.Read args.clientID args.commSeq args.num config := by
  have fits := serves.calls _ member
  have result : (node.sm.resultMap.lookup args.comm.commID).isSome = true := by
    cases fits.waits index rfl with
    | coming awaits =>
        exact absurd (awaits.lt serves.feeds.applied) (not_lt.2 (fits.passed index rfl))
    | outstanding _ read => simp [read] at applied
    | stored _ found => exact found
  obtain ⟨inRange, num⟩ := fits.requested
  obtain ⟨config, found⟩ := Option.isSome_iff_exists.1 result
  obtain ⟨op, inRange', same, read⟩ := serves.stored _ config found
  -- The id of the request is the id of the command that was read.
  obtain ⟨client, seq⟩ := Op.commID_eq inRange' inRange same
  rw [client, seq] at read
  refine ⟨config, found, ?_⟩
  dsimp only at num
  rw [num]
  exact read

/-- A call takes its result. -/
theorem readResult (serves : node.Serves numOf i) {k : Nat} {args : QueryArgs} {index : Int}
    (found : node.queries[k]? = some ⟨args, .readResult index⟩)
    (kept : node.goesOn k ⟨args, .readResult index⟩ = true) :
    Serves numOf i { node with
      sm := { node.sm with resultMap := node.sm.resultMap.erase args.comm.commID }
      queries := node.queries.set k
        ⟨args, .replied false (node.sm.resultMap.lookup args.comm.commID)⟩ } := by
  have member := List.mem_of_getElem? found
  have inside := (List.getElem?_eq_some_iff.1 found).1
  simp only [goesOn, Bool.and_eq_true, List.all_eq_true, Bool.or_eq_true, decide_eq_true_eq]
    at kept
  obtain ⟨config, taken, read⟩ := serves.exists_result member kept.1
  constructor
  case feeds => exact serves.feeds
  case valid => exact serves.valid
  case asks => exact serves.asks
  case stored =>
    intro id config found
    refine serves.stored id config ?_
    dsimp only at found
    by_cases here : id = args.comm.commID
    · rw [here, Finmap.lookup_erase] at found
      cases found
    · rwa [Finmap.lookup_erase_ne here] at found
  case calls =>
    intro other after
    obtain ⟨j, position⟩ := List.mem_iff_getElem?.1 after
    by_cases same : j = k
    · subst same
      rw [List.getElem?_set_self inside] at position
      obtain rfl := Option.some.inj position
      refine ⟨(serves.calls _ member).requested, nofun, nofun, fun config' place => ?_⟩
      cases place
      exact ⟨config, taken, read⟩
    · rw [List.getElem?_set_ne (Ne.symm same)] at position
      refine (serves.calls other (List.mem_of_getElem? position)).mono
        (fun index' waiting waits => ?_) le_rfl (.refl _)
      cases waits with
      | coming awaits => exact .coming awaits
      | outstanding reached read => exact .outstanding reached read
      | stored reached found =>
          -- Nobody else whose index has been reached waits under the id.
          refine .stored reached ?_
          rcases kept.2 other (List.mem_eraseIdx_iff_getElem?.2 ⟨j, same, position⟩) with
            different | later
          · rwa [Finmap.lookup_erase_ne different]
          · rw [waiting, Option.all_some, decide_eq_true_eq] at later
            exact absurd reached (not_le.2 later)

theorem handler (serves : node.Serves numOf i) {k : Nat} {place : QueryPlace}
    (kept : node.Keeps numOf (.handler k)) (found : node.queries[k]? = some call)
    (moved : node.advance call = some (node', place)) :
    Serves numOf i { node' with
      queries := node'.queries.set k { call with place := place } } := by
  simp only [Keeps, keepsQueries, found, Option.all_some] at kept
  have fits := serves.calls call (List.mem_of_getElem? found)
  obtain ⟨args, at'⟩ := call
  cases at' with
  | readLeader =>
      cases moved
      refine serves.moveTo found (fun _ waiting => ?_) (fun _ equal => ?_) fun _ equal => ?_
      · split_ifs at waiting <;> cases waiting
      · split_ifs at equal
      · split_ifs at equal
        cases equal
  | startCheck =>
      -- The condition: the call enters `Start` as the leader.
      simp only [goesOn, beq_iff_eq] at kept
      simp only [Node.advance, Raft.startCheck, kept, ne_eq, not_true_eq_false, if_false] at moved
      cases moved
      exact serves.moveTo found nofun nofun nofun
  | startAppend curTerm =>
      obtain ⟨⟨rf', index⟩, appended, equal⟩ := Option.map_eq_some_iff.1 moved
      cases equal
      obtain ⟨feeds, channel, awaits, stay⟩ := serves.feeds.startAppend appended
      have serves' := serves.feed feeds channel fun call _ index _ => stay _ _
      refine serves'.moveTo found (fun _ waiting => ?_) nofun nofun
      cases waiting
      exact .coming awaits
  | pollLeader index =>
      cases moved
      refine serves.moveTo found (fun _ waiting => ?_) (fun _ equal => ?_) fun _ equal => ?_
      · split_ifs at waiting <;> cases waiting
        exact fits.waits index rfl
      · split_ifs at equal
      · split_ifs at equal
        cases equal
  | pollCommit index =>
      cases moved
      refine serves.moveTo found (fun _ waiting => ?_) (fun _ equal => ?_) fun _ equal => ?_
      · split_ifs at waiting <;> cases waiting
        all_goals exact fits.waits index rfl
      · split_ifs at equal with reached
        cases equal
        exact reached
      · split_ifs at equal
  | readResult index =>
      cases moved
      exact serves.readResult found kept
  | replied wrongLeader config => cases moved

theorem step (serves : node.Serves numOf i) {action : NodeAction n}
    (kept : node.Keeps numOf action) (next : node.step i action = some node') :
    node'.Serves numOf i := by
  cases action with
  | raft input => exact serves.raft kept next
  | take => exact serves.take kept next
  | apply ranges => exact serves.apply next
  | query args =>
      cases next
      refine serves.withQueries fun call member => ?_
      rcases List.mem_append.1 member with old | new
      · exact .inl old
      · rw [List.mem_singleton.1 new]
        exact .inr ⟨of_decide_eq_true kept, nofun, nofun, nofun⟩
  | handler k =>
      simp only [Node.step] at next
      split at next
      · cases next
      · rename_i call found
        obtain ⟨⟨moved, place⟩, advanced, rfl⟩ := Option.map_eq_some_iff.1 next
        exact serves.handler kept found advanced
  | restart =>
      cases next
      obtain ⟨l, stands⟩ := serves.feeds.stands
      obtain ⟨stands', _⟩ := stands.make kept
      rw [serves.feeds.placed.peers, serves.feeds.placed.me] at stands'
      exact boot i stands' node.applied

end Serves

end Node

end Mit6824.Shards
