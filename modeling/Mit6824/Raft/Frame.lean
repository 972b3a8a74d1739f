import Mit6824.Raft.Leader

/-!
# What the functions of a peer leave alone

One lemma for each function that later proofs rely on: which branches it has, and
which fields it can change. A function that changes a few fields in a loop is
described by the record update it amounts to, so that every other field is seen
to be the old one.
-/

namespace Mit6824

variable {n : Nat} {α σ : Type}

/-! ## What a new peer finds -/

namespace Persister

/-- The snapshot that a new peer takes over: one that covers something. -/
def readable (persister : Persister α σ) : Option (Snapshot σ) :=
  persister.snapshot.filter fun blob => 0 < blob.lastIndex

/-- The log that a new peer starts with: the saved one, or else the sentinel of the snapshot or
of an empty log. -/
def startLog (persister : Persister α σ) : List (CommandTerm α) :=
  let log := (persister.raftstate.map Prod.snd).getD
    ((persister.readable.map fun blob => [⟨none, blob.lastTerm⟩]).getD [])
  if log.length < 1 then log ++ [⟨none, 0⟩] else log

variable {persister : Persister α σ}

theorem readable_eq (labelled : ∀ blob ∈ persister.snapshot, 0 < blob.lastIndex) :
    persister.readable = persister.snapshot := by
  cases found : persister.snapshot with
  | none => simp [readable, found]
  | some blob => simp [readable, found, Option.filter_some, labelled blob found]

theorem snapshot_of_readable {blob : Snapshot σ} (read : persister.readable = some blob) :
    persister.snapshot = some blob :=
  (Option.filter_eq_some_iff.1 read).1

theorem startLog_ne_nil (persister : Persister α σ) : persister.startLog ≠ [] := by
  unfold startLog
  extract_lets log
  split_ifs with empty
  · simp
  · exact List.ne_nil_of_length_pos (by omega)

theorem startLog_tail (persister : Persister α σ) :
    persister.startLog.tail = ((persister.raftstate.map Prod.snd).getD []).tail := by
  cases saved : persister.raftstate with
  | some state =>
      by_cases empty : state.2 = []
      · simp [startLog, saved, empty]
      · simp [startLog, saved, empty]
  | none =>
      cases read : persister.readable with
      | none => simp [startLog, saved, read]
      | some blob => simp [startLog, saved, read]

/-- The sentinel of a new peer is the saved one, or has the term of the snapshot. -/
theorem mem_head?_startLog {slot : CommandTerm α} (first : slot ∈ persister.startLog.head?) :
    (∃ state ∈ persister.raftstate, slot ∈ state.2.head? ∨ state.2 = [] ∧ slot.term = 0) ∨
      slot.term = (persister.readable.map Snapshot.lastTerm).getD 0 := by
  cases saved : persister.raftstate with
  | some state =>
      refine Or.inl ⟨state, rfl, ?_⟩
      by_cases empty : state.2 = []
      · obtain rfl : ⟨none, 0⟩ = slot := by simpa [startLog, saved, empty] using first
        exact Or.inr ⟨empty, rfl⟩
      · simp only [startLog, saved, Option.map_some, Option.getD_some, Nat.lt_one_iff,
          List.length_eq_zero_iff, if_neg empty] at first
        exact Or.inl first
  | none =>
      right
      cases read : persister.readable with
      | none =>
          obtain rfl : ⟨none, 0⟩ = slot := by simpa [startLog, saved, read] using first
          rfl
      | some blob =>
          obtain rfl : ⟨none, blob.lastTerm⟩ = slot := by
            simpa [startLog, saved, read] using first
          rfl

end Persister

namespace Raft

variable {rf rf' : Raft α σ}

/-- A notification is only a number in a channel. -/
theorem notify_frame (rf : Raft α σ) (limit : Nat) :
    ∃ waiting, rf.notify limit = { rf with aeNotifyChan := waiting } := by
  unfold notify
  split
  · exact ⟨_, rfl⟩
  · exact ⟨rf.aeNotifyChan, rfl⟩

/-! ## RequestVote -/

/-- A peer that has the last slot `last` does not vote for a candidate whose log is behind. -/
def Behind (rf : Raft α σ) (args : RequestVoteArgs) : Prop :=
  args.lastLogTerm < rf.lastTerm ∨
    args.lastLogTerm = rf.lastTerm ∧ args.lastLogIndex < rf.getLastLogIndex

instance (rf : Raft α σ) (args : RequestVoteArgs) : Decidable (rf.Behind args) :=
  inferInstanceAs (Decidable (_ ∨ _))

/-- The tests `RequestVote` makes before it gives the vote. -/
def grants (rf : Raft α σ) (args : RequestVoteArgs) : Bool :=
  decide (rf.currentTerm < args.term ∧ ¬rf.Behind args ∨
    rf.currentTerm = args.term ∧ rf.votedFor = rf.me ∧ rf.lastTerm < args.lastLogTerm)

theorem requestVote_cases {args : RequestVoteArgs} {reply : RequestVoteReply}
    (handled : rf.requestVote args = some (rf', reply)) :
    rf' = rf ∧ reply.voteGranted = false ∨
    rf.currentTerm < args.term ∧ rf.Behind args ∧
      rf' = { rf with currentTerm := args.term }.persist ∧ reply.voteGranted = false ∨
    rf.currentTerm < args.term ∧ ¬rf.Behind args ∧ reply.voteGranted = true ∧
      (∃ waiting, rf' = { rf with
        currentTerm := args.term, leaderNum := args.candidateID
        aeNotifyChan := waiting }.persist) ∨
    rf.currentTerm = args.term ∧ rf.votedFor = rf.me ∧ rf.lastTerm < args.lastLogTerm ∧
      reply.voteGranted = true ∧ ∃ waiting, rf' = { rf with aeNotifyChan := waiting } := by
  unfold requestVote at handled
  split_ifs at handled with stale weak later
  · obtain ⟨rfl, rfl⟩ : rf = rf' ∧ _ = reply := by simpa using handled
    exact Or.inl ⟨rfl, rfl⟩
  · obtain ⟨rfl, rfl⟩ : rf = rf' ∧ _ = reply := by simpa using handled
    exact Or.inl ⟨rfl, rfl⟩
  · right
    extract_lets moved at handled
    split at handled
    · cases handled
    · rename_i last found
      have found' : rf.log.getLast? = some last := found
      have lastTerm : rf.lastTerm = last.term := by simp [Raft.lastTerm, found']
      by_cases older : args.lastLogTerm < last.term
      · rw [if_pos older] at handled
        obtain ⟨rfl, rfl⟩ : _ = rf' ∧ _ = reply := by simpa using handled
        exact Or.inl ⟨later, Or.inl (by rwa [lastTerm]), rfl, rfl⟩
      rw [if_neg older] at handled
      split at handled
      · rename_i shorter
        obtain ⟨rfl, rfl⟩ : _ = rf' ∧ _ = reply := by simpa using handled
        exact Or.inl ⟨later, Or.inr (by rwa [lastTerm]), rfl, rfl⟩
      · rename_i longer
        right; left
        simp only [grantVote, Option.some.injEq, Prod.mk.injEq] at handled
        obtain ⟨rfl, rfl⟩ := handled
        refine ⟨later, ?_, rfl, notify_frame _ 2⟩
        rintro (before | before)
        · exact older (by rwa [lastTerm] at before)
        · exact longer (by rwa [lastTerm] at before)
  · right; right; right
    simp only [grantVote, Option.some.injEq, Prod.mk.injEq] at handled
    obtain ⟨rfl, rfl⟩ := handled
    have sameTerm : rf.currentTerm = args.term := by omega
    refine ⟨sameTerm, ?_, ?_, rfl, notify_frame rf 2⟩
    · by_contra other
      exact stale (Or.inr ⟨sameTerm, other⟩)
    · by_contra older
      exact weak ⟨sameTerm, by omega⟩

theorem requestVote_grants {args : RequestVoteArgs} {reply : RequestVoteReply}
    (handled : rf.requestVote args = some (rf', reply)) (granted : reply.voteGranted = true) :
    rf.grants args = true := by
  simp only [grants, decide_eq_true_eq]
  rcases requestVote_cases handled with
    ⟨_, denied⟩ | ⟨_, _, _, denied⟩ | ⟨later, notBehind, _⟩ | ⟨sameTerm, own, newer, _⟩
  · simp [denied] at granted
  · simp [denied] at granted
  · exact Or.inl ⟨later, notBehind⟩
  · exact Or.inr ⟨sameTerm, own, newer⟩

/-! ## AppendEntry -/

/-- The term and the leader that `AppendEntry` goes on with. -/
theorem observeTerm_frame (rf : Raft α σ) (args : AppendEntryArgs α) :
    rf.observeTerm args = rf ∧ args.term ≤ rf.currentTerm ∨
    rf.currentTerm < args.term ∧ rf.observeTerm args =
      { rf with
        leaderNum := if rf.leaderNum = rf.me then args.leaderID else rf.leaderNum
        currentTerm := args.term }.persist := by
  unfold observeTerm
  by_cases later : rf.currentTerm < args.term
  · right
    rw [if_pos later]
    split_ifs
    · exact ⟨later, rfl⟩
    · exact ⟨later, rfl⟩
  · rw [if_neg later]
    exact Or.inl ⟨rfl, not_lt.1 later⟩

theorem appendEntry_cases {args : AppendEntryArgs α} {reply : AppendEntryReply}
    (handled : rf.appendEntry args = some (rf', reply)) :
    args.term < rf.currentTerm ∧ rf' = rf ∧ reply.success = false ∨
    rf.currentTerm ≤ args.term ∧ ((rf.observeTerm args).notify 3).checkAndAppend args
      { me := rf.me, term := rf.currentTerm } = some (rf', reply) := by
  unfold appendEntry at handled
  dsimp only at handled
  split_ifs at handled with stale
  · obtain ⟨rfl, rfl⟩ : rf = rf' ∧ _ = reply := by simpa using handled
    exact Or.inl ⟨stale, rfl, rfl⟩
  · exact Or.inr ⟨not_lt.1 stale, handled⟩

theorem checkAndAppend_cases {args : AppendEntryArgs α} {reply : AppendEntryReply} {me term : Int}
    (handled : rf.checkAndAppend args { me := me, term := term } = some (rf', reply)) :
    rf' = rf ∧ reply.success = false ∨
    rf' = rf ∧ args.prevLogIndex < rf.commitIndex ∧ reply.success = true ∧
      reply.commitIndex = rf.commitIndex ∨
    rf.commitIndex ≤ args.prevLogIndex ∧ args.prevLogIndex ≤ rf.getLastLogIndex ∧
      reply.success = true ∧ reply.commitIndex = 0 ∧
      (∃ entry, rf.slot (rf.getTrueIndex args.prevLogIndex) = some entry ∧
        entry.term = args.prevLogTerm) ∧
      ∃ rf₁, rf.followCommit args = some rf₁ ∧
        (args.entries = [] ∧ rf' = rf₁ ∨
          args.entries ≠ [] ∧ rf₁.writeEntries args = some rf') := by
  unfold checkAndAppend at handled
  by_cases short : rf.getLastLogIndex + 1 ≤ args.prevLogIndex
  · rw [if_pos short] at handled
    split at handled
    · cases handled
    · obtain ⟨rfl, rfl⟩ : rf = rf' ∧ _ = reply := by simpa using handled
      exact Or.inl ⟨rfl, rfl⟩
  rw [if_neg short] at handled
  split at handled
  · cases handled
  rename_i entry found
  by_cases conflict : entry.term ≠ args.prevLogTerm
  · rw [if_pos conflict] at handled
    obtain ⟨rfl, rfl⟩ : rf = rf' ∧ _ = reply := by simpa using handled
    exact Or.inl ⟨rfl, rfl⟩
  rw [if_neg conflict] at handled
  right
  by_cases ahead : args.prevLogIndex < rf.commitIndex
  · rw [if_pos ahead] at handled
    obtain ⟨rfl, rfl⟩ : rf = rf' ∧ _ = reply := by simpa using handled
    exact Or.inl ⟨rfl, ahead, rfl, rfl⟩
  rw [if_neg ahead] at handled
  right
  split at handled
  · cases handled
  rename_i rf₁ followed
  refine ⟨not_lt.1 ahead, by omega, ?_⟩
  by_cases heartbeat : args.entries = []
  · rw [if_pos heartbeat] at handled
    obtain ⟨rfl, rfl⟩ : rf₁ = rf' ∧ _ = reply := by simpa using handled
    exact ⟨rfl, rfl, ⟨entry, found, not_not.1 conflict⟩, rf₁, followed,
      Or.inl ⟨heartbeat, rfl⟩⟩
  · rw [if_neg heartbeat] at handled
    obtain ⟨rf₂, written, equal⟩ := Option.map_eq_some_iff.1 handled
    obtain ⟨rfl, rfl⟩ : rf₂ = rf' ∧ _ = reply := by simpa using equal
    exact ⟨rfl, rfl, ⟨entry, found, not_not.1 conflict⟩, rf₁, followed,
      Or.inr ⟨heartbeat, written⟩⟩

theorem deliver_frame {index : Int} (delivered : rf.deliver index = some rf') :
    ∃ commitIndex messages, rf' = { rf with
      commitIndex := commitIndex, applyCh := rf.applyCh ++ messages } := by
  unfold deliver at delivered
  split at delivered
  · cases delivered
  · split_ifs at delivered
    · exact ⟨_, _, (Option.some.inj delivered).symm⟩
    · exact ⟨rf.commitIndex, [], by simpa using (Option.some.inj delivered).symm⟩

theorem deliverSlots_frame {i : Int} {count : Nat}
    (delivered : rf.deliverSlots i count = some rf') :
    ∃ commitIndex messages, rf' = { rf with
      commitIndex := commitIndex, applyCh := rf.applyCh ++ messages } := by
  induction count generalizing rf i with
  | zero =>
      cases delivered
      exact ⟨_, [], by rw [List.append_nil]⟩
  | succ count ih =>
      rw [deliverSlots_succ] at delivered
      split at delivered
      · cases delivered
      · rename_i rf₁ first
        obtain ⟨_, messages, rfl⟩ := deliver_frame first
        obtain ⟨commitIndex, messages', rfl⟩ := ih delivered
        exact ⟨commitIndex, messages ++ messages', by rw [← List.append_assoc]⟩

theorem followCommit_frame {args : AppendEntryArgs α}
    (followed : rf.followCommit args = some rf') :
    ∃ commitIndex messages, rf' = { rf with
      commitIndex := commitIndex, applyCh := rf.applyCh ++ messages }.persist := by
  unfold followCommit at followed
  dsimp only at followed
  split_ifs at followed
  all_goals
    obtain ⟨rf₁, delivered, rfl⟩ := Option.map_eq_some_iff.1 followed
    obtain ⟨commitIndex, messages, rfl⟩ := deliverSlots_frame delivered
    exact ⟨commitIndex, messages, rfl⟩

theorem overwrite_frame {startInd startInd' : Int} {entries : List (CommandTerm α)}
    (written : rf.overwrite startInd entries = some (rf', startInd')) :
    ∃ log, rf' = { rf with log := log } := by
  induction entries generalizing rf startInd with
  | nil =>
      obtain ⟨rfl, _⟩ : rf = rf' ∧ _ := by simpa [overwrite] using written
      exact ⟨rf.log, rfl⟩
  | cons entry rest ih =>
      simp only [overwrite] at written
      split_ifs at written with committed
      · obtain ⟨rfl, _⟩ : rf = rf' ∧ _ := by simpa using written
        exact ⟨rf.log, rfl⟩
      · obtain ⟨log, rfl⟩ := ih written
        exact ⟨log, rfl⟩
      · obtain ⟨log, rfl⟩ := ih written
        exact ⟨log, rfl⟩

theorem cutTail_frame (rf : Raft α σ) (startInd : Int) :
    ∃ log, rf.cutTail startInd = { rf with log := log } := by
  unfold cutTail
  split
  · split_ifs
    · exact ⟨_, rfl⟩
    · exact ⟨rf.log, rfl⟩
  · exact ⟨rf.log, rfl⟩

theorem writeEntries_frame {args : AppendEntryArgs α}
    (written : rf.writeEntries args = some rf') :
    ∃ log, rf' = { rf with log := log }.persist := by
  unfold writeEntries at written
  dsimp only at written
  split_ifs at written
  · split at written
    · cases written
    · rename_i rf₁ startInd overwritten
      obtain ⟨log, rfl⟩ := overwrite_frame overwritten
      obtain ⟨log', frame⟩ := cutTail_frame { rf with log := log } startInd
      rw [frame] at written
      exact ⟨log', (Option.some.inj written).symm⟩
  · exact ⟨rf.log, (Option.some.inj written).symm⟩

/-- `AppendEntry` leaves everything but the notifications alone, or saves what it changes. -/
theorem appendEntry_frame {args : AppendEntryArgs α} {reply : AppendEntryReply}
    (handled : rf.appendEntry args = some (rf', reply)) :
    (∃ waiting, rf' = { rf with aeNotifyChan := waiting }) ∨
    ∃ term leader log commitIndex messages waiting, rf' =
      { rf with
        currentTerm := term, leaderNum := leader, log := log, commitIndex := commitIndex
        applyCh := rf.applyCh ++ messages, aeNotifyChan := waiting }.persist ∧
      (term = rf.currentTerm ∧ leader = rf.leaderNum ∨
        rf.currentTerm < args.term ∧ term = args.term ∧
          leader = if rf.leaderNum = rf.me then args.leaderID else rf.leaderNum) := by
  rcases appendEntry_cases handled with ⟨_, rfl, _⟩ | ⟨_, checked⟩
  · exact Or.inl ⟨rf'.aeNotifyChan, rfl⟩
  obtain ⟨waiting, notified⟩ := notify_frame (rf.observeTerm args) 3
  rw [notified] at checked
  have written : rf' = { rf.observeTerm args with aeNotifyChan := waiting } ∨
      ∃ log commitIndex messages, rf' = { rf.observeTerm args with
        log := log, commitIndex := commitIndex
        applyCh := (rf.observeTerm args).applyCh ++ messages
        aeNotifyChan := waiting }.persist := by
    rcases checkAndAppend_cases checked with
      ⟨rfl, _⟩ | ⟨rfl, _⟩ | ⟨_, _, _, _, _, rf₁, followed, ⟨_, rfl⟩ | ⟨_, written⟩⟩
    · exact Or.inl rfl
    · exact Or.inl rfl
    · obtain ⟨commitIndex, messages, rfl⟩ := followCommit_frame followed
      exact Or.inr ⟨_, commitIndex, messages, rfl⟩
    · obtain ⟨commitIndex, messages, rfl⟩ := followCommit_frame followed
      obtain ⟨log, rfl⟩ := writeEntries_frame written
      exact Or.inr ⟨log, commitIndex, messages, rfl⟩
  rcases observeTerm_frame rf args with ⟨same, _⟩ | ⟨later, moved⟩
  · rw [same] at written
    rcases written with rfl | ⟨_, _, _, rfl⟩
    · exact Or.inl ⟨waiting, rfl⟩
    · exact Or.inr ⟨_, _, _, _, _, waiting, rfl, Or.inl ⟨rfl, rfl⟩⟩
  · rw [moved] at written
    right
    rcases written with rfl | ⟨log, commitIndex, messages, rfl⟩
    · exact ⟨_, _, rf.log, rf.commitIndex, [], waiting, by simp [persist],
        Or.inr ⟨later, rfl, rfl⟩⟩
    · exact ⟨_, _, log, commitIndex, messages, waiting, rfl, Or.inr ⟨later, rfl, rfl⟩⟩

/-- `AppendEntry` moves to the term of the message and gives up a leadership of an earlier
one. -/
theorem appendEntry_role {args : AppendEntryArgs α} {reply : AppendEntryReply}
    (handled : rf.appendEntry args = some (rf', reply)) :
    rf'.me = rf.me ∧ rf'.peers = rf.peers ∧ rf'.matchIndex = rf.matchIndex ∧
      (rf'.currentTerm = rf.currentTerm ∧ rf'.leaderNum = rf.leaderNum ∨
        rf.currentTerm < args.term ∧ rf'.currentTerm = args.term ∧
          rf'.leaderNum = if rf.leaderNum = rf.me then args.leaderID else rf.leaderNum) := by
  rcases appendEntry_frame handled with ⟨_, rfl⟩ | ⟨_, _, _, _, _, _, rfl, moved⟩
  · exact ⟨rfl, rfl, rfl, Or.inl ⟨rfl, rfl⟩⟩
  · exact ⟨rfl, rfl, rfl, moved⟩

/-! ## Snapshots -/

theorem readSnapshotPersist_cases (rf : Raft α σ) (data : Option (Snapshot σ)) :
    rf.readSnapshotPersist data = rf ∨
    ∃ blob, data = some blob ∧ rf.lastIndexInSnapshot < blob.lastIndex ∧
      rf.readSnapshotPersist data =
        { rf with
          lastTermInSnapshot := blob.lastTerm
          log := [⟨none, blob.lastTerm⟩]
          lastIndexInSnapshot := blob.lastIndex
          commitIndex := blob.lastIndex
          applyCh := rf.applyCh ++ [⟨false, none, 0, some blob.state⟩]
          persister := ⟨rf.persister.raftstate, some blob⟩ } := by
  cases data with
  | none => exact Or.inl rfl
  | some blob =>
      by_cases old : blob.lastIndex ≤ rf.lastIndexInSnapshot
      · exact Or.inl (by simp [readSnapshotPersist, old])
      · exact Or.inr ⟨blob, rfl, not_le.1 old, by simp [readSnapshotPersist, old]⟩

theorem installSnapShot_cases {args : InstallSnapShotArgs σ} {reply : InstallSnapShotReply}
    (handled : rf.installSnapShot args = some (rf', reply)) :
    rf' = rf ∧ args.term < rf.currentTerm ∧ reply.errCode = 1 ∧ reply.term = rf.currentTerm ∧
      reply.value = 0 ∨
    rf' = rf ∧ rf.currentTerm ≤ args.term ∧ args.lastIncludedIndex ≤ rf.lastIndexInSnapshot ∧
      reply.errCode = 2 ∧ reply.value = rf.lastIndexInSnapshot ∨
    rf' = rf ∧ rf.currentTerm ≤ args.term ∧ rf.lastIndexInSnapshot < args.lastIncludedIndex ∧
      args.lastIncludedIndex ≤ rf.getLastLogIndex ∧ reply.errCode = 3 ∧
      (rf.slot (rf.getTrueIndex args.lastIncludedIndex)).map CommandTerm.term =
        some args.lastIncludedTerm ∨
    rf.installs args = true ∧ rf.currentTerm ≤ args.term ∧ reply.errCode = 0 ∧
      rf.lastIndexInSnapshot < args.lastIncludedIndex ∧
      (args.lastIncludedIndex ≤ rf.getLastLogIndex →
        (rf.slot (rf.getTrueIndex args.lastIncludedIndex)).map CommandTerm.term ≠
          some args.lastIncludedTerm) ∧
      ∃ blob, args.data = some blob ∧ args.lastIncludedIndex ≤ blob.lastIndex ∧
        rf' = { rf with
          lastTermInSnapshot := blob.lastTerm
          log := [⟨none, blob.lastTerm⟩]
          lastIndexInSnapshot := blob.lastIndex
          commitIndex := blob.lastIndex
          applyCh := rf.applyCh ++ [⟨false, none, 0, some blob.state⟩]
          persister := ⟨rf.persister.raftstate, some blob⟩ } := by
  unfold installSnapShot at handled
  extract_lets reply₀ kept read at handled
  by_cases stale : args.term < rf.currentTerm
  · rw [if_pos stale] at handled
    cases handled
    exact Or.inl ⟨rfl, stale, rfl, rfl, rfl⟩
  rw [if_neg stale] at handled
  right
  by_cases old : args.lastIncludedIndex ≤ rf.lastIndexInSnapshot
  · rw [if_pos old] at handled
    cases handled
    exact Or.inl ⟨rfl, not_lt.1 stale, old, rfl, rfl⟩
  rw [if_neg old] at handled
  right
  have outcome : kept = none ∨ kept = some true ∨ kept = some false := by
    rcases kept with _ | _ | _ <;> simp
  rcases outcome with panics | agrees | differs
  · simp [panics] at handled
  · simp only [agrees, Option.some.injEq, Prod.mk.injEq] at handled
    obtain ⟨rfl, rfl⟩ := handled
    left
    by_cases within : args.lastIncludedIndex ≤ rf.getLastLogIndex
    · refine ⟨rfl, not_lt.1 stale, not_le.1 old, within, rfl, ?_⟩
      simp only [kept, if_pos within, Option.map_eq_some_iff, decide_eq_true_eq] at agrees
      obtain ⟨entry, found, term⟩ := agrees
      simp [found, term]
    · simp [kept, within] at agrees
  · simp only [differs] at handled
    right
    have conflict : args.lastIncludedIndex ≤ rf.getLastLogIndex →
        (rf.slot (rf.getTrueIndex args.lastIncludedIndex)).map CommandTerm.term ≠
          some args.lastIncludedTerm := by
      intro within
      simp only [kept, if_pos within, Option.map_eq_some_iff, decide_eq_false_iff_not] at differs
      obtain ⟨entry, found, term⟩ := differs
      simpa [found] using term
    have outcome : read = rf ∨ _ := readSnapshotPersist_cases rf args.data
    rcases outcome with same | ⟨blob, data, _, installed⟩
    · rw [same, if_pos (not_le.1 old)] at handled
      cases handled
    · rw [show read = _ from installed] at handled
      split at handled
      · cases handled
      · rename_i label
        obtain ⟨rfl, rfl⟩ : _ = rf' ∧ reply₀ = reply := by simpa using handled
        refine ⟨?_, not_lt.1 stale, rfl, not_le.1 old, conflict, blob, data, not_lt.1 label, rfl⟩
        by_cases within : args.lastIncludedIndex ≤ rf.getLastLogIndex
        · simpa [installs, stale, old, within] using conflict within
        · simp [installs, stale, old, within]

theorem takeSnapshots_cases {state : σ} {index : Int}
    (taken : rf.takeSnapshots state index = some rf') :
    rf' = rf ∨
    ∃ entry log, 1 ≤ index - 1 ∧ rf.lastIndexInSnapshot < index - 1 ∧
      rf.slot (rf.getTrueIndex (index - 1)) = some entry ∧
      rf.truncate (index - 1) rf.lastIndexInSnapshot entry.term = some log ∧
      rf' = { rf with
        lastTermInSnapshot := entry.term
        lastIndexInSnapshot := index - 1
        log := log
        persister :=
          ⟨some (rf.currentTerm, log), some ⟨state, index - 1, entry.term⟩⟩ } := by
  unfold takeSnapshots at taken
  dsimp only at taken
  split_ifs at taken with early
  · exact Or.inl (Option.some.inj taken).symm
  · right
    split at taken
    · cases taken
    · rename_i entry found
      split at taken
      · cases taken
      · rename_i log truncated
        exact ⟨entry, log, by omega, by omega, found, truncated, (Option.some.inj taken).symm⟩

/-! ## Make -/

/-- Everything a new peer has, by what its `Persister` holds. -/
theorem make_eq (peers : Nat) (me : Int) (persister : Persister α σ)
    (applyCh : List (ApplyMsg α σ)) : make peers me persister applyCh =
      { peers := peers, me := me, leaderNum := -1
        currentTerm := (persister.raftstate.map Prod.fst).getD 0, votedFor := -1
        log := persister.startLog
        commitIndex := (persister.readable.map Snapshot.lastIndex).getD 0
        nextIndex := [], matchIndex := [], aeNotifyChan := 0
        applyCh := applyCh ++ (persister.readable.map fun blob =>
          ⟨false, none, 0, some blob.state⟩).toList
        lastIndexInSnapshot := (persister.readable.map Snapshot.lastIndex).getD 0
        lastTermInSnapshot := (persister.readable.map Snapshot.lastTerm).getD 0
        persister := persister } := by
  obtain ⟨raftstate, snapshot⟩ := persister
  unfold make
  extract_lets fresh restored filled
  have read : fresh.readSnapshotPersist snapshot =
      { fresh with
        lastTermInSnapshot :=
          ((Persister.readable ⟨raftstate, snapshot⟩).map Snapshot.lastTerm).getD 0
        log := ((Persister.readable ⟨raftstate, snapshot⟩).map fun blob =>
          [⟨none, blob.lastTerm⟩]).getD []
        lastIndexInSnapshot :=
          ((Persister.readable ⟨raftstate, snapshot⟩).map Snapshot.lastIndex).getD 0
        commitIndex := ((Persister.readable ⟨raftstate, snapshot⟩).map Snapshot.lastIndex).getD 0
        applyCh := applyCh ++ ((Persister.readable ⟨raftstate, snapshot⟩).map fun blob =>
          ⟨false, none, 0, some blob.state⟩).toList } := by
    cases snapshot with
    | none => simp [readSnapshotPersist, Persister.readable, fresh]
    | some blob =>
        by_cases fits : 0 < blob.lastIndex
        · simp [readSnapshotPersist, Persister.readable, Option.filter_some, fresh, fits]
        · simp [readSnapshotPersist, Persister.readable, Option.filter_some, fresh, fits]
  -- A saved term and log replace what the snapshot left there.
  cases raftstate
  all_goals
    simp only [filled, restored, readPersist, read]
    split_ifs with empty
    · simp [Persister.startLog, empty, fresh]
    · simp [Persister.startLog, empty, fresh]

/-- A new peer leads nobody, and has delivered what its snapshot covers. -/
theorem make_frame (peers : Nat) (me : Int) (persister : Persister α σ)
    (applyCh : List (ApplyMsg α σ)) :
    ∃ currentTerm log lastIndex lastTerm messages persister', make peers me persister applyCh =
      { peers := peers, me := me, leaderNum := -1, currentTerm := currentTerm, votedFor := -1
        log := log, commitIndex := lastIndex, nextIndex := [], matchIndex := []
        aeNotifyChan := 0, applyCh := applyCh ++ messages, lastIndexInSnapshot := lastIndex
        lastTermInSnapshot := lastTerm, persister := persister' } ∧
      ∀ message ∈ messages, message.commandValid = false :=
  ⟨_, _, _, _, _, _, make_eq peers me persister applyCh, by simp⟩

/-! ## Replies to a leader -/

theorem snapShotReply_cases (rf : Raft α σ) (ind : Nat) (args : InstallSnapShotArgs σ)
    (reply : InstallSnapShotReply) :
    reply.errCode = 1 ∧ rf.snapShotReply ind args reply =
      { rf with currentTerm := reply.term, leaderNum := reply.value } ∨
    reply.errCode ≠ 1 ∧ ∃ nextIndex matchIndex, rf.snapShotReply ind args reply =
      { rf with nextIndex := nextIndex, matchIndex := matchIndex } := by
  unfold snapShotReply
  by_cases stale : reply.errCode = 1
  · exact Or.inl ⟨stale, by rw [if_pos stale]⟩
  · refine Or.inr ⟨stale, ?_⟩
    rw [if_neg stale]
    split_ifs
    · exact ⟨_, _, rfl⟩
    · exact ⟨_, _, rfl⟩
    · exact ⟨rf.nextIndex, rf.matchIndex, rfl⟩

/-- The match index that the end of a snapshot transfer sets. -/
theorem snapShotReply_progress (rf : Raft α σ) (ind : Nat) (args : InstallSnapShotArgs σ)
    (reply : InstallSnapShotReply) :
    (rf.snapShotReply ind args reply).matchIndex = rf.matchIndex ∨
    reply.errCode = 2 ∧
      (rf.snapShotReply ind args reply).matchIndex = rf.matchIndex.set ind reply.value ∨
    (reply.errCode = 3 ∨ reply.errCode = 0) ∧
      (rf.snapShotReply ind args reply).matchIndex =
        rf.matchIndex.set ind args.lastIncludedIndex := by
  unfold snapShotReply
  split_ifs with stale old done
  · exact Or.inl rfl
  · exact Or.inr (Or.inl ⟨old, rfl⟩)
  · exact Or.inr (Or.inr ⟨done, rfl⟩)
  · exact Or.inl rfl

/-- The index up to which a follower is taken to match after a success: the end of the message,
or one before the next index if that is further. -/
def reachedBy (next : Int) (appEn : AppendEntryArgs α) : Int :=
  max next (appEn.prevLogIndex + appEn.entries.length + 1) - 1

theorem recordMatch_cases {ind : Nat} {appEn : AppendEntryArgs α} {reply : AppendEntryReply}
    {goesOn : Bool} (recorded : rf.recordMatch ind appEn reply = some (rf', goesOn)) :
    reply.commitIndex ≠ 0 ∧ goesOn = true ∧ rf' = rf.setProgress ind reply.commitIndex ∨
    reply.commitIndex = 0 ∧ ∃ next matched, rf.nextIndex[ind]? = some next ∧
      rf.matchIndex[ind]? = some matched ∧
      (goesOn = true ∧ rf' = rf.setProgress ind (reachedBy next appEn) ∨
        goesOn = false ∧ matched = reachedBy next appEn ∧
          rf' = { rf with nextIndex := rf.nextIndex.set ind (reachedBy next appEn + 1) }) := by
  unfold recordMatch at recorded
  split at recorded
  · rename_i told
    cases recorded
    exact Or.inl ⟨told, rfl, rfl⟩
  · rename_i untold
    refine Or.inr ⟨not_not.1 untold, ?_⟩
    split at recorded
    · rename_i next matched foundNext foundMatch
      refine ⟨next, matched, foundNext, foundMatch, ?_⟩
      extract_lets sent next' at recorded
      have reached : next' - 1 = reachedBy next appEn := by
        simp only [next', sent, reachedBy]
        split_ifs <;> omega
      have reached' : next' = reachedBy next appEn + 1 := by omega
      rw [reached] at recorded
      split at recorded
      · cases recorded
        exact Or.inl ⟨rfl, rfl⟩
      · rename_i same
        cases recorded
        exact Or.inr ⟨rfl, not_not.1 same, by rw [reached']⟩
    · cases recorded

theorem recordMatch_frame {ind : Nat} {appEn : AppendEntryArgs α} {reply : AppendEntryReply}
    {goesOn : Bool} (recorded : rf.recordMatch ind appEn reply = some (rf', goesOn)) :
    ∃ nextIndex matchIndex, rf' = { rf with
      nextIndex := nextIndex, matchIndex := matchIndex } := by
  rcases recordMatch_cases recorded with
    ⟨_, _, rfl⟩ | ⟨_, _, _, _, _, ⟨_, rfl⟩ | ⟨_, _, rfl⟩⟩
  · exact ⟨_, _, rfl⟩
  · exact ⟨_, _, rfl⟩
  · exact ⟨_, rf.matchIndex, rfl⟩

/-- The match index that a success sets: the commit index the follower told, or the index it is
taken to have reached. -/
def newMatch (rf : Raft α σ) (ind : Nat) (appEn : AppendEntryArgs α) (reply : AppendEntryReply) :
    Option Int :=
  if reply.commitIndex ≠ 0 then some reply.commitIndex
  else rf.nextIndex[ind]?.map fun next => reachedBy next appEn

theorem recordMatch_progress {ind : Nat} {appEn : AppendEntryArgs α} {reply : AppendEntryReply}
    {goesOn : Bool} (recorded : rf.recordMatch ind appEn reply = some (rf', goesOn)) :
    (∃ m, rf.newMatch ind appEn reply = some m ∧ rf' = rf.setProgress ind m) ∨
      goesOn = false ∧ ∃ nextIndex, rf' = { rf with nextIndex := nextIndex } := by
  rcases recordMatch_cases recorded with
    ⟨told, _, rfl⟩ | ⟨zero, next, _, foundNext, _, ⟨_, rfl⟩ | ⟨stops, _, rfl⟩⟩
  · exact Or.inl ⟨_, by rw [newMatch, if_pos told], rfl⟩
  · exact Or.inl ⟨_, by rw [newMatch, if_neg (not_not.2 zero), foundNext]; rfl, rfl⟩
  · exact Or.inr ⟨stops, _, rfl⟩

theorem commitSlots_frame (rf : Raft α σ) (count : Nat) :
    ∃ commitIndex messages, rf.commitSlots count = { rf with
      commitIndex := commitIndex, applyCh := rf.applyCh ++ messages } := by
  induction count generalizing rf with
  | zero => exact ⟨rf.commitIndex, [], by rw [List.append_nil]; rfl⟩
  | succ count ih =>
      rw [commitSlots_succ]
      split
      · exact ⟨rf.commitIndex, [], by rw [List.append_nil]⟩
      · split
        · exact ⟨rf.commitIndex, [], by rw [List.append_nil]⟩
        · rename_i rf₁ delivered
          obtain ⟨_, messages, rfl⟩ := deliver_frame delivered
          obtain ⟨commitIndex, messages', frame⟩ := ih { rf with
            commitIndex := _, applyCh := rf.applyCh ++ messages }
          exact ⟨commitIndex, messages ++ messages', by rw [frame, ← List.append_assoc]⟩

theorem leaderCommit_frame {currComInd : Int} (committed : rf.leaderCommit currComInd = some rf') :
    ∃ commitIndex nextIndex messages, rf' = { rf with
      commitIndex := commitIndex, nextIndex := nextIndex
      applyCh := rf.applyCh ++ messages } := by
  have same : ∃ commitIndex nextIndex messages, rf = { rf with
      commitIndex := commitIndex, nextIndex := nextIndex
      applyCh := rf.applyCh ++ messages } := ⟨rf.commitIndex, rf.nextIndex, [], by simp⟩
  unfold leaderCommit at committed
  split at committed
  · cases committed
    exact same
  · split at committed
    · cases committed
    · rename_i index _
      split at committed
      · cases committed
        exact same
      · obtain ⟨commitIndex, messages, frame⟩ :=
          commitSlots_frame rf (index - rf.commitIndex).toNat
        rw [frame] at committed
        dsimp only at committed
        split at committed
        · cases committed
        · split at committed
          · exact ⟨commitIndex, _, messages, (Option.some.inj committed).symm⟩
          · exact ⟨commitIndex, rf.nextIndex, messages, (Option.some.inj committed).symm⟩

/-- A successful reply to a message with entries sets the match index; the goroutine goes on with
another message if that is short of where it started, and with the commit rule otherwise. -/
theorem onSuccess_cases {sender : Sender n α σ} {reply : AppendEntryReply} {next : Next α}
    (handled : rf.onSuccess sender reply = some (rf', next)) :
    sender.appEn.entries = [] ∧ rf' = rf ∧ next = .done ∨
    sender.appEn.entries ≠ [] ∧ ∃ rf₁ goesOn,
      rf.recordMatch sender.ind sender.appEn reply = some (rf₁, goesOn) ∧
      (rf' = rf₁ ∧ next = .done ∨
        ∃ currComInd, rf₁.matchIndex[sender.ind.val]? = some currComInd ∧ goesOn = true ∧
          (rf' = rf₁ ∧ currComInd < sender.prevLogIndex ∧ (∃ appEn,
              rf₁.nextMessage sender reply currComInd = some (some appEn) ∧
              next = .retry appEn rf₁.currentTerm) ∨
            next = .done ∧ sender.prevLogIndex ≤ currComInd ∧
              rf₁.leaderCommit currComInd = some rf')) := by
  unfold onSuccess at handled
  by_cases heartbeat : sender.appEn.entries = []
  · rw [if_pos heartbeat] at handled
    obtain ⟨rfl, rfl⟩ : rf = rf' ∧ _ = next := by simpa using handled
    exact Or.inl ⟨heartbeat, rfl, rfl⟩
  rw [if_neg heartbeat] at handled
  refine Or.inr ⟨heartbeat, ?_⟩
  split at handled
  · cases handled
  · rename_i rf₁ recorded
    obtain ⟨rfl, rfl⟩ : rf₁ = rf' ∧ _ = next := by simpa using handled
    exact ⟨rf₁, false, recorded, Or.inl ⟨rfl, rfl⟩⟩
  · rename_i rf₁ recorded
    refine ⟨rf₁, true, recorded, ?_⟩
    split at handled
    · cases handled
    · rename_i currComInd matched
      split at handled
      · rename_i short
        obtain ⟨message, built, equal⟩ := Option.map_eq_some_iff.1 handled
        cases message with
        | none =>
            obtain ⟨rfl, rfl⟩ : rf₁ = rf' ∧ _ = next := by simpa using equal
            exact Or.inl ⟨rfl, rfl⟩
        | some appEn =>
            obtain ⟨rfl, rfl⟩ : rf₁ = rf' ∧ _ = next := by simpa using equal
            exact Or.inr ⟨currComInd, matched, rfl, Or.inl ⟨rfl, short, appEn, built, rfl⟩⟩
      · rename_i reached
        obtain ⟨rf₂, committed, equal⟩ := Option.map_eq_some_iff.1 handled
        obtain ⟨rfl, rfl⟩ : rf₂ = rf' ∧ _ = next := by simpa using equal
        exact Or.inr ⟨currComInd, matched, rfl, Or.inr ⟨rfl, not_lt.1 reached, committed⟩⟩

/-- A rejection ends the leadership or the goroutine, or moves the next index back; below the
snapshot the goroutine sends that instead of an entry. -/
theorem onReject_cases {sender : Sender n α σ} {reply : AppendEntryReply} {next : Next α}
    (handled : rf.onReject sender reply = some (rf', next)) :
    next = .done ∧ (∃ waiting, rf' = { rf with leaderNum := -1, aeNotifyChan := waiting }) ∨
    next = .done ∧ rf' = rf ∨
    reply.term ≤ sender.appEnTerm ∧ ∃ prevlog, rf.backUp sender reply = some prevlog ∧
      rf' = { rf with nextIndex := rf.nextIndex.set sender.ind (prevlog + 1) } ∧
      (prevlog < rf.lastIndexInSnapshot ∧ next = .snapshot ∨
        rf.lastIndexInSnapshot ≤ prevlog ∧ rf'.repairMessage sender prevlog = some next) := by
  unfold onReject at handled
  split at handled
  · left
    obtain ⟨rfl, rfl⟩ : _ = rf' ∧ _ = next := by simpa using handled
    exact ⟨rfl, notify_frame _ 2⟩
  · rename_i notLater
    right
    split at handled
    · cases handled
    · split at handled
      · obtain ⟨rfl, rfl⟩ : rf = rf' ∧ _ = next := by simpa using handled
        exact Or.inl ⟨rfl, rfl⟩
      · right
        refine ⟨not_lt.1 notLater, ?_⟩
        split at handled
        · cases handled
        · rename_i prevlog found
          refine ⟨prevlog, found, ?_⟩
          dsimp only at handled
          split at handled
          · cases handled
          · split at handled
            · rename_i below
              obtain ⟨rfl, rfl⟩ : _ = rf' ∧ _ = next := by simpa using handled
              exact ⟨rfl, Or.inl ⟨below, rfl⟩⟩
            · rename_i above
              obtain ⟨built, repaired, equal⟩ := Option.map_eq_some_iff.1 handled
              obtain ⟨rfl, rfl⟩ : _ = rf' ∧ built = next := by simpa using equal
              exact ⟨rfl, Or.inr ⟨not_lt.1 above, repaired⟩⟩

/-- Whatever the reply is, a goroutine of the leader writes no log and no term. -/
theorem onReply_frame {sender : Sender n α σ} {reply : AppendEntryReply} {next : Next α}
    (handled : rf.onReply sender reply = some (rf', next)) :
    ∃ leaderNum commitIndex nextIndex matchIndex waiting messages,
      (leaderNum = rf.leaderNum ∨ leaderNum = -1) ∧
      rf' = { rf with
        leaderNum := leaderNum, commitIndex := commitIndex, nextIndex := nextIndex
        matchIndex := matchIndex, aeNotifyChan := waiting
        applyCh := rf.applyCh ++ messages } := by
  unfold onReply at handled
  split at handled
  · rcases onSuccess_cases handled with ⟨_, rfl, _⟩ |
      ⟨_, rf₁, _, recorded, ⟨rfl, _⟩ | ⟨_, _, _, ⟨rfl, _⟩ | ⟨_, _, committed⟩⟩⟩
    · exact ⟨_, _, _, _, _, [], Or.inl rfl, by rw [List.append_nil]⟩
    · obtain ⟨_, _, rfl⟩ := recordMatch_frame recorded
      exact ⟨_, _, _, _, _, [], Or.inl rfl, by rw [List.append_nil]⟩
    · obtain ⟨_, _, rfl⟩ := recordMatch_frame recorded
      exact ⟨_, _, _, _, _, [], Or.inl rfl, by rw [List.append_nil]⟩
    · obtain ⟨_, _, rfl⟩ := recordMatch_frame recorded
      obtain ⟨_, _, messages, rfl⟩ := leaderCommit_frame committed
      exact ⟨_, _, _, _, _, messages, Or.inl rfl, rfl⟩
  · rcases onReject_cases handled with ⟨_, _, rfl⟩ | ⟨_, rfl⟩ | ⟨_, _, _, rfl, _⟩
    · exact ⟨_, _, _, _, _, [], Or.inr rfl, by rw [List.append_nil]⟩
    · exact ⟨_, _, _, _, _, [], Or.inl rfl, by rw [List.append_nil]⟩
    · exact ⟨_, _, _, _, _, [], Or.inl rfl, by rw [List.append_nil]⟩

/-- When a goroutine sends again: after a success an entry, after a rejection of its own term an
entry or, if the search has reached the snapshot, the snapshot. -/
theorem onReply_goesOn {sender : Sender n α σ} {reply : AppendEntryReply} {next : Next α}
    (handled : rf.onReply sender reply = some (rf', next)) (goesOn : next ≠ .done) :
    reply.success = true ∧ next ≠ .snapshot ∨
    reply.success = false ∧ reply.term ≤ sender.appEnTerm ∧
      ∃ prevlog, rf.backUp sender reply = some prevlog ∧
        (next = .snapshot → prevlog < rf.lastIndexInSnapshot) := by
  unfold onReply at handled
  split at handled
  · rename_i success
    refine Or.inl ⟨success, ?_⟩
    rcases onSuccess_cases handled with ⟨_, _, done⟩ |
      ⟨_, rf₁, _, _, ⟨_, done⟩ | ⟨_, _, _, ⟨_, _, _, _, retry⟩ | ⟨done, _⟩⟩⟩
    · exact absurd done goesOn
    · exact absurd done goesOn
    · simp [retry]
    · exact absurd done goesOn
  · rename_i rejected
    refine Or.inr ⟨by simpa using rejected, ?_⟩
    rcases onReject_cases handled with ⟨done, _⟩ | ⟨done, _⟩ |
      ⟨current, prevlog, found, _, ⟨below, _⟩ | ⟨_, built⟩⟩
    · exact absurd done goesOn
    · exact absurd done goesOn
    · exact ⟨current, prevlog, found, fun _ => below⟩
    · refine ⟨current, prevlog, found, ?_⟩
      rintro rfl
      unfold repairMessage at built
      split at built
      · cases built
      · split at built <;> cases built

theorem startLeader_frame {cache : TermCache} (started : rf.startLeader = some (rf', cache)) :
    rf' = { rf with
      matchIndex := List.replicate rf.peers 0
      nextIndex := List.replicate rf.peers (rf.getLastLogIndex + 1) } := by
  obtain ⟨_, _, equal⟩ := Option.map_eq_some_iff.1 started
  exact (congrArg Prod.fst equal).symm

theorem startAppend_frame {command : α} {curTerm index : Int}
    (appended : rf.startAppend command curTerm = some (rf', index)) :
    index = rf.getLastLogIndex + 1 ∧ rf' = { rf with
      log := rf.log ++ [CommandTerm.mk (some command) curTerm]
      matchIndex := rf.matchIndex.set rf.me.toNat index }.persist := by
  unfold startAppend at appended
  dsimp only at appended
  split at appended
  · simp only [Option.some.injEq, Prod.mk.injEq] at appended
    obtain ⟨rfl, rfl⟩ := appended
    refine ⟨?_, rfl⟩
    simp only [getNameIndex, getLastLogIndex, List.length_append, List.length_singleton]
    push_cast
    omega
  · cases appended

end Raft

end Mit6824
