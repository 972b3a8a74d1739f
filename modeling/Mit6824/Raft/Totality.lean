import Mit6824.Raft.Stream

/-!
# The log window, and handlers that never panic

In one incarnation that starts on an empty `Persister`, the slots of a peer are always those of
some whole log above the snapshot, and only the sentinel has no command (`Raft.Filled`). From that
every index the handlers compute is in range, whatever the message: an index below the snapshot is
clamped to the sentinel, and one beyond the log is answered before a slot is read. So the
handlers, the calls of the service and the commit loop of the leader have a result in every state
(`Raft.Total`).
-/

namespace Mit6824

open Consensus

variable {n : Nat} {α σ : Type}

/-- Every entry has a command. -/
def HasCommands (entries : List (CommandTerm α)) : Prop :=
  ∀ entry ∈ entries, entry.command.isSome = true

/-- What stands behind `b` after a message with entries was there or is one of them. -/
theorem mem_drop_appended {l entries : List (CommandTerm α)} {b p : Nat} (le : b ≤ p)
    (bound : p ≤ l.length) {entry : CommandTerm α}
    (member : entry ∈ (appended l p entries).drop b) :
    entry ∈ l.drop b ∨ entry ∈ entries := by
  have written : entry ∈ (overwritten l p entries).drop b := by
    unfold appended at member
    split_ifs at member
    · rw [List.drop_take] at member
      exact List.mem_of_mem_take member
    · exact member
  rw [overwritten, List.append_assoc, List.drop_append_of_le_length (by simp; omega)] at written
  rcases List.mem_append.1 written with front | rest
  · rw [List.drop_take] at front
    exact Or.inl (List.mem_of_mem_take front)
  · rcases List.mem_append.1 rest with new | behind
    · exact Or.inr new
    · obtain ⟨d, equal⟩ : ∃ d, p + entries.length = b + d := ⟨p + entries.length - b, by omega⟩
      rw [equal, ← List.drop_drop] at behind
      exact Or.inl (List.mem_of_mem_drop behind)

namespace Raft

variable {rf rf' : Raft α σ} {l : List (CommandTerm α)}

/-! ## The window -/

/-- The shape of a peer's log. -/
structure WellFormed (rf : Raft α σ) : Prop where
  nonempty : rf.log ≠ []
  base : rf.lastIndexInSnapshot ≤ rf.commitIndex
  commit : rf.commitIndex ≤ rf.getLastLogIndex
  sentinel : ∀ slot ∈ rf.log.head?, slot.term = rf.lastTermInSnapshot
  commands : HasCommands rf.log.tail

/-- The peer stands for a whole log with commands above the snapshot. -/
structure Filled (rf : Raft α σ) (l : List (CommandTerm α)) : Prop where
  stands : rf.Stands l
  commands : HasCommands (l.drop rf.lastIndexInSnapshot.toNat)

namespace Filled

theorem wellFormed (filled : rf.Filled l) : rf.WellFormed := by
  obtain ⟨stands, commands⟩ := filled
  obtain ⟨sentinel, slots, term⟩ := stands.holds.slots
  refine ⟨stands.holds.log_ne_nil, stands.base, ?_, ?_, ?_⟩
  · rw [stands.holds.getLastLogIndex]
    exact stands.commit
  · intro slot first
    rw [slots, List.head?_cons, Option.mem_some] at first
    rw [← first, term, stands.lastTerm]
  · rw [slots]
    exact commands

theorem boot (peers : Nat) (me : Int) (applyCh : List (ApplyMsg α σ)) :
    (make peers me (makePersister α σ) applyCh).Filled [] :=
  ⟨stands_boot peers me applyCh, by simp [HasCommands]⟩

theorem sameLog (filled : rf.Filled l) (same : rf.SameLog rf') : rf'.Filled l := by
  refine ⟨filled.stands.congr same.base same.lastTerm same.log same.snapshot same.commit.ge ?_, ?_⟩
  · rw [same.commit]
    exact filled.stands.commit
  · rw [same.base]
    exact filled.commands

theorem appendEntry (filled : rf.Filled l) {args : AppendEntryArgs α} {reply : AppendEntryReply}
    (commands : HasCommands args.entries)
    (handled : rf.appendEntry args = some (rf', reply)) : ∃ l', rf'.Filled l' := by
  have below := filled.stands.base
  have base : rf'.lastIndexInSnapshot = rf.lastIndexInSnapshot := by
    rcases filled.stands.window.appendEntry handled with ⟨_, rfl, _⟩ | ⟨_, _, base, _⟩
    · rfl
    · exact base
  rcases filled.stands.appendEntry handled with
    ⟨_, rfl, _⟩ | ⟨_, _, ⟨stands, _⟩ | ⟨p, _, _, committed, bound, _, _, _, _, _, _, stands⟩⟩
  · exact ⟨l, filled⟩
  · exact ⟨l, stands, base ▸ filled.commands⟩
  · refine ⟨_, stands, ?_⟩
    rw [base]
    intro entry member
    split_ifs at member
    · exact filled.commands entry member
    · rcases mem_drop_appended (by omega) bound member with old | new
      · exact filled.commands entry old
      · exact commands entry new

/-- A peer with an installed snapshot stands for anything that ends in its label. -/
theorem installed (rf : Raft α σ) {blob : Snapshot σ} {messages : List (ApplyMsg α σ)}
    {raftstate : Option (Int × List (CommandTerm α))} (positive : 0 < blob.lastIndex) :
    ∃ l', Filled { rf with
      lastTermInSnapshot := blob.lastTerm
      log := [⟨none, blob.lastTerm⟩]
      lastIndexInSnapshot := blob.lastIndex
      commitIndex := blob.lastIndex
      applyCh := rf.applyCh ++ messages
      persister := ⟨raftstate, some blob⟩ } l' := by
  refine ⟨List.replicate blob.lastIndex.toNat ⟨none, blob.lastTerm⟩, .installed rf ?_ ?_, ?_⟩
  · rw [List.length_replicate]
    omega
  · have some : blob.lastIndex.toNat ≠ 0 := by omega
    simp [lastTermOf, List.getLast?_replicate, some]
  · simp [HasCommands]

theorem onReply (filled : rf.Filled l) {sender : Sender n α σ} {reply : AppendEntryReply}
    {next : Next α} (handled : rf.onReply sender reply = some (rf', next)) : rf'.Filled l := by
  have nonneg := filled.stands.commit_nonneg
  obtain ⟨_, k', _, _, _, lower, upper, _, rfl⟩ :=
    filled.stands.window.onReply (Int.toNat_of_nonneg nonneg).symm handled
  have rises : rf.commitIndex ≤ (k' : Int) := by omega
  exact ⟨filled.stands.congr rfl rfl rfl rfl rises (Int.ofNat_le.2 upper), filled.commands⟩

theorem startAppend (filled : rf.Filled l) {command : α} {curTerm index : Int}
    (appended : rf.startAppend command curTerm = some (rf', index)) :
    rf'.Filled (l ++ [⟨some command, curTerm⟩]) := by
  have stands := filled.stands.startAppend appended
  obtain ⟨_, rfl⟩ := startAppend_frame appended
  refine ⟨stands, fun entry member => ?_⟩
  simp only [persist] at member
  rw [List.drop_append_of_le_length filled.stands.holds.within] at member
  rcases List.mem_append.1 member with old | new
  · exact filled.commands entry old
  · rw [List.mem_singleton.1 new]
    rfl

theorem takeSnapshots (filled : rf.Filled l) {state : σ} {index : Int}
    (delivered : index ≤ rf.commitIndex) (taken : rf.takeSnapshots state index = some rf') :
    rf'.Filled l := by
  refine ⟨filled.stands.takeSnapshots delivered taken, ?_⟩
  rcases filled.stands.window.takeSnapshots delivered taken with rfl | ⟨k, _, above, _, _, _, rfl⟩
  · exact filled.commands
  · intro entry member
    obtain ⟨d, equal⟩ : ∃ d, k = rf.lastIndexInSnapshot.toNat + d :=
      ⟨k - rf.lastIndexInSnapshot.toNat, by omega⟩
    simp only [Int.toNat_natCast, equal, ← List.drop_drop] at member
    exact filled.commands entry (List.mem_of_mem_drop member)

end Filled

/-! ## Reading the log -/

/-- An index that is not beyond the log leads to a slot. -/
theorem Holds.exists_slot (holds : rf.Holds l) {index : Int} (within : index ≤ rf.getLastLogIndex) :
    ∃ entry, rf.slot (rf.getTrueIndex index) = some entry := by
  rcases le_or_gt index rf.lastIndexInSnapshot with below | above
  · obtain ⟨entry, found, _⟩ := holds.slot_below below
    exact ⟨entry, found⟩
  · have nonneg := holds.nonneg
    rw [holds.getLastLogIndex] at within
    obtain ⟨k, rfl⟩ : ∃ k : Nat, index = k := ⟨index.toNat, by omega⟩
    obtain ⟨entry, found, _⟩ := holds.slot_at above.le (by omega)
    exact ⟨entry, found⟩

/-- Entries with commands are always written. -/
theorem overwrite_isSome (rf : Raft α σ) (startInd : Int) {entries : List (CommandTerm α)}
    (commands : HasCommands entries) : (rf.overwrite startInd entries).isSome = true := by
  induction entries generalizing rf startInd with
  | nil => rfl
  | cons entry rest ih =>
      have first : entry.command.isNone = false := by
        rw [← Option.not_isSome, commands entry List.mem_cons_self]
        rfl
      simp only [overwrite, first, Bool.false_eq_true, if_false]
      split_ifs
      · rfl
      · exact ih _ _ fun entry member => commands entry (List.mem_cons_of_mem _ member)
      · exact ih _ _ fun entry member => commands entry (List.mem_cons_of_mem _ member)

theorem writeEntries_isSome (rf : Raft α σ) {args : AppendEntryArgs α}
    (commands : HasCommands args.entries) : (rf.writeEntries args).isSome = true := by
  simp only [writeEntries]
  split_ifs
  · obtain ⟨⟨rf', startInd⟩, written⟩ :=
      Option.isSome_iff_exists.1 (rf.overwrite_isSome (rf.getTrueIndex (args.prevLogIndex + 1))
        commands)
    rw [written]
    rfl
  · rfl

theorem Window.requestVote_isSome (window : rf.Window l) (args : RequestVoteArgs) :
    (rf.requestVote args).isSome = true := by
  obtain ⟨last, found⟩ : ∃ last,
      ({ rf with currentTerm := args.term }.persist).log.getLast? = some last :=
    ⟨_, List.getLast?_eq_some_getLast window.holds.log_ne_nil⟩
  simp only [requestVote, found, apply_ite Option.isSome, Option.isSome_some, ite_self]

theorem Window.checkAndAppend_isSome (window : rf.Window l) {args : AppendEntryArgs α}
    (reply : AppendEntryReply) (commands : HasCommands args.entries) :
    (rf.checkAndAppend args reply).isSome = true := by
  obtain ⟨last, found⟩ : ∃ last, rf.log.getLast? = some last :=
    ⟨_, List.getLast?_eq_some_getLast window.holds.log_ne_nil⟩
  unfold checkAndAppend
  by_cases beyond : rf.getLastLogIndex + 1 ≤ args.prevLogIndex
  · rw [if_pos beyond, found]
    rfl
  · rw [if_neg beyond]
    obtain ⟨entry, slot⟩ := window.holds.exists_slot (show args.prevLogIndex ≤ _ by omega)
    rw [slot]
    dsimp only
    by_cases conflict : entry.term ≠ args.prevLogTerm
    · rw [if_pos conflict]
      rfl
    rw [if_neg conflict]
    by_cases behind : args.prevLogIndex < rf.commitIndex
    · rw [if_pos behind]
      rfl
    rw [if_neg behind]
    -- From here on the message starts between the commit index and the end of the log.
    have nonneg := window.commit_nonneg
    have base := window.base
    have last := window.holds.getLastLogIndex
    have prev : args.prevLogIndex = args.prevLogIndex.toNat := by omega
    have followed := followCommit_spec window.holds (k := rf.commitIndex.toNat) (by omega)
      (by omega) prev (by omega) (by omega)
    rw [followed]
    dsimp only
    split_ifs
    · rfl
    · rw [Option.isSome_map]
      exact writeEntries_isSome _ commands

theorem Window.appendEntry_isSome (window : rf.Window l) {args : AppendEntryArgs α}
    (commands : HasCommands args.entries) : (rf.appendEntry args).isSome = true := by
  unfold Raft.appendEntry
  dsimp only
  split_ifs with stale
  · rfl
  · obtain ⟨_, _, _, observed, _⟩ := observe_frame rf args (not_lt.1 stale)
    rw [observed]
    refine Window.checkAndAppend_isSome (l := l) ?_ _ commands
    exact window.congr rfl rfl le_rfl window.commit

/-- A snapshot with the label of the message can be installed. -/
theorem Window.installSnapShot_isSome (window : rf.Window l) {args : InstallSnapShotArgs σ}
    {blob : Snapshot σ} (data : args.data = some blob)
    (label : blob.lastIndex = args.lastIncludedIndex) :
    (rf.installSnapShot args).isSome = true := by
  unfold installSnapShot
  dsimp only
  by_cases stale : args.term < rf.currentTerm
  · rw [if_pos stale]
    rfl
  rw [if_neg stale]
  by_cases old : args.lastIncludedIndex ≤ rf.lastIndexInSnapshot
  · rw [if_pos old]
    rfl
  -- Past the early returns the snapshot is ahead of the one in use.
  have read : (rf.readSnapshotPersist args.data).lastIndexInSnapshot = args.lastIncludedIndex := by
    simp [data, readSnapshotPersist, label, old]
  rw [if_neg old, read, if_neg (lt_irrefl _)]
  by_cases within : args.lastIncludedIndex ≤ rf.getLastLogIndex
  · obtain ⟨entry, slot⟩ := window.holds.exists_slot within
    rw [if_pos within, slot, Option.map_some]
    cases decide (entry.term = args.lastIncludedTerm) with
    | true => rfl
    | false => rfl
  · rw [if_neg within]
    rfl

theorem exists_truncate (rf : Raft α σ) {endIndex preIndex : Int} (later : preIndex < endIndex)
    (lastTerm : Int) : ∃ log, rf.truncate endIndex preIndex lastTerm = some log := by
  rw [truncate, if_neg (not_le.2 later)]
  split
  · exact ⟨_, rfl⟩
  · exact ⟨_, rfl⟩

theorem Window.takeSnapshots_isSome (window : rf.Window l) (state : σ) {index : Int}
    (delivered : index ≤ rf.commitIndex) : (rf.takeSnapshots state index).isSome = true := by
  unfold Raft.takeSnapshots
  dsimp only
  split_ifs with early
  · rfl
  · have last := window.holds.getLastLogIndex
    have commit := window.commit
    obtain ⟨entry, slot⟩ := window.holds.exists_slot (show index - 1 ≤ _ by omega)
    obtain ⟨log, truncated⟩ := rf.exists_truncate
      (show rf.lastIndexInSnapshot < index - 1 by omega) entry.term
    rw [slot]
    dsimp only
    rw [truncated]
    rfl

/-- No operation reads a slot that is not there, and none reaches a panic. The one index that a
call of `Start` may find out of range is its own, in the list of match indexes. -/
structure Total (rf : Raft α σ) : Prop where
  requestVote : ∀ args, (rf.requestVote args).isSome = true
  appendEntry : ∀ args, HasCommands args.entries → (rf.appendEntry args).isSome = true
  scanBack : ∀ args : AppendEntryArgs α, args.prevLogIndex ≤ rf.getLastLogIndex →
    (rf.getTrueIndex args.prevLogIndex).toNat < rf.log.length
  installSnapShot : ∀ args blob, args.data = some blob →
    blob.lastIndex = args.lastIncludedIndex → blob.lastTerm = args.lastIncludedTerm →
    (rf.installSnapShot args).isSome = true
  takeSnapshots : ∀ state index, index ≤ rf.commitIndex →
    (rf.takeSnapshots state index).isSome = true
  startAppend : ∀ command curTerm, rf.me.toNat < rf.matchIndex.length →
    (rf.startAppend command curTerm).isSome = true
  commitSlots : ∀ index, ¬(rf.log.length ≤ rf.getTrueIndex index ∨ rf.getTrueIndex index < 1) →
    (rf.deliver index).isSome = true

theorem Window.total (window : rf.Window l) : rf.Total where
  requestVote := window.requestVote_isSome
  appendEntry _ commands := window.appendEntry_isSome commands
  scanBack args within := by
    obtain ⟨entry, found⟩ := window.holds.exists_slot within
    exact (List.getElem?_eq_some_iff.1 (slot_eq_some_iff.1 found).2).1
  installSnapShot _ _ data label _ := window.installSnapShot_isSome data label
  takeSnapshots state _ delivered := window.takeSnapshots_isSome state delivered
  startAppend command curTerm leads := by
    simp only [Raft.startAppend, if_pos leads, Option.isSome_some]
  commitSlots index guard := by
    have inside : (rf.getTrueIndex index).toNat < rf.log.length := by omega
    have found : rf.slot (rf.getTrueIndex index) = some rf.log[(rf.getTrueIndex index).toNat] :=
      slot_eq_some_iff.2 ⟨by omega, List.getElem?_eq_getElem inside⟩
    unfold deliver
    rw [found]
    dsimp only
    split_ifs <;> rfl

end Raft

/-! ## Runs -/

/-- What the messages are asked for: entries have commands and a snapshot has the label the message
gives it. The server is not restarted. -/
def Input.wellFormed : Input n α σ → Bool
  | .request (.appendEntry args) => args.entries.all fun entry => entry.command.isSome
  | .request (.installSnapShot args) => args.data.any fun blob =>
      blob.lastIndex == args.lastIncludedIndex && blob.lastTerm == args.lastIncludedTerm
  | .restart => false
  | _ => true

namespace Server

variable {i : Fin n} {server server' : Server n α σ} {input : Input n α σ} {rf' : Raft α σ}
  {l : List (CommandTerm α)}

theorem LogMoves.filled (moves : LogMoves i server input rf') (filled : server.rf.Filled l)
    (wellFormed : input.wellFormed = true) : ∃ l', rf'.Filled l' := by
  cases moves with
  | same same => exact ⟨l, filled.sameLog same⟩
  | appendEntry handled =>
      simp only [Input.wellFormed, List.all_eq_true] at wellFormed
      exact filled.appendEntry wellFormed handled
  | installSnapShot _ _ above =>
      exact Raft.Filled.installed server.rf (filled.stands.holds.nonneg.trans_lt above)
  | entryReply handled =>
      exact ⟨l, (filled.onReply handled).sameLog ((Raft.SameLog.of_eq _).notified _)⟩
  | startAppend appended => exact ⟨_, filled.startAppend appended⟩
  | takeSnapshots delivered taken => exact ⟨l, filled.takeSnapshots delivered taken⟩
  | restart => cases wellFormed

end Server

end Mit6824
