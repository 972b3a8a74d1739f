import Mit6824.Raft.Totality

/-!
# The append rule

`spliced` is what the rule of the Raft paper makes of the entries behind `PrevLogIndex`: a
message replaces what is there from the first entry with another term on, and keeps what is
beyond it if there is none. The handler writes every entry in place and looks at one term
afterwards, so it follows the rule where that look finds the conflicts.
-/

namespace Mit6824

open Consensus

variable {α σ : Type}

/-- The entries of a message over what the log has in their place. -/
def spliced : List (CommandTerm α) → List (CommandTerm α) → List (CommandTerm α)
  | existing, [] => existing
  | [], entries => entries
  | old :: existing, new :: entries =>
      if old.term = new.term then new :: spliced existing entries else new :: entries

/-- Some entry of the log has another term than the entry of the message in its place. -/
def conflicts : List (CommandTerm α) → List (CommandTerm α) → Bool
  | old :: existing, new :: entries => old.term ≠ new.term || conflicts existing entries
  | _, _ => false

theorem spliced_eq (existing entries : List (CommandTerm α)) :
    spliced existing entries =
      if conflicts existing entries then entries
      else entries ++ existing.drop entries.length := by
  fun_induction spliced existing entries with
  | case1 existing => simp [conflicts]
  | case2 entries _ => simp [conflicts]
  | case3 old existing new entries same ih =>
      simp only [conflicts, same, ne_eq, not_true_eq_false, decide_false, Bool.false_or, ih,
        List.length_cons, List.drop_succ_cons, List.cons_append]
      split_ifs <;> rfl
  | case4 old existing new entries differ => simp [conflicts, differ]

/-- Two decisions to drop a tail come to the same if they agree or there is no tail. -/
theorem ite_nil_eq_iff {β : Type} {tail : List β} {left right : Bool} :
    ((if left then [] else tail) = if right then [] else tail) ↔
      tail = [] ∨ left = right := by
  cases left <;> cases right <;> simp [eq_comm]

namespace Raft

variable {rf rf' : Raft α σ} {args : AppendEntryArgs α}

/-- The slot of `PrevLogIndex`. -/
def prevSlot (rf : Raft α σ) (args : AppendEntryArgs α) : Nat :=
  (args.prevLogIndex - rf.lastIndexInSnapshot).toNat

/-- The log that the rule asks for. -/
def ruled (rf : Raft α σ) (args : AppendEntryArgs α) : List (CommandTerm α) :=
  rf.log.take (rf.prevSlot args + 1) ++ spliced (rf.log.drop (rf.prevSlot args + 1)) args.entries

/-- The test behind the write: two entries or more are left, and the last of them is of an earlier
term than the last one of the message. -/
def cuts (rf : Raft α σ) (args : AppendEntryArgs α) : Bool :=
  rf.prevSlot args + 1 + args.entries.length + 1 < rf.log.length &&
    rf.lastTerm < lastTermOf CommandTerm.term args.entries

/-- The log ends with the message or before, or the test cuts off a tail exactly where an entry
was replaced by one of another term. -/
def detects (rf : Raft α σ) (args : AppendEntryArgs α) : Bool :=
  rf.log.length ≤ rf.prevSlot args + 1 + args.entries.length ||
    rf.cuts args == conflicts (rf.log.drop (rf.prevSlot args + 1)) args.entries

/-! ## The handler on slots -/

/-- Slots that are there can be delivered. -/
theorem exists_deliverSlots (rf : Raft α σ) {i bound : Int} (count : Nat) (nonneg : 0 ≤ i)
    (inside : i + count < rf.log.length) (committed : rf.commitIndex ≤ bound)
    (reaches : rf.lastIndexInSnapshot + i + count ≤ bound) :
    ∃ rf', rf.deliverSlots i count = some rf' ∧ rf.commitIndex ≤ rf'.commitIndex ∧
      rf'.commitIndex ≤ bound := by
  induction count generalizing rf i with
  | zero => exact ⟨rf, rfl, le_rfl, committed⟩
  | succ count ih =>
      push_cast at inside reaches
      have name : rf.getTrueIndex (rf.getNameIndex (i + 1)) = i + 1 := by
        rw [getNameIndex, getTrueIndex_of_le (by omega)]
        omega
      have within : (i + 1).toNat < rf.log.length := by omega
      have slot : rf.slot (i + 1) = some rf.log[(i + 1).toNat] :=
        slot_eq_some_iff.2 ⟨by omega, List.getElem?_eq_getElem within⟩
      rw [deliverSlots_succ]
      simp only [deliver, name, slot]
      split_ifs with new
      · obtain ⟨rf', delivered, lower, upper⟩ := ih
          { rf with
            commitIndex := rf.getNameIndex (i + 1)
            applyCh := rf.applyCh ++ [⟨true, rf.log[(i + 1).toNat].command,
              rf.getNameIndex (i + 1), none⟩] }
          (i := i + 1) (by omega) (by dsimp only; omega)
          (by simp only [getNameIndex]; omega) (by dsimp only; omega)
        exact ⟨rf', delivered, new.le.trans lower, upper⟩
      · exact ih rf (by omega) (by omega) committed (by omega)

/-- A message that starts between the commit index and the end of the log moves the commit index
at most to where it starts. -/
theorem exists_followCommit (base : rf.lastIndexInSnapshot ≤ rf.commitIndex)
    (start : rf.commitIndex ≤ args.prevLogIndex) (within : args.prevLogIndex ≤ rf.getLastLogIndex) :
    ∃ commitIndex messages, rf.followCommit args = some { rf with
      commitIndex := commitIndex, applyCh := rf.applyCh ++ messages }.persist ∧
      rf.commitIndex ≤ commitIndex ∧ commitIndex ≤ args.prevLogIndex := by
  rw [getLastLogIndex] at within
  suffices followed : ∃ rf', rf.followCommit args = some rf' ∧
      rf.commitIndex ≤ rf'.commitIndex ∧ rf'.commitIndex ≤ args.prevLogIndex by
    obtain ⟨rf', followed, bounds⟩ := followed
    obtain ⟨commitIndex, messages, rfl⟩ := followCommit_frame followed
    exact ⟨commitIndex, messages, followed, bounds⟩
  unfold followCommit
  by_cases news : rf.commitIndex < args.leaderCommit
  · obtain ⟨target, aft, lower, upper⟩ : ∃ target,
        (if args.prevLogIndex < args.leaderCommit then args.prevLogIndex
          else args.leaderCommit) = target ∧
        rf.commitIndex ≤ target ∧ target ≤ args.prevLogIndex := by
      refine ⟨_, rfl, ?_⟩
      split_ifs <;> omega
    simp only [if_pos news, aft]
    rw [getTrueIndex_of_le base, getTrueIndex_of_le (by omega), if_neg (by omega),
      if_neg (by omega)]
    obtain ⟨rf', delivered, bounds⟩ := rf.exists_deliverSlots
      (i := rf.commitIndex - rf.lastIndexInSnapshot)
      (target - rf.lastIndexInSnapshot - (rf.commitIndex - rf.lastIndexInSnapshot)).toNat
      (by omega) (by omega) start (by omega)
    exact ⟨rf'.persist, by rw [delivered, Option.map_some], bounds⟩
  · simp only [if_neg news, ite_self]
    exact ⟨rf.persist, by simp, le_rfl, start⟩

/-- An entry without a command stops the peer. -/
theorem hasCommands_of_overwrite {startInd : Int}
    (above : rf.commitIndex < rf.getNameIndex startInd) {entries : List (CommandTerm α)}
    {written : Raft α σ × Int}
    (overwrote : rf.overwrite startInd entries = some written) : HasCommands entries := by
  induction entries generalizing rf startInd with
  | nil => exact fun entry member => absurd member List.not_mem_nil
  | cons entry rest ih =>
      simp only [overwrite, if_neg (not_le.2 above)] at overwrote
      split at overwrote
      · cases overwrote
      · rename_i filled
        have hasCommand : entry.command.isSome = true :=
          Option.isSome_iff_ne_none.2 (by simpa using filled)
        refine List.forall_mem_cons.2 ⟨hasCommand, ih ?_ overwrote⟩
        simp only [getNameIndex] at above ⊢
        omega

/-- The test behind the entries that were written. -/
theorem cutTail_append {front back : List (CommandTerm α)} (log : rf.log = front ++ back)
    (nonempty : front ≠ []) :
    (rf.cutTail front.length).log = front ++
      if 1 < back.length ∧ lastTermOf CommandTerm.term (front ++ back) <
          lastTermOf CommandTerm.term front then []
      else back := by
  obtain ⟨written, found⟩ : ∃ written, front.getLast? = some written :=
    ⟨_, List.getLast?_eq_some_getLast nonempty⟩
  obtain ⟨last, ends⟩ : ∃ last, (front ++ back).getLast? = some last :=
    ⟨_, List.getLast?_eq_some_getLast (List.append_ne_nil_of_left_ne_nil nonempty back)⟩
  have positive := List.length_pos_of_ne_nil nonempty
  have slot : rf.slot ((front.length : Int) - 1) = some written := by
    rw [slot_eq_some_iff, log]
    refine ⟨by omega, ?_⟩
    rw [List.getElem?_append_left (by omega), ← found, List.getLast?_eq_getElem?]
    congr 1
    omega
  have test : (front.length : Int) < (front ++ back).length - 1 ↔ 1 < back.length := by
    rw [List.length_append]
    omega
  unfold cutTail
  rw [slot, log, ends]
  simp only [test, lastTermOf, found, ends, Option.map_some, Option.getD_some]
  split_ifs
  · rw [Int.toNat_natCast, List.take_left, List.append_nil]
  · exact log

/-- The log after the write and the test behind it. -/
theorem writeEntries_log (base : rf.lastIndexInSnapshot ≤ args.prevLogIndex)
    (start : rf.commitIndex ≤ args.prevLogIndex) (within : args.prevLogIndex ≤ rf.getLastLogIndex)
    (nonempty : args.entries ≠ []) (written : rf.writeEntries args = some rf') :
    HasCommands args.entries ∧
      rf'.log = rf.log.take (rf.prevSlot args + 1) ++ args.entries ++
        if rf.cuts args then []
        else rf.log.drop (rf.prevSlot args + 1 + args.entries.length) := by
  have startInd :
      rf.getTrueIndex (args.prevLogIndex + 1) = ((rf.prevSlot args + 1 : Nat) : Int) := by
    rw [getTrueIndex_of_le (by omega), prevSlot]
    omega
  rw [getLastLogIndex] at within
  have inside : rf.prevSlot args + 1 ≤ rf.log.length := by
    rw [prevSlot]
    omega
  have above : rf.commitIndex < ((rf.prevSlot args + 1 : Nat) : Int) + rf.lastIndexInSnapshot := by
    rw [prevSlot]
    omega
  unfold writeEntries at written
  dsimp only at written
  rw [startInd, if_pos (by omega)] at written
  split at written
  · cases written
  rename_i rf₁ startInd' overwrote
  refine ⟨hasCommands_of_overwrite above overwrote, ?_⟩
  obtain ⟨rfl, rfl⟩ := overwrite_spec inside above overwrote
  obtain rfl := Option.some.inj written
  set front := rf.log.take (rf.prevSlot args + 1) ++ args.entries with front_def
  have size : front.length = rf.prevSlot args + 1 + args.entries.length := by
    rw [front_def, List.length_append, List.length_take]
    omega
  have position : ((rf.prevSlot args + 1 : Nat) : Int) + args.entries.length = front.length := by
    omega
  have lastWritten : lastTermOf CommandTerm.term front =
      lastTermOf CommandTerm.term args.entries := by
    obtain ⟨last, found⟩ : ∃ last, args.entries.getLast? = some last :=
      ⟨_, List.getLast?_eq_some_getLast nonempty⟩
    simp [front_def, lastTermOf, found]
  rw [position, persist, cutTail_append rfl (List.append_ne_nil_of_right_ne_nil _ nonempty),
    ← front_def, lastWritten]
  congr 1
  have test : (1 < (rf.log.drop (rf.prevSlot args + 1 + args.entries.length)).length ∧
      lastTermOf CommandTerm.term (front ++
        rf.log.drop (rf.prevSlot args + 1 + args.entries.length)) <
          lastTermOf CommandTerm.term args.entries) ↔ rf.cuts args = true := by
    simp only [cuts, Bool.and_eq_true, decide_eq_true_eq, List.length_drop]
    have longer : 1 < rf.log.length - (rf.prevSlot args + 1 + args.entries.length) ↔
        rf.prevSlot args + 1 + args.entries.length + 1 < rf.log.length := by omega
    rw [longer]
    refine and_congr_right fun beyond => ?_
    rw [show lastTermOf CommandTerm.term (front ++ _) = lastTermOf CommandTerm.term rf.log from
      lastTermOf_overwritten (by omega), lastTerm, lastTermOf]
  exact if_congr test rfl rfl

/-- A message that passes the tests: the commit index moves, then the entries are written. -/
theorem appendEntry_of_passes (base : rf.lastIndexInSnapshot ≤ rf.commitIndex)
    (fresh : rf.currentTerm ≤ args.term) (nonempty : args.entries ≠ [])
    (start : rf.commitIndex ≤ args.prevLogIndex) (within : args.prevLogIndex ≤ rf.getLastLogIndex)
    (consistent : (rf.slot (rf.getTrueIndex args.prevLogIndex)).map CommandTerm.term =
      some args.prevLogTerm) :
    ∃ rf₁ : Raft α σ, rf₁.log = rf.log ∧ rf₁.lastIndexInSnapshot = rf.lastIndexInSnapshot ∧
      rf₁.currentTerm = args.term ∧ rf.commitIndex ≤ rf₁.commitIndex ∧
      rf₁.commitIndex ≤ args.prevLogIndex ∧
      rf.appendEntry args = (rf₁.writeEntries args).map fun rf' =>
        (rf', { me := rf.me, term := rf.currentTerm, success := true }) := by
  obtain ⟨entry, found, sameTerm⟩ := Option.map_eq_some_iff.1 consistent
  obtain ⟨leaderNum, waiting, persister, observed, _⟩ := observe_frame rf args fresh
  set rf₀ : Raft α σ := { rf with
    currentTerm := args.term, leaderNum := leaderNum, aeNotifyChan := waiting
    persister := persister } with rf₀_def
  obtain ⟨commitIndex, messages, followed, lower, bound⟩ :=
    exists_followCommit (show rf₀.lastIndexInSnapshot ≤ rf₀.commitIndex from base) start within
  refine ⟨{ rf₀ with
    commitIndex := commitIndex, applyCh := rf₀.applyCh ++ messages }.persist, rfl, rfl, rfl, lower,
    bound, ?_⟩
  have inside : ¬rf₀.getLastLogIndex + 1 ≤ args.prevLogIndex := by
    have : rf₀.getLastLogIndex = rf.getLastLogIndex := rfl
    omega
  have found₀ : rf₀.slot (rf₀.getTrueIndex args.prevLogIndex) = some entry := found
  have start₀ : ¬args.prevLogIndex < rf₀.commitIndex := not_lt.2 start
  unfold appendEntry
  dsimp only
  rw [if_neg (not_lt.2 fresh), observed]
  unfold checkAndAppend
  rw [if_neg inside, found₀]
  dsimp only
  rw [if_neg (not_not.2 sameTerm), if_neg start₀, followed]
  dsimp only
  rw [if_neg nonempty]

/-- The log that the rule asks for, in the form of the one that is written. -/
theorem ruled_eq (rf : Raft α σ) (args : AppendEntryArgs α) :
    rf.ruled args = rf.log.take (rf.prevSlot args + 1) ++ args.entries ++
      if conflicts (rf.log.drop (rf.prevSlot args + 1)) args.entries then []
      else rf.log.drop (rf.prevSlot args + 1 + args.entries.length) := by
  rw [ruled, spliced_eq, List.drop_drop]
  split_ifs
  · rw [List.append_nil]
  · rw [List.append_assoc]

/-- For every peer and message that pass the tests of the handler, with entries and starting at the
commit index or behind it: the handler answers and leaves the log that the rule asks for if and
only if the entries have commands and the tail test finds the conflicts. -/
theorem appendEntry_follows_rule_iff (rf : Raft α σ) (args : AppendEntryArgs α)
    (base : rf.lastIndexInSnapshot ≤ rf.commitIndex) (fresh : rf.currentTerm ≤ args.term)
    (nonempty : args.entries ≠ []) (start : rf.commitIndex ≤ args.prevLogIndex)
    (within : args.prevLogIndex ≤ rf.getLastLogIndex)
    (consistent : (rf.slot (rf.getTrueIndex args.prevLogIndex)).map CommandTerm.term =
      some args.prevLogTerm) :
    (∃ rf' reply, rf.appendEntry args = some (rf', reply) ∧ rf'.log = rf.ruled args) ↔
      HasCommands args.entries ∧ rf.detects args = true := by
  obtain ⟨rf₁, log, sameBase, _, _, committed, handled⟩ :=
    appendEntry_of_passes base fresh nonempty start within consistent
  have slot : rf₁.prevSlot args = rf.prevSlot args := by rw [prevSlot, sameBase, prevSlot]
  have cuts : rf₁.cuts args = rf.cuts args := by rw [Raft.cuts, slot, log, lastTerm, log]; rfl
  have within₁ : args.prevLogIndex ≤ rf₁.getLastLogIndex := by
    rwa [getLastLogIndex, sameBase, log]
  have follows : ∀ {rf'}, rf₁.writeEntries args = some rf' →
      HasCommands args.entries ∧ (rf'.log = rf.ruled args ↔ rf.detects args = true) := by
    intro rf' written
    obtain ⟨commands, after⟩ :=
      writeEntries_log (by omega) committed within₁ nonempty written
    refine ⟨commands, ?_⟩
    rw [after, ruled_eq, slot, log, cuts, List.append_cancel_left_eq, ite_nil_eq_iff,
      List.drop_eq_nil_iff]
    simp [detects]
  rw [handled]
  constructor
  · rintro ⟨rf', reply, answered, follow⟩
    obtain ⟨rf'', written, equal⟩ := Option.map_eq_some_iff.1 answered
    obtain ⟨rfl, _⟩ := Prod.mk.inj equal
    exact ⟨(follows written).1, (follows written).2.1 follow⟩
  · rintro ⟨commands, detects⟩
    obtain ⟨rf', written⟩ := Option.isSome_iff_exists.1 (writeEntries_isSome rf₁ commands)
    exact ⟨rf', _, by rw [written, Option.map_some], (follows written).2.2 detects⟩

/-- A follower with one entry of term 1 beyond the message below. -/
def twoOld : Raft Nat Unit :=
  { peers := 3, me := 0, leaderNum := 1, currentTerm := 1, votedFor := -1
    log := [⟨none, 0⟩, ⟨some 10, 1⟩, ⟨some 20, 1⟩]
    commitIndex := 0, nextIndex := [], matchIndex := [], aeNotifyChan := 0, applyCh := []
    lastIndexInSnapshot := 0, lastTermInSnapshot := 0, persister := ⟨none, none⟩ }

/-- The leader of term 2 replaces the first entry. -/
def replaceFirst : AppendEntryArgs Nat :=
  { term := 2, leaderID := 1, prevLogIndex := 0, prevLogTerm := 0
    entries := [⟨some 30, 2⟩], leaderCommit := 0 }

/-- The leader of term 2 appends an entry. -/
def appendThird : AppendEntryArgs Nat :=
  { replaceFirst with prevLogIndex := 2, prevLogTerm := 1 }

theorem appendEntry_follows_rule_iff_twoOld :
    (∃ rf' reply, twoOld.appendEntry appendThird = some (rf', reply) ∧
      rf'.log = twoOld.ruled appendThird) ↔
      HasCommands appendThird.entries ∧ twoOld.detects appendThird = true :=
  appendEntry_follows_rule_iff twoOld appendThird (by decide) (by decide) (by decide)
    (by decide) (by decide) (by decide)

/-- The entry behind the one that was replaced stays. -/
theorem twoOld_keeps_tail :
    (twoOld.appendEntry replaceFirst).map (fun (rf', _) => rf'.log) =
        some [⟨none, 0⟩, ⟨some 30, 2⟩, ⟨some 20, 1⟩] ∧
      twoOld.ruled replaceFirst = [⟨none, 0⟩, ⟨some 30, 2⟩] ∧
      (twoOld.slot (twoOld.getTrueIndex replaceFirst.prevLogIndex)).map CommandTerm.term =
        some replaceFirst.prevLogTerm := by
  decide

end Raft

end Mit6824
