import Mit6824.Raft.Frame

/-!
# Messages are cut from the log

The four places that build an `AppendEntry` message: the first message of a
goroutine, the message after a success short of it, the repair message after a
rejection and the one after a snapshot. `Raft.Cuts` is what they have in common.
Only a message whose `PrevLogIndex` is not inside the snapshot has its entries
from where it says.
-/

namespace Mit6824

namespace Raft

variable {n : Nat} {α σ : Type} {rf : Raft α σ}

/-- The `PrevLogTerm` of the message is that of the slot the peer has for `PrevLogIndex`, and
its entries are those that follow. -/
structure Cuts (rf : Raft α σ) (appEn : AppendEntryArgs α) : Prop where
  prev : ∃ entry, rf.slot (rf.getTrueIndex appEn.prevLogIndex) = some entry ∧
    appEn.prevLogTerm = entry.term
  entries : appEn.entries ≠ [] → rf.lastIndexInSnapshot ≤ appEn.prevLogIndex →
    appEn.entries <+: rf.log.drop ((rf.getTrueIndex appEn.prevLogIndex).toNat + 1)

theorem getTrueIndex_of_le {index : Int} (above : rf.lastIndexInSnapshot ≤ index) :
    rf.getTrueIndex index = index - rf.lastIndexInSnapshot := by
  unfold getTrueIndex
  rw [if_neg (by omega)]

theorem getTrueIndex_succ {index : Int} (above : rf.lastIndexInSnapshot ≤ index) :
    (rf.getTrueIndex (index + 1)).toNat = (rf.getTrueIndex index).toNat + 1 := by
  rw [getTrueIndex_of_le above, getTrueIndex_of_le (by omega)]
  omega

theorem slot_eq_some_iff {i : Int} {entry : CommandTerm α} :
    rf.slot i = some entry ↔ 0 ≤ i ∧ rf.log[i.toNat]? = some entry := by
  unfold slot
  split_ifs with negative
  · simp [not_le.2 negative]
  · simp [not_lt.1 negative]

theorem newEntry_eq {ind : Nat} {appEn : AppendEntryArgs α} (built : rf.newEntry ind = some appEn) :
    ∃ next, rf.nextIndex[ind]? = some next ∧
      appEn = { term := rf.currentTerm, leaderID := rf.me, prevLogIndex := next - 1
                prevLogTerm := 0, entries := [], leaderCommit := rf.commitIndex } := by
  obtain ⟨next, found, equal⟩ := Option.map_eq_some_iff.1 built
  exact ⟨next, found, equal.symm⟩

theorem newEntries_cases {next logLen prevLogIndex : Int} {entries : List (CommandTerm α)}
    (built : rf.newEntries next logLen prevLogIndex = some entries) :
    entries = [] ∨ rf.lastIndexInSnapshot ≤ prevLogIndex ∧
      entries = rf.log.drop (rf.getTrueIndex (prevLogIndex + 1)).toNat := by
  unfold newEntries at built
  split at built
  · rename_i above
    split at built
    · cases built
      exact Or.inr ⟨by omega, rfl⟩
    · cases built
  · cases built
    exact Or.inl rfl

/-- The first message keeps what was set before a snapshot was sent. -/
theorem fillEntry_cuts {ind : Nat} {logLen : Int} {appEn appEn' : AppendEntryArgs α}
    (filled : rf.fillEntry ind logLen appEn = some (some appEn')) :
    rf.Cuts appEn' ∧ appEn'.term = appEn.term ∧ appEn'.leaderID = appEn.leaderID ∧
      (appEn'.entries ≠ [] → rf.lastIndexInSnapshot ≤ appEn'.prevLogIndex) ∧
      appEn'.leaderCommit = appEn.leaderCommit := by
  unfold fillEntry at filled
  split at filled
  · cases filled
  split at filled
  · cases filled
  rename_i entries built
  split at filled
  · cases filled
  obtain ⟨entry, found, equal⟩ := Option.map_eq_some_iff.1 filled
  obtain rfl := Option.some.inj equal
  refine ⟨⟨⟨entry, found, rfl⟩, ?_⟩, rfl, rfl, ?_, rfl⟩
  · dsimp only
    intro nonempty above
    rcases newEntries_cases built with none | ⟨_, all⟩
    · exact absurd none nonempty
    · rw [getTrueIndex_succ above] at all
      exact all ▸ List.prefix_rfl
  · intro nonempty
    rcases newEntries_cases built with none | ⟨above, _⟩
    · exact absurd none nonempty
    · exact above

/-- `PrevLogIndex` is the one that was set before a snapshot may have been sent. -/
theorem fillEntry_prevLogIndex {ind : Nat} {logLen : Int} {appEn appEn' : AppendEntryArgs α}
    (filled : rf.fillEntry ind logLen appEn = some (some appEn')) :
    appEn'.prevLogIndex = appEn.prevLogIndex := by
  unfold fillEntry at filled
  split at filled
  · cases filled
  split at filled
  · cases filled
  split at filled
  · cases filled
  obtain ⟨_, _, equal⟩ := Option.map_eq_some_iff.1 filled
  obtain rfl := Option.some.inj equal
  rfl

/-- What the message after a success is made of. -/
theorem nextMessage_cases {sender : Sender n α σ} {reply : AppendEntryReply} {currComInd : Int}
    {appEn : AppendEntryArgs α}
    (built : rf.nextMessage sender reply currComInd = some (some appEn)) :
    ∃ entry, rf.slot (rf.getTrueIndex appEn.prevLogIndex) = some entry ∧
      appEn.prevLogTerm = entry.term ∧
      appEn.prevLogIndex = (if reply.commitIndex ≠ 0 then reply.commitIndex else currComInd) ∧
      appEn.entries <+: rf.log.drop ((rf.getTrueIndex appEn.prevLogIndex).toNat + 1) ∧
      (reply.commitIndex ≠ 0 → appEn.entries ≠ [] → 0 < rf.getTrueIndex appEn.prevLogIndex) ∧
      appEn.term = rf.currentTerm ∧ appEn.leaderID = sender.appEn.leaderID ∧
      appEn.leaderCommit = rf.commitIndex := by
  unfold nextMessage at built
  by_cases told : reply.commitIndex ≠ 0
  · rw [if_pos told] at built ⊢
    split at built
    · cases built
    · obtain ⟨entry, found, equal⟩ := Option.map_eq_some_iff.1 built
      obtain rfl := Option.some.inj equal
      refine ⟨entry, found, rfl, rfl, ?_, fun _ nonempty => ?_, rfl, rfl, rfl⟩
      · dsimp only
        split_ifs
        · exact List.take_prefix _ _
        · exact List.nil_prefix
      · by_contra inside
        exact nonempty (if_neg inside)
  · rw [if_neg told] at built ⊢
    obtain ⟨entry, found, equal⟩ := Option.map_eq_some_iff.1 built
    obtain rfl := Option.some.inj equal
    exact ⟨entry, found, rfl, rfl, List.prefix_rfl, fun told' => absurd told' told, rfl, rfl, rfl⟩

/-- The message after a success keeps the sender's `LeaderID`. -/
theorem nextMessage_cuts {sender : Sender n α σ} {reply : AppendEntryReply} {currComInd : Int}
    {appEn : AppendEntryArgs α}
    (built : rf.nextMessage sender reply currComInd = some (some appEn)) :
    rf.Cuts appEn ∧ appEn.term = rf.currentTerm ∧ appEn.leaderID = sender.appEn.leaderID ∧
      (appEn.entries ≠ [] → rf.lastIndexInSnapshot ≤ appEn.prevLogIndex ∨
        reply.commitIndex = 0 ∧ appEn.prevLogIndex = currComInd) ∧
      appEn.leaderCommit = rf.commitIndex := by
  obtain ⟨entry, found, prevTerm, index, part, above, term, leader, commit⟩ :=
    nextMessage_cases built
  refine ⟨⟨⟨entry, found, prevTerm⟩, fun _ _ => part⟩, term, leader, fun nonempty => ?_, commit⟩
  by_cases told : reply.commitIndex ≠ 0
  · left
    have positive := above told nonempty
    unfold getTrueIndex at positive
    split_ifs at positive <;> omega
  · rw [if_neg told] at index
    exact Or.inr ⟨not_not.1 told, index⟩

/-- The repair message has one entry, and never tells the commit index. -/
theorem repairMessage_cuts {sender : Sender n α σ} {prevlog : Int} {appEn : AppendEntryArgs α}
    {appEnTerm : Int} (built : rf.repairMessage sender prevlog = some (.retry appEn appEnTerm)) :
    rf.Cuts appEn ∧ appEn.term = rf.currentTerm ∧ appEn.leaderID = sender.appEn.leaderID ∧
      appEn.prevLogIndex = prevlog ∧ appEn.leaderCommit = 0 := by
  unfold repairMessage at built
  split at built
  · cases built
  · split at built
    · rename_i entry prev found foundPrev
      cases built
      refine ⟨⟨⟨prev, foundPrev, rfl⟩, ?_⟩, rfl, rfl, rfl, rfl⟩
      dsimp only
      intro _ above
      obtain ⟨_, found⟩ := slot_eq_some_iff.1 found
      rw [getTrueIndex_succ above] at found
      rw [List.drop_eq_getElem_cons (List.getElem?_eq_some_iff.1 found).1]
      obtain ⟨_, rfl⟩ := List.getElem?_eq_some_iff.1 found
      exact ⟨_, rfl⟩
    · cases built

/-- Every message a goroutine sends after a reply is cut from the log. Its entries start above
the snapshot, except perhaps after a success that is short of where the goroutine started. -/
theorem onReply_cuts {rf' : Raft α σ} {sender : Sender n α σ} {reply : AppendEntryReply}
    {appEn : AppendEntryArgs α} {appEnTerm : Int}
    (handled : rf.onReply sender reply = some (rf', .retry appEn appEnTerm)) :
    rf'.Cuts appEn ∧ appEn.term = rf'.currentTerm ∧ appEn.leaderID = sender.appEn.leaderID ∧
      (appEn.entries ≠ [] → rf'.lastIndexInSnapshot ≤ appEn.prevLogIndex ∨
        reply.success = true ∧ reply.commitIndex = 0 ∧
          appEn.prevLogIndex < sender.prevLogIndex ∧
          ∃ next, rf.nextIndex[sender.ind.val]? = some next ∧
            appEn.prevLogIndex = reachedBy next sender.appEn) ∧
      (appEn.leaderCommit = rf'.commitIndex ∨ appEn.leaderCommit = 0) := by
  unfold onReply at handled
  split at handled
  · rename_i success
    rcases onSuccess_cases handled with ⟨_, _, done⟩ | ⟨_, rf₁, _, recorded, ⟨_, done⟩ |
      ⟨currComInd, matched, rfl, ⟨rfl, short, _, built, retry⟩ | ⟨done, _⟩⟩⟩
    · cases done
    · cases done
    · cases retry
      obtain ⟨cuts, term, leader, above, commit⟩ := nextMessage_cuts built
      refine ⟨cuts, term, leader, fun nonempty => ?_, Or.inl commit⟩
      rcases above nonempty with above | ⟨zero, start⟩
      · exact Or.inl above
      · refine Or.inr ⟨success, zero, start ▸ short, ?_⟩
        rcases recordMatch_cases recorded with
          ⟨told, _⟩ | ⟨_, next, old, foundNext, foundMatch, ⟨_, rfl⟩ | ⟨stops, _⟩⟩
        · exact absurd zero told
        · refine ⟨next, foundNext, ?_⟩
          have inside := (List.getElem?_eq_some_iff.1 foundMatch).1
          have written : (rf.setProgress sender.ind (reachedBy next sender.appEn)).matchIndex[
              sender.ind.val]? = some (reachedBy next sender.appEn) :=
            List.getElem?_set_self inside
          rw [start]
          exact Option.some.inj (matched.symm.trans written)
        · cases stops
    · cases done
  · rcases onReject_cases handled with ⟨done, _⟩ | ⟨done, _⟩ |
      ⟨_, prevlog, _, rfl, ⟨_, snapshot⟩ | ⟨above, built⟩⟩
    · cases done
    · cases done
    · cases snapshot
    · obtain ⟨cuts, term, leader, start, commit⟩ := repairMessage_cuts built
      exact ⟨cuts, term, leader, fun _ => Or.inl (start ▸ above), Or.inr commit⟩

/-- Where the message after a reply starts: after a success from the new match index, short of where
the goroutine started, and after a rejection above the snapshot. -/
theorem onReply_start {rf' : Raft α σ} {sender : Sender n α σ} {reply : AppendEntryReply}
    {appEn : AppendEntryArgs α} {appEnTerm : Int}
    (handled : rf.onReply sender reply = some (rf', .retry appEn appEnTerm)) :
    reply.success = true ∧ appEn.prevLogIndex < sender.prevLogIndex ∧
        rf.newMatch sender.ind sender.appEn reply = some appEn.prevLogIndex ∨
      reply.success = false ∧ rf.lastIndexInSnapshot ≤ appEn.prevLogIndex := by
  unfold onReply at handled
  split at handled
  · rename_i success
    left
    rcases onSuccess_cases handled with ⟨_, _, done⟩ | ⟨_, rf₁, goesOn, recorded, ⟨_, done⟩ |
      ⟨currComInd, matched, more, ⟨rfl, short, _, built, retry⟩ | ⟨done, _⟩⟩⟩
    · cases done
    · cases done
    · cases retry
      rcases recordMatch_progress recorded with ⟨m, reached, rfl⟩ | ⟨stops, _⟩
      · have inside := (List.getElem?_eq_some_iff.1 matched).1
        simp only [setProgress, List.length_set] at inside
        obtain rfl : m = currComInd := by
          simpa [setProgress, List.getElem?_set_self inside] using matched
        have start : appEn.prevLogIndex = m := by
          obtain ⟨_, _, _, index, _⟩ := nextMessage_cases built
          rw [index]
          unfold newMatch at reached
          split_ifs at reached ⊢
          · exact Option.some.inj reached
          · rfl
        rw [start]
        exact ⟨success, short, reached⟩
      · rw [stops] at more
        cases more
    · cases done
  · rename_i rejected
    refine Or.inr ⟨by simpa using rejected, ?_⟩
    rcases onReject_cases handled with ⟨done, _⟩ | ⟨done, _⟩ |
      ⟨_, prevlog, _, _, ⟨_, snapshot⟩ | ⟨above, built⟩⟩
    · cases done
    · cases done
    · cases snapshot
    · obtain ⟨_, _, _, start, _⟩ := repairMessage_cuts built
      exact start ▸ above

theorem afterSnapShot_cuts {sender : Sender n α σ} {appEn : AppendEntryArgs α} {appEnTerm : Int}
    (handled : rf.afterSnapShot sender = some (.retry appEn appEnTerm)) :
    rf.Cuts appEn ∧ appEn.term = rf.currentTerm ∧ appEn.leaderID = sender.appEn.leaderID ∧
      rf.matchIndex[sender.ind.val]? = some appEn.prevLogIndex ∧ appEn.leaderCommit = 0 := by
  unfold afterSnapShot at handled
  split at handled
  · cases handled
  · rename_i prevlog matched
    obtain ⟨cuts, term, leader, start, commit⟩ := repairMessage_cuts handled
    exact ⟨cuts, term, leader, start ▸ matched, commit⟩

theorem afterSnapShot_ne_snapshot {sender : Sender n α σ} :
    rf.afterSnapShot sender ≠ some .snapshot := by
  unfold afterSnapShot repairMessage
  split
  · simp
  · split
    · simp
    · split <;> simp

end Raft

end Mit6824
