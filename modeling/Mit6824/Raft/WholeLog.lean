import Mit6824.Raft.Replication

/-!
# The whole log through every operation

`Raft.Window rf l` adds to `Raft.Holds` that the commit index is between the snapshot and the
end of the log, and `Raft.Stands rf l` that the snapshot is labelled with the index and term at
which the log goes on. For each operation there is one lemma that says which whole log the peer
stands for afterwards.
-/

namespace Mit6824

open Consensus

variable {n : Nat} {α σ : Type}

namespace Raft

variable {rf rf' : Raft α σ} {l : List (CommandTerm α)}

structure Window (rf : Raft α σ) (l : List (CommandTerm α)) : Prop where
  holds : rf.Holds l
  base : rf.lastIndexInSnapshot ≤ rf.commitIndex
  commit : rf.commitIndex ≤ l.length

namespace Window

theorem commit_nonneg (window : rf.Window l) : 0 ≤ rf.commitIndex :=
  window.holds.nonneg.trans window.base

/-- Nothing that `Window` speaks about has changed, except perhaps the commit index. -/
theorem congr (window : rf.Window l)
    (snapshotIndex : rf'.lastIndexInSnapshot = rf.lastIndexInSnapshot) (log : rf'.log = rf.log)
    (lower : rf.commitIndex ≤ rf'.commitIndex) (upper : rf'.commitIndex ≤ l.length) :
    rf'.Window l where
  holds := window.holds.congr snapshotIndex log
  base := by
    rw [snapshotIndex]
    exact window.base.trans lower
  commit := upper

/-- A peer whose log is one slot stands for any log of the length and last term of its
snapshot. -/
theorem of_sentinel {sentinel : CommandTerm α} (log : rf.log = [sentinel])
    (committed : rf.commitIndex = rf.lastIndexInSnapshot)
    (length : rf.lastIndexInSnapshot = (l.length : Int))
    (lastTerm : sentinel.term = lastTermOf CommandTerm.term l) : rf.Window l := by
  have size : rf.lastIndexInSnapshot.toNat = l.length := by omega
  refine ⟨⟨by omega, size.le, sentinel, ?_, ?_⟩, committed.ge, by omega⟩
  · rw [log, size, List.drop_length]
  · rw [lastTerm, size, termAt_length]

/-- `AppendEntry` leaves the log alone, or writes the entries of the message over it. The
snapshot stays as it is, and so does the log up to where the message starts. -/
theorem appendEntry (window : rf.Window l) {args : AppendEntryArgs α} {reply : AppendEntryReply}
    (handled : rf.appendEntry args = some (rf', reply)) :
    args.term < rf.currentTerm ∧ rf' = rf ∧ reply.success = false ∨
    rf.currentTerm ≤ args.term ∧ rf'.currentTerm = args.term ∧
      rf'.lastIndexInSnapshot = rf.lastIndexInSnapshot ∧
      rf'.lastTermInSnapshot = rf.lastTermInSnapshot ∧
      rf'.persister.snapshot = rf.persister.snapshot ∧
      (rf'.Window l ∧ rf'.applyCh = rf.applyCh ∧ rf'.commitIndex = rf.commitIndex ∧
          (reply.success = false ∨ reply.success = true ∧ args.prevLogIndex < rf.commitIndex ∧
            reply.commitIndex = rf.commitIndex) ∨
        ∃ p k' : Nat, args.prevLogIndex = p ∧ rf.commitIndex ≤ p ∧ p ≤ l.length ∧
          termAt l p = args.prevLogTerm ∧ reply.success = true ∧ reply.commitIndex = 0 ∧
          k' = max rf.commitIndex.toNat (min p args.leaderCommit.toNat) ∧ rf'.commitIndex = k' ∧
          rf'.applyCh = rf.applyCh ++
            deliveries σ l rf.commitIndex.toNat (k' - rf.commitIndex.toNat) ∧
          rf'.Window (if args.entries = [] then l else appended l p args.entries) ∧
          (if args.entries = [] then l else appended l p args.entries).take p = l.take p) := by
  obtain ⟨k, committed⟩ : ∃ k : Nat, rf.commitIndex = k :=
    ⟨rf.commitIndex.toNat, by have := window.commit_nonneg; omega⟩
  have base := window.base
  have commit := window.commit
  rcases appendEntry_spec window.holds (committed ▸ base) committed handled with
    stale | ⟨current, leaderNum, waiting, persister, log, commitIndex, messages, snapshot, rfl,
      outcome⟩
  · exact Or.inl stale
  refine Or.inr ⟨current, rfl, rfl, rfl, snapshot, ?_⟩
  rcases outcome with ⟨rfl, rfl, rfl, answer⟩ |
    ⟨p, prev, le, bound, sameTerm, success, zero, rfl, rfl, holds'⟩
  · refine Or.inl ⟨window.congr rfl rfl le_rfl commit, by simp, rfl, ?_⟩
    rw [committed]
    exact answer
  · refine Or.inr ⟨p, _, prev, by omega, bound, sameTerm, success, zero, rfl, ?_, ?_, ?_, ?_⟩
    · rw [committed]
      rfl
    · rw [committed]
      rfl
    · have long : p ≤ (if args.entries = [] then l else appended l p args.entries).length := by
        split_ifs
        · exact bound
        · exact (Nat.le_add_right _ _).trans (length_appended bound)
      refine ⟨holds', ?_, ?_⟩
      · dsimp only
        omega
      · dsimp only
        omega
    · split_ifs
      · rfl
      · exact take_appended_of_le bound le_rfl

/-- A snapshot is labelled with an entry of the log, which becomes the sentinel. -/
theorem takeSnapshots (window : rf.Window l) {state : σ} {index : Int}
    (delivered : index ≤ rf.commitIndex) (taken : rf.takeSnapshots state index = some rf') :
    rf' = rf ∨ ∃ (k : Nat) (entry : CommandTerm α), rf.lastIndexInSnapshot < k ∧
      (k : Int) ≤ rf.commitIndex ∧ l[k - 1]? = some entry ∧ entry.term = termAt l k ∧
      rf' = { rf with
        lastTermInSnapshot := termAt l k
        lastIndexInSnapshot := k
        log := entry :: l.drop k
        persister := ⟨some (rf.currentTerm, entry :: l.drop k), some ⟨state, k, termAt l k⟩⟩ } := by
  rcases takeSnapshots_cases taken with
    rfl | ⟨entry, log, positive, above, slot, truncated, rfl⟩
  · exact Or.inl rfl
  right
  have nonneg := window.holds.nonneg
  have commit := window.commit
  obtain ⟨k, label⟩ : ∃ k : Nat, index - 1 = k := ⟨(index - 1).toNat, by omega⟩
  obtain ⟨sentinel, slots, _⟩ := window.holds.slots
  rw [label] at slot truncated above
  obtain ⟨entry', slot', term, found⟩ := window.holds.slot_at above.le (by omega)
  obtain rfl : entry' = entry := Option.some.inj (slot'.symm.trans slot)
  have inside := found above
  have kept : log = entry' :: l.drop k := by
    have split : l.drop (k - 1) = entry' :: l.drop k := by
      obtain ⟨bound, equal⟩ := List.getElem?_eq_some_iff.1 inside
      rw [List.drop_eq_getElem_cons bound, equal]
      congr 2
      omega
    have dropped : rf.log.drop ((k : Int) - rf.lastIndexInSnapshot).toNat = entry' :: l.drop k := by
      have position : ((k : Int) - rf.lastIndexInSnapshot).toNat =
          (k - 1 - rf.lastIndexInSnapshot.toNat) + 1 := by omega
      rw [position, slots, List.drop_succ_cons, List.drop_drop, ← split]
      congr 1
      omega
    unfold truncate at truncated
    rw [if_neg (not_le.2 above), dropped] at truncated
    exact (Option.some.inj truncated).symm
  refine ⟨k, entry', above, by omega, inside, term, ?_⟩
  rw [label, term, kept]

/-- A peer after it has taken a snapshot. -/
theorem of_snapshot (window : rf.Window l) {k : Nat} {entry : CommandTerm α}
    (bound : (k : Int) ≤ rf.commitIndex) (term : entry.term = termAt l k)
    (snapshotIndex : rf'.lastIndexInSnapshot = k) (log : rf'.log = entry :: l.drop k)
    (committed : rf'.commitIndex = rf.commitIndex) : rf'.Window l := by
  have commit := window.commit
  refine ⟨⟨by omega, by omega, entry, ?_, ?_⟩, by omega, by omega⟩
  · rw [log, snapshotIndex, Int.toNat_natCast]
  · rw [term, snapshotIndex, Int.toNat_natCast]

/-! ## The leader -/

theorem startAppend (window : rf.Window l) {command : α} {curTerm index : Int}
    (appended : rf.startAppend command curTerm = some (rf', index)) :
    rf'.Window (l ++ [⟨some command, curTerm⟩]) := by
  obtain ⟨_, rfl⟩ := startAppend_frame appended
  obtain ⟨⟨nonneg, within, sentinel, slots, term⟩, base, commit⟩ := window
  refine ⟨⟨nonneg, by simp [persist]; omega, sentinel, ?_, ?_⟩, base, ?_⟩
  · simp only [persist, slots, List.cons_append]
    rw [List.drop_append_of_le_length within]
  · simp only [persist]
    rw [termAt_append within, term]
  · simp only [persist, List.length_append, List.length_singleton]
    push_cast
    omega

/-- The commit loop delivers up to `count` more entries, as far as the log reaches. -/
theorem commitSlots (window : rf.Window l) {k : Nat} (committed : rf.commitIndex = k)
    (count : Nat) :
    ∃ k', k ≤ k' ∧ k' ≤ l.length ∧ k' ≤ k + count ∧ (k' = l.length ∨ k' = k + count) ∧
      rf.commitSlots count = { rf with
        commitIndex := k', applyCh := rf.applyCh ++ deliveries σ l k (k' - k) } := by
  have unchanged : rf = { rf with
      commitIndex := k, applyCh := rf.applyCh ++ deliveries σ l k (k - k) } := by
    simp only [Nat.sub_self, deliveries, List.append_nil]
    rw [← committed]
  have base := window.base
  have commit := window.commit
  rw [committed] at base commit
  induction count generalizing rf k with
  | zero => exact ⟨k, le_rfl, by omega, le_rfl, Or.inr rfl, unchanged⟩
  | succ count ih =>
      have length := window.holds.log_length
      have position : rf.getTrueIndex (rf.commitIndex + 1) =
          rf.commitIndex + 1 - rf.lastIndexInSnapshot := getTrueIndex_of_le (by omega)
      simp only [commitSlots_succ, position]
      rw [committed]
      by_cases atEnd : k = l.length
      · rw [if_pos (Or.inl (by omega))]
        exact ⟨k, le_rfl, by omega, by omega, Or.inl atEnd, unchanged⟩
      · have found : l[k]? = some (l[k]) := List.getElem?_eq_getElem (by omega)
        rw [if_neg (by omega), deliver_spec window.holds base committed.le found]
        have window' : Window { rf with
            commitIndex := k + 1
            applyCh := rf.applyCh ++ [⟨true, l[k].command, k + 1, none⟩] } l :=
          window.congr rfl rfl (by dsimp only; omega) (by dsimp only; omega)
        obtain ⟨k', lower, upper, reach, full, equal⟩ :=
          @ih _ window' (k + 1) (by push_cast; rfl)
            (by simp only [Nat.sub_self, deliveries, List.append_nil]; push_cast; rfl)
            (by push_cast; omega) (by push_cast; omega)
        refine ⟨k', by omega, upper, by omega, by omega, ?_⟩
        dsimp only
        have split : k' - k = (k' - (k + 1)) + 1 := by omega
        rw [equal]
        simp only [split, deliveries, found, List.append_assoc, List.singleton_append]

/-- The commit rule raises the commit index to the median of the match indices, if it does
anything and the log reaches that far. -/
theorem leaderCommit (window : rf.Window l) {k : Nat} (committed : rf.commitIndex = k)
    {currComInd : Int} (ruled : rf.leaderCommit currComInd = some rf') :
    ∃ k' nextIndex, k ≤ k' ∧ k' ≤ l.length ∧
      (k' = k ∨ k < currComInd ∧ rf.leaderNum = rf.me ∧
        ∃ median : Nat, rf.toBeCommitIndex = some (median : Int) ∧ k' = min median l.length) ∧
      rf' = { rf with
        commitIndex := k', nextIndex := nextIndex
        applyCh := rf.applyCh ++ deliveries σ l k (k' - k) } := by
  have commit := window.commit
  rw [committed] at commit
  have unchanged : rf = { rf with
      commitIndex := k, applyCh := rf.applyCh ++ deliveries σ l k (k - k) } := by
    simp only [Nat.sub_self, deliveries, List.append_nil]
    rw [← committed]
  unfold Raft.leaderCommit at ruled
  split at ruled
  · cases ruled
    exact ⟨k, rf.nextIndex, le_rfl, by omega, Or.inl rfl, unchanged⟩
  rename_i beyond
  split at ruled
  · cases ruled
  rename_i index median
  split at ruled
  · cases ruled
    exact ⟨k, rf.nextIndex, le_rfl, by omega, Or.inl rfl, unchanged⟩
  rename_i raises
  rw [committed] at raises
  obtain ⟨m, rfl⟩ : ∃ m : Nat, index = m := ⟨index.toNat, by omega⟩
  have count : ((m : Int) - rf.commitIndex).toNat = m - k := by omega
  obtain ⟨k', lower, upper, reach, full, equal⟩ := window.commitSlots committed (m - k)
  rw [count, equal] at ruled
  have raised : k' = k ∨ k < currComInd ∧ rf.leaderNum = rf.me ∧
      ∃ median : Nat, rf.toBeCommitIndex = some (median : Int) ∧ k' = min median l.length :=
    Or.inr ⟨by omega, by omega, m, median, by omega⟩
  dsimp only at ruled
  split at ruled
  · cases ruled
  split at ruled
  · exact ⟨k', _, lower, upper, raised, (Option.some.inj ruled).symm⟩
  · exact ⟨k', rf.nextIndex, lower, upper, raised, (Option.some.inj ruled).symm⟩

/-- Whatever a goroutine of the leader does with a reply, the commands it delivers are the next
ones of the log. It sets the match index of one follower after a success only, and then the
commit index may become the median of the match indices. -/
theorem onReply (window : rf.Window l) {k : Nat} (committed : rf.commitIndex = k)
    {sender : Sender n α σ} {reply : AppendEntryReply} {next : Next α}
    (handled : rf.onReply sender reply = some (rf', next)) :
    ∃ leaderNum k' nextIndex matchIndex waiting, k ≤ k' ∧ k' ≤ l.length ∧
      (k' = k ∧ matchIndex = rf.matchIndex ∨
        reply.success = true ∧ sender.appEn.entries ≠ [] ∧
          ∃ m, rf.newMatch sender.ind sender.appEn reply = some m ∧
            matchIndex = rf.matchIndex.set sender.ind m ∧
            (k' = k ∨ sender.prevLogIndex ≤ m ∧ k < m ∧ rf.leaderNum = rf.me ∧
              ∃ median : Nat, (rf.setProgress sender.ind m).toBeCommitIndex = some (median : Int) ∧
                k' = min median l.length)) ∧
      rf' = { rf with
        leaderNum := leaderNum, commitIndex := (k' : Nat), nextIndex := nextIndex
        matchIndex := matchIndex, aeNotifyChan := waiting
        applyCh := rf.applyCh ++ deliveries σ l k (k' - k) } := by
  have commit := window.commit
  rw [committed] at commit
  have none : rf.applyCh = rf.applyCh ++ deliveries σ l k (k - k) := by simp [deliveries]
  unfold Raft.onReply at handled
  split at handled
  · rename_i success
    rcases onSuccess_cases handled with ⟨_, rfl, _⟩ | ⟨nonempty, rf₁, goesOn, recorded, outcome⟩
    · exact ⟨_, k, _, _, _, le_rfl, by omega, Or.inl ⟨rfl, rfl⟩, by rw [← none, ← committed]⟩
    rcases recordMatch_progress recorded with ⟨m, reached, rfl⟩ | ⟨stops, nextIndex, rfl⟩
    · have window₁ : (rf.setProgress sender.ind m).Window l :=
        window.congr rfl rfl le_rfl window.commit
      have unmoved : ∃ leaderNum k' nextIndex matchIndex waiting, k ≤ k' ∧ k' ≤ l.length ∧
          (k' = k ∧ matchIndex = rf.matchIndex.set sender.ind m) ∧
          rf.setProgress sender.ind m = { rf with
            leaderNum := leaderNum, commitIndex := (k' : Nat), nextIndex := nextIndex
            matchIndex := matchIndex, aeNotifyChan := waiting
            applyCh := rf.applyCh ++ deliveries σ l k (k' - k) } :=
        ⟨_, k, _, _, _, le_rfl, by omega, ⟨rfl, rfl⟩, by rw [← none, ← committed]; rfl⟩
      rcases outcome with ⟨rfl, _⟩ | ⟨currComInd, matched, _, ⟨rfl, _⟩ | ⟨_, far, ruled⟩⟩
      · obtain ⟨leaderNum, k', nextIndex, _, waiting, lower, upper, ⟨same, rfl⟩, equal⟩ := unmoved
        exact ⟨leaderNum, k', nextIndex, _, waiting, lower, upper,
          Or.inr ⟨success, nonempty, m, reached, rfl, Or.inl same⟩, equal⟩
      · obtain ⟨leaderNum, k', nextIndex, _, waiting, lower, upper, ⟨same, rfl⟩, equal⟩ := unmoved
        exact ⟨leaderNum, k', nextIndex, _, waiting, lower, upper,
          Or.inr ⟨success, nonempty, m, reached, rfl, Or.inl same⟩, equal⟩
      · obtain rfl : currComInd = m := by
          have inside := (List.getElem?_eq_some_iff.1 matched).1
          simp only [setProgress, List.length_set] at inside
          simpa [setProgress, List.getElem?_set_self inside] using matched.symm
        obtain ⟨k', _, lower, upper, raised, rfl⟩ := window₁.leaderCommit committed ruled
        refine ⟨_, k', _, _, _, lower, upper,
          Or.inr ⟨success, nonempty, currComInd, reached, rfl, ?_⟩, rfl⟩
        rcases raised with same | ⟨beyond, leads, median, found, equal⟩
        · exact Or.inl same
        · exact Or.inr ⟨far, beyond, leads, median, found, equal⟩
    · rcases outcome with ⟨rfl, _⟩ | ⟨_, _, rfl, _⟩
      · exact ⟨_, k, _, _, _, le_rfl, by omega, Or.inl ⟨rfl, rfl⟩, by rw [← none, ← committed]⟩
      · cases stops
  · rcases onReject_cases handled with ⟨_, _, rfl⟩ | ⟨_, rfl⟩ | ⟨_, _, _, rfl, _⟩
    · exact ⟨_, k, _, _, _, le_rfl, by omega, Or.inl ⟨rfl, rfl⟩, by rw [← none, ← committed]⟩
    · exact ⟨_, k, _, _, _, le_rfl, by omega, Or.inl ⟨rfl, rfl⟩, by rw [← none, ← committed]⟩
    · exact ⟨_, k, _, _, _, le_rfl, by omega, Or.inl ⟨rfl, rfl⟩, by rw [← none, ← committed]⟩

end Window

structure Stands (rf : Raft α σ) (l : List (CommandTerm α)) : Prop where
  holds : rf.Holds l
  base : rf.lastIndexInSnapshot ≤ rf.commitIndex
  commit : rf.commitIndex ≤ l.length
  lastTerm : rf.lastTermInSnapshot = termAt l rf.lastIndexInSnapshot.toNat
  label : 0 < rf.lastIndexInSnapshot → ∃ blob, rf.persister.snapshot = some blob ∧
    blob.lastIndex = rf.lastIndexInSnapshot ∧ blob.lastTerm = rf.lastTermInSnapshot

namespace Stands

theorem window (stands : rf.Stands l) : rf.Window l :=
  ⟨stands.holds, stands.base, stands.commit⟩

theorem of_window (window : rf.Window l)
    (lastTerm : rf.lastTermInSnapshot = termAt l rf.lastIndexInSnapshot.toNat)
    (label : 0 < rf.lastIndexInSnapshot → ∃ blob, rf.persister.snapshot = some blob ∧
      blob.lastIndex = rf.lastIndexInSnapshot ∧ blob.lastTerm = rf.lastTermInSnapshot) :
    rf.Stands l :=
  ⟨window.holds, window.base, window.commit, lastTerm, label⟩

theorem commit_nonneg (stands : rf.Stands l) : 0 ≤ rf.commitIndex :=
  stands.window.commit_nonneg

/-- Nothing that `Stands` speaks about has changed, except perhaps the commit index. -/
theorem congr (stands : rf.Stands l)
    (snapshotIndex : rf'.lastIndexInSnapshot = rf.lastIndexInSnapshot)
    (snapshotTerm : rf'.lastTermInSnapshot = rf.lastTermInSnapshot) (log : rf'.log = rf.log)
    (snapshot : rf'.persister.snapshot = rf.persister.snapshot)
    (lower : rf.commitIndex ≤ rf'.commitIndex) (upper : rf'.commitIndex ≤ l.length) :
    rf'.Stands l where
  holds := stands.holds.congr snapshotIndex log
  base := by
    rw [snapshotIndex]
    exact stands.base.trans lower
  commit := upper
  lastTerm := by rw [snapshotTerm, snapshotIndex, stands.lastTerm]
  label positive := by
    rw [snapshotIndex] at positive
    rw [snapshot, snapshotIndex, snapshotTerm]
    exact stands.label positive

/-! ## Handlers -/

theorem requestVote (stands : rf.Stands l) {args : RequestVoteArgs} {reply : RequestVoteReply}
    (handled : rf.requestVote args = some (rf', reply)) : rf'.Stands l := by
  rcases requestVote_cases handled with
    ⟨rfl, _⟩ | ⟨_, _, rfl, _⟩ | ⟨_, _, _, _, rfl⟩ | ⟨_, _, _, _, _, rfl⟩
  · exact stands
  all_goals exact stands.congr rfl rfl rfl rfl le_rfl stands.commit

/-- `AppendEntry` leaves the log alone, or writes the entries of the message over it. -/
theorem appendEntry (stands : rf.Stands l) {args : AppendEntryArgs α} {reply : AppendEntryReply}
    (handled : rf.appendEntry args = some (rf', reply)) :
    args.term < rf.currentTerm ∧ rf' = rf ∧ reply.success = false ∨
    rf.currentTerm ≤ args.term ∧ rf'.currentTerm = args.term ∧
      (rf'.Stands l ∧ rf'.applyCh = rf.applyCh ∧ rf'.commitIndex = rf.commitIndex ∧
          (reply.success = false ∨ reply.success = true ∧ args.prevLogIndex < rf.commitIndex ∧
            reply.commitIndex = rf.commitIndex) ∨
        ∃ p k' : Nat, args.prevLogIndex = p ∧ rf.commitIndex ≤ p ∧ p ≤ l.length ∧
          termAt l p = args.prevLogTerm ∧ reply.success = true ∧ reply.commitIndex = 0 ∧
          k' = max rf.commitIndex.toNat (min p args.leaderCommit.toNat) ∧ rf'.commitIndex = k' ∧
          rf'.applyCh = rf.applyCh ++
            deliveries σ l rf.commitIndex.toNat (k' - rf.commitIndex.toNat) ∧
          rf'.Stands (if args.entries = [] then l else appended l p args.entries)) := by
  rcases stands.window.appendEntry handled with
    stale | ⟨current, term, base, lastTerm, snapshot, outcome⟩
  · exact Or.inl stale
  refine Or.inr ⟨current, term, ?_⟩
  -- The snapshot keeps its label, and its index is below all that has changed.
  have stands' : ∀ {l'}, rf'.Window l' →
      l'.take rf.commitIndex.toNat = l.take rf.commitIndex.toNat → rf'.Stands l' := by
    intro l' window kept
    apply of_window window
    · rw [lastTerm, base, stands.lastTerm]
      have le := stands.base
      exact (termAt_of_take kept (by omega)).symm
    · rw [base, lastTerm, snapshot]
      exact stands.label
  rcases outcome with ⟨window, channel, commit, answer⟩ |
    ⟨p, k', prev, le, bound, sameTerm, success, zero, k'_def, commit, channel, window, kept⟩
  · exact Or.inl ⟨stands' window rfl, channel, commit, answer⟩
  · refine Or.inr ⟨p, k', prev, le, bound, sameTerm, success, zero, k'_def, commit, channel,
      stands' window ?_⟩
    have below : rf.commitIndex.toNat ≤ p := by omega
    rw [← min_eq_left below, ← List.take_take, kept, List.take_take]

/-- A snapshot that is installed stands for any log that it is the snapshot of. -/
theorem installed (rf : Raft α σ) {blob : Snapshot σ} {messages : List (ApplyMsg α σ)}
    {raftstate : Option (Int × List (CommandTerm α))} {l' : List (CommandTerm α)}
    (length : blob.lastIndex = (l'.length : Int))
    (lastTerm : blob.lastTerm = lastTermOf CommandTerm.term l') :
    Stands { rf with
      lastTermInSnapshot := blob.lastTerm
      log := [⟨none, blob.lastTerm⟩]
      lastIndexInSnapshot := blob.lastIndex
      commitIndex := blob.lastIndex
      applyCh := rf.applyCh ++ messages
      persister := ⟨raftstate, some blob⟩ } l' := by
  apply of_window (.of_sentinel rfl rfl length lastTerm)
  · dsimp only
    rw [lastTerm, length, Int.toNat_natCast, termAt_length]
  · exact fun _ => ⟨blob, rfl, rfl, rfl⟩

/-- Taking a snapshot does not change what the peer stands for. -/
theorem takeSnapshots (stands : rf.Stands l) {state : σ} {index : Int}
    (delivered : index ≤ rf.commitIndex) (taken : rf.takeSnapshots state index = some rf') :
    rf'.Stands l := by
  rcases stands.window.takeSnapshots delivered taken with
    rfl | ⟨k, entry, _, bound, _, term, rfl⟩
  · exact stands
  apply of_window
  · exact stands.window.of_snapshot bound term rfl rfl rfl
  · simp
  · exact fun _ => ⟨_, rfl, rfl, rfl⟩

theorem startAppend (stands : rf.Stands l) {command : α} {curTerm index : Int}
    (appended : rf.startAppend command curTerm = some (rf', index)) :
    rf'.Stands (l ++ [⟨some command, curTerm⟩]) := by
  have window := stands.window.startAppend appended
  obtain ⟨_, rfl⟩ := startAppend_frame appended
  apply of_window window _ stands.label
  simp only [persist]
  rw [termAt_append stands.holds.within, stands.lastTerm]

end Stands

/-! ## Restart -/

/-- `Make` on the contents of the `Persister` gives back the term, the snapshot index and term,
and the log with its sentinel. -/
def recovers [DecidableEq α] (rf : Raft α σ) : Bool :=
  let restored := make rf.peers rf.me rf.persister rf.applyCh
  restored.currentTerm == rf.currentTerm &&
    restored.lastIndexInSnapshot == rf.lastIndexInSnapshot &&
    restored.lastTermInSnapshot == rf.lastTermInSnapshot && restored.log == rf.log

theorem make_label (peers : Nat) (me : Int) (persister : Persister α σ)
    (applyCh : List (ApplyMsg α σ)) :
    (make peers me persister applyCh).commitIndex =
        (make peers me persister applyCh).lastIndexInSnapshot ∧
      (0 < (make peers me persister applyCh).lastIndexInSnapshot →
        ∃ blob, (make peers me persister applyCh).persister.snapshot = some blob ∧
          blob.lastIndex = (make peers me persister applyCh).lastIndexInSnapshot ∧
          blob.lastTerm = (make peers me persister applyCh).lastTermInSnapshot) := by
  rw [make_eq]
  refine ⟨rfl, fun positive => ?_⟩
  cases read : persister.readable with
  | none => simp [read] at positive
  | some blob => exact ⟨blob, Persister.snapshot_of_readable read, rfl, rfl⟩

/-- After a restart that loses nothing, what the snapshot covers is committed. -/
theorem make_commitIndex [DecidableEq α] (recovers : rf.recovers = true) :
    (make rf.peers rf.me rf.persister rf.applyCh).commitIndex = rf.lastIndexInSnapshot := by
  simp only [Raft.recovers, Bool.and_eq_true, beq_iff_eq] at recovers
  rw [(make_label rf.peers rf.me rf.persister rf.applyCh).1, recovers.1.1.2]

theorem Stands.make [DecidableEq α] (stands : rf.Stands l) (recovers : rf.recovers = true) :
    (make rf.peers rf.me rf.persister rf.applyCh).Stands l ∧
      (make rf.peers rf.me rf.persister rf.applyCh).currentTerm = rf.currentTerm := by
  simp only [Raft.recovers, Bool.and_eq_true, beq_iff_eq] at recovers
  obtain ⟨⟨⟨term, base⟩, lastTerm⟩, log⟩ := recovers
  obtain ⟨commit, label⟩ := make_label rf.peers rf.me rf.persister rf.applyCh
  refine ⟨⟨stands.holds.congr base log, commit.ge, ?_, ?_, label⟩, term⟩
  · rw [commit, base]
    exact stands.base.trans stands.commit
  · rw [lastTerm, base, stands.lastTerm]

theorem stands_boot (peers : Nat) (me : Int) (applyCh : List (ApplyMsg α σ)) :
    (make peers me (makePersister α σ) applyCh).Stands [] :=
  ⟨⟨le_rfl, le_rfl, ⟨none, 0⟩, rfl, rfl⟩, le_rfl, le_rfl, rfl,
    fun positive => absurd positive (lt_irrefl _)⟩

end Raft

end Mit6824
