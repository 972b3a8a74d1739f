import Mit6824.Raft.Stream

/-!
# Messages are pieces of the log

A follower trusts that `PrevLogTerm` is the term its leader has at `PrevLogIndex`, and that the
entries are those that follow (`Raft.IsPiece`). A message that starts inside the snapshot is none:
its `PrevLogIndex` is clamped to the sentinel, whose term it carries for another index. That is so
for every first message after `sendSnapShot`, because its `PrevLogIndex` was set before. It may be
so after a reply: where a snapshot has overtaken the follower in the meantime, or where the
snapshot was refused because of its term.

All other messages are pieces of the log (`message_isPiece`), as long as the sentinel has the term
of the snapshot. A crash between the installation of a snapshot and the next save ends that.
-/

namespace Mit6824

open Consensus

variable {n : Nat} {α σ : Type}

namespace Raft

variable {rf rf' : Raft α σ} {l : List (CommandTerm α)} {args : AppendEntryArgs α}

/-- `PrevLogTerm` is the term at `PrevLogIndex`, and the entries are those behind it. -/
structure IsPiece (rf : Raft α σ) (args : AppendEntryArgs α) : Prop where
  above : rf.lastIndexInSnapshot ≤ args.prevLogIndex
  snapshot : args.prevLogIndex = rf.lastIndexInSnapshot → args.prevLogTerm = rf.lastTermInSnapshot
  prev : rf.lastIndexInSnapshot < args.prevLogIndex →
    (rf.entryAt args.prevLogIndex).map CommandTerm.term = some args.prevLogTerm
  entries : ∀ k < args.entries.length, args.entries[k]? = rf.entryAt (args.prevLogIndex + 1 + k)

/-- The sentinel has the term of the snapshot. -/
def Headed (rf : Raft α σ) : Prop :=
  ∀ slot ∈ rf.log.head?, slot.term = rf.lastTermInSnapshot

theorem entryAt_of_lt {index : Int} (above : rf.lastIndexInSnapshot < index) :
    rf.entryAt index = rf.log[(index - rf.lastIndexInSnapshot).toNat]? := by
  rw [entryAt, if_neg (not_le.2 above), slot, if_neg (by omega)]

theorem Cuts.isPiece (cuts : rf.Cuts args) (headed : rf.Headed)
    (above : rf.lastIndexInSnapshot ≤ args.prevLogIndex) : rf.IsPiece args := by
  obtain ⟨entry, found, term⟩ := cuts.prev
  rw [getTrueIndex_of_le above, slot_eq_some_iff] at found
  refine ⟨above, fun equal => ?_, fun beyond => ?_, fun k inside => ?_⟩
  · have zero : (args.prevLogIndex - rf.lastIndexInSnapshot).toNat = 0 := by omega
    rw [zero, ← List.head?_eq_getElem?] at found
    rw [term]
    exact headed entry found.2
  · rw [entryAt_of_lt beyond, found.2, term]
    rfl
  · have nonempty : args.entries ≠ [] := List.ne_nil_of_length_pos (by omega)
    obtain ⟨rest, split⟩ := cuts.entries nonempty above
    rw [entryAt_of_lt (by omega), ← List.getElem?_append_left inside, split, List.getElem?_drop,
      getTrueIndex_of_le above]
    congr 1
    omega

/-! ## The sentinel -/

theorem Headed.sameLog (headed : rf.Headed) (same : rf.SameLog rf') : rf'.Headed := by
  intro slot first
  rw [same.log] at first
  rw [same.lastTerm]
  exact headed slot first

theorem Cuts.isPiece_of_sameLog (cuts : rf'.Cuts args) (same : rf.SameLog rf')
    (headed : rf.Headed) (above : rf.lastIndexInSnapshot ≤ args.prevLogIndex) :
    rf'.IsPiece args :=
  cuts.isPiece (headed.sameLog same) (same.base.le.trans above)

theorem Window.headed_iff (window : rf.Window l) :
    rf.Headed ↔ rf.lastTermInSnapshot = termAt l rf.lastIndexInSnapshot.toNat := by
  obtain ⟨sentinel, slots, term⟩ := window.holds.slots
  simp only [Headed, slots, List.head?_cons, Option.mem_some, forall_eq']
  rw [term]
  exact eq_comm

end Raft

/-- The log that was saved starts with the term of the snapshot that was saved. -/
def Persister.agrees (persister : Persister α σ) : Bool :=
  persister.raftstate.all fun saved =>
    saved.2.head?.map CommandTerm.term ==
      some ((persister.snapshot.map Snapshot.lastTerm).getD 0)

theorem Raft.headed_make (peers : Nat) (me : Int) {persister : Persister α σ}
    (applyCh : List (ApplyMsg α σ)) (sound : persister.Sound) (agrees : persister.agrees = true) :
    (make peers me persister applyCh).Headed := by
  intro slot first
  rw [make_eq] at first ⊢
  rcases Persister.mem_head?_startLog first with ⟨saved, found, kept⟩ | term
  · rw [Persister.agrees, show persister.raftstate = some saved from found, Option.all_some,
      beq_iff_eq] at agrees
    dsimp only
    rw [Persister.readable_eq sound.labelled]
    rcases kept with kept | ⟨empty, _⟩
    · rw [show saved.2.head? = some slot from kept] at agrees
      exact Option.some.inj agrees
    · simp [empty] at agrees
  · exact term

namespace Server

variable {i : Fin n} {server server' : Server n α σ} {input : Input n α σ} {rf' : Raft α σ}
  {output : Output n α σ}

/-- A crash finds a saved log that starts at the saved snapshot. -/
def restartsWhole (server : Server n α σ) : Input n α σ → Bool
  | .restart => server.rf.persister.agrees
  | _ => true

theorem LogMoves.headed (moves : LogMoves i server input rf') (standing : server.rf.Standing)
    (headed : server.rf.Headed) (whole : server.restartsWhole input = true) : rf'.Headed := by
  obtain ⟨l, window⟩ := standing.window
  have lastTerm := window.headed_iff.1 headed
  cases moves with
  | same same => exact headed.sameLog same
  | appendEntry handled =>
      have below := window.base
      rcases window.appendEntry handled with
        ⟨_, rfl, _⟩ | ⟨_, _, base, label, _, ⟨window', _⟩ |
          ⟨p, _, _, _, _, _, _, _, _, _, _, window', kept⟩⟩
      · exact headed
      · rwa [window'.headed_iff, base, label]
      · rw [window'.headed_iff, base, label, lastTerm]
        exact (termAt_of_take kept (by omega)).symm
  | installSnapShot _ _ _ => simp [Raft.Headed]
  | entryReply handled =>
      obtain ⟨_, _, _, _, _, _, _, rfl⟩ := Raft.onReply_frame handled
      exact headed
  | startAppend appended =>
      have window' := window.startAppend appended
      obtain ⟨_, rfl⟩ := Raft.startAppend_frame appended
      rw [window'.headed_iff]
      exact lastTerm.trans (termAt_append window.holds.within).symm
  | takeSnapshots delivered taken =>
      rcases window.takeSnapshots delivered taken with rfl | ⟨_, _, _, _, _, term, rfl⟩
      · exact headed
      · simp [Raft.Headed, term]
  | restart => exact Raft.headed_make n i server.rf.applyCh standing.sound whole

/-- The message that this step may build does not start inside the snapshot. -/
def startsAbove (server : Server n α σ) : Input n α σ → Bool
  | .snapShotReply _ =>
      match server.phase with
      | .snapshotting _ _ _ _ appEn _ =>
          decide (server.rf.lastIndexInSnapshot ≤ appEn.prevLogIndex)
      | _ => true
  | .entryReply k reply =>
      server.senders[k]?.all fun sender =>
        !reply.success ||
          (if reply.commitIndex ≠ 0 then some reply.commitIndex
            else server.rf.nextIndex[sender.ind.val]?.map fun next =>
              Raft.reachedBy next sender.appEn).all fun start =>
            decide (min sender.prevLogIndex server.rf.lastIndexInSnapshot ≤ start)
  | .retrySnapShotReply k reply =>
      server.senders[k]?.all fun sender =>
        if reply.errCode = 2 then decide (server.rf.lastIndexInSnapshot ≤ reply.value)
        else if reply.errCode = 3 ∨ reply.errCode = 0 then
          sender.snapshot.all fun args =>
            decide (server.rf.lastIndexInSnapshot ≤ args.lastIncludedIndex)
        else server.rf.matchIndex[sender.ind.val]?.all fun matched =>
          decide (server.rf.lastIndexInSnapshot ≤ matched)
  | _ => true

theorem spawn_cuts {cache : TermCache} {logLen : Int} {ind : Fin n} {appEn : AppendEntryArgs α}
    (spawned : server.spawn cache logLen ind appEn = some (server', output)) {dst : Fin n}
    {args : AppendEntryArgs α} (sent : (dst, .appendEntry args) ∈ output.sends) :
    server'.rf = server.rf ∧ server.rf.Cuts args ∧ args.prevLogIndex = appEn.prevLogIndex := by
  rcases spawn_cases spawned with ⟨_, rfl, rfl⟩ | ⟨appEn', filled, _, rfl, rfl⟩
  · simp at sent
  · obtain ⟨_, rfl⟩ : _ ∧ args = appEn' := by simpa using sent
    exact ⟨rfl, (Raft.fillEntry_cuts filled).1, Raft.fillEntry_prevLogIndex filled⟩

theorem proceed_retry {k : Nat} {sender : Sender n α σ} {next : Next α}
    (proceeds : server.proceed k sender next = (server', output)) {dst : Fin n}
    {args : AppendEntryArgs α} (sent : (dst, .appendEntry args) ∈ output.sends) :
    server'.rf = server.rf ∧ ∃ appEnTerm, next = .retry args appEnTerm := by
  rcases proceed_cases proceeds with
    ⟨_, rfl, rfl⟩ | ⟨appEn, appEnTerm, rfl, _, rfl, rfl⟩ | ⟨_, rfl, rfl⟩
  · simp at sent
  · obtain ⟨_, rfl⟩ : _ ∧ args = appEn := by simpa using sent
    exact ⟨rfl, appEnTerm, rfl⟩
  · simp at sent

/-- A follower that is served without a snapshot is ahead of it. -/
theorem distribute_cuts (distributed : server.distribute = some (server', output)) {dst : Fin n}
    {args : AppendEntryArgs α} (sent : (dst, .appendEntry args) ∈ output.sends) :
    server'.rf = server.rf ∧ server.rf.Cuts args ∧
      server.rf.lastIndexInSnapshot ≤ args.prevLogIndex := by
  unfold distribute at distributed
  split at distributed
  · cases distributed
    simp at sent
  · split at distributed
    · cases distributed
    · split at distributed
      · cases distributed
        simp at sent
      · rename_i ahead
        obtain ⟨same, cuts, start⟩ := spawn_cuts distributed sent
        exact ⟨same, cuts, by rw [start]; omega⟩
  · cases distributed

theorem entryReply_above {k : Nat} {reply : AppendEntryReply} {sender : Sender n α σ}
    {appEn : AppendEntryArgs α} {appEnTerm : Int} (found : server.senders[k]? = some sender)
    (handled : server.rf.onReply sender reply = some (rf', .retry appEn appEnTerm))
    (above : server.startsAbove (.entryReply k reply) = true) :
    server.rf.lastIndexInSnapshot ≤ appEn.prevLogIndex := by
  rcases Raft.onReply_start handled with ⟨success, short, start⟩ | ⟨_, done⟩
  · rw [Raft.newMatch] at start
    simp only [startsAbove, found, Option.all_some, success, Bool.not_true, Bool.false_or, start,
      decide_eq_true_eq] at above
    omega
  · exact done

theorem retrySnapShotReply_above {k : Nat} {reply : InstallSnapShotReply} {sender : Sender n α σ}
    {args : InstallSnapShotArgs σ} {start : Int} (found : server.senders[k]? = some sender)
    (waits : sender.snapshot = some args)
    (matched : (server.rf.snapShotReply sender.ind args reply).matchIndex[sender.ind.val]? =
      some start)
    (above : server.startsAbove (.retrySnapShotReply k reply) = true) :
    server.rf.lastIndexInSnapshot ≤ start := by
  simp only [startsAbove, found, Option.all_some, waits] at above
  have written : ∀ {m : Int}, (server.rf.matchIndex.set sender.ind m)[sender.ind.val]? =
      some start → m = start := by
    intro m found'
    have inside := (List.getElem?_eq_some_iff.1 found').1
    rw [List.length_set] at inside
    rw [List.getElem?_set_self inside] at found'
    exact Option.some.inj found'
  unfold Raft.snapShotReply at matched
  by_cases stale : reply.errCode = 1
  · rw [if_pos stale] at matched
    simpa [stale, matched] using above
  rw [if_neg stale] at matched
  by_cases old : reply.errCode = 2
  · rw [if_pos old] at matched above
    rw [← written matched]
    simpa using above
  rw [if_neg old] at matched above
  by_cases done : reply.errCode = 3 ∨ reply.errCode = 0
  · rw [if_pos done] at matched above
    rw [← written matched]
    simpa using above
  · rw [if_neg done] at matched above
    simpa [matched] using above

/-- Every `AppendEntry` of a step of `startsAbove` is a piece of the log of its sender. -/
theorem Moves.isPiece (moves : Moves i server input server' output)
    (stepped : server.step i input = some (server', output)) (headed : server.rf.Headed)
    (above : server.startsAbove input = true) {dst : Fin n} {args : AppendEntryArgs α}
    (sent : (dst, .appendEntry args) ∈ output.sends) : server'.rf.IsPiece args := by
  cases moves with
  | distribute _ _ _ =>
      obtain ⟨same, cuts, start⟩ := distribute_cuts stepped sent
      rw [same]
      exact cuts.isPiece headed start
  | snapShotReply phase spawned =>
      obtain ⟨same, cuts, start⟩ := spawn_cuts spawned sent
      simp only [startsAbove, phase, decide_eq_true_eq] at above
      rw [same]
      exact cuts.isPiece_of_sameLog (Raft.sameLog_snapShotReply ..) headed (start ▸ above)
  | entryReply found _ handled proceeds =>
      obtain ⟨same, appEnTerm, rfl⟩ := proceed_retry proceeds sent
      have start := entryReply_above found handled above
      have cuts := (Raft.onReply_cuts handled).1
      obtain ⟨_, _, _, _, _, _, _, rfl⟩ := Raft.onReply_frame handled
      rw [same]
      exact cuts.isPiece headed start
  | retrySnapShotReply found waits handled proceeds =>
      obtain ⟨same, appEnTerm, rfl⟩ := proceed_retry proceeds sent
      obtain ⟨cuts, _, _, matched, _⟩ := Raft.afterSnapShot_cuts handled
      have start := retrySnapShotReply_above found waits matched above
      rw [same]
      exact cuts.isPiece_of_sameLog (Raft.sameLog_snapShotReply ..) headed start
  | startRound _ _ => simp at sent
  | snapshot _ _ _ => simp at sent
  | _ => cases sent

end Server

end Mit6824
