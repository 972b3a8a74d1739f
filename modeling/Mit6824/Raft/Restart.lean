import Mit6824.Raft.Election

/-!
# Restart

A peer that crashes is made again from its `Persister`. `Raft.Restores` says that
nothing is lost by that; `Raft.Saved` is the invariant behind it. Two steps break
it: a snapshot that is installed while the saved log still has entries, which are
then read back above the new base, and the term of an outdated snapshot's answer,
which is taken over and not saved.
-/

namespace Mit6824

variable {n : Nat} {α σ : Type}

namespace Raft

variable {rf rf' : Raft α σ}

/-- The `Persister` has the term and every entry above the snapshot, and the snapshot with its
label. -/
structure Saved (rf : Raft α σ) : Prop where
  state : rf.persister.raftstate = none ∧ rf.currentTerm = 0 ∧ rf.log.length ≤ 1 ∨
    ∃ log, rf.persister.raftstate = some (rf.currentTerm, log) ∧ log.tail = rf.log.tail
  snapshot : rf.persister.snapshot = none ∧ rf.lastIndexInSnapshot = 0 ∧
      rf.lastTermInSnapshot = 0 ∨
    0 < rf.lastIndexInSnapshot ∧ ∃ state,
      rf.persister.snapshot = some ⟨state, rf.lastIndexInSnapshot, rf.lastTermInSnapshot⟩

theorem Saved.base_nonneg (saved : rf.Saved) : 0 ≤ rf.lastIndexInSnapshot := by
  rcases saved.snapshot with ⟨_, base, _⟩ | ⟨base, _⟩ <;> omega

/-- What the state was before does not matter if all of it is saved now. -/
theorem Saved.persist
    (snapshot : rf.persister.snapshot = none ∧ rf.lastIndexInSnapshot = 0 ∧
        rf.lastTermInSnapshot = 0 ∨
      0 < rf.lastIndexInSnapshot ∧ ∃ state,
        rf.persister.snapshot = some ⟨state, rf.lastIndexInSnapshot, rf.lastTermInSnapshot⟩) :
    rf.persist.Saved :=
  ⟨Or.inr ⟨rf.log, rfl, rfl⟩, snapshot⟩

theorem Saved.notified (saved : rf.Saved) (waiting : Nat) :
    { rf with aeNotifyChan := waiting }.Saved :=
  ⟨saved.state, saved.snapshot⟩

theorem make_raftstate (peers : Nat) (me : Int) (persister : Persister α σ)
    (applyCh : List (ApplyMsg α σ)) :
    (make peers me persister applyCh).currentTerm = (persister.raftstate.map Prod.fst).getD 0 ∧
      (make peers me persister applyCh).log.tail =
        ((persister.raftstate.map Prod.snd).getD []).tail := by
  rw [make_eq]
  exact ⟨rfl, persister.startLog_tail⟩

theorem make_snapshot (peers : Nat) (me : Int) (persister : Persister α σ)
    (applyCh : List (ApplyMsg α σ))
    (labelled : ∀ blob, persister.snapshot = some blob → 0 < blob.lastIndex) :
    (make peers me persister applyCh).persister = persister ∧
      (make peers me persister applyCh).lastIndexInSnapshot =
        (persister.snapshot.map Snapshot.lastIndex).getD 0 ∧
      (make peers me persister applyCh).lastTermInSnapshot =
        (persister.snapshot.map Snapshot.lastTerm).getD 0 := by
  rw [make_eq, Persister.readable_eq labelled]
  exact ⟨rfl, rfl, rfl⟩

/-- A saved peer is saved again right after its restart, with the same contents. -/
theorem Saved.make (saved : rf.Saved) (peers : Nat) (me : Int) (applyCh : List (ApplyMsg α σ)) :
    (Raft.make peers me rf.persister applyCh).Saved ∧
      (Raft.make peers me rf.persister applyCh).currentTerm = rf.currentTerm ∧
      (Raft.make peers me rf.persister applyCh).lastIndexInSnapshot = rf.lastIndexInSnapshot ∧
      (Raft.make peers me rf.persister applyCh).lastTermInSnapshot = rf.lastTermInSnapshot ∧
      (Raft.make peers me rf.persister applyCh).log.tail = rf.log.tail := by
  have labelled : ∀ blob, rf.persister.snapshot = some blob → 0 < blob.lastIndex := by
    intro blob found
    rcases saved.snapshot with ⟨none, _⟩ | ⟨positive, _, label⟩
    · rw [none] at found
      cases found
    · rw [label] at found
      cases found
      exact positive
  obtain ⟨term, tail⟩ := make_raftstate peers me rf.persister applyCh
  obtain ⟨persister, base, lastTerm⟩ := make_snapshot peers me rf.persister applyCh labelled
  have base' : (Raft.make peers me rf.persister applyCh).lastIndexInSnapshot =
      rf.lastIndexInSnapshot := by
    rw [base]
    rcases saved.snapshot with ⟨none, zero, _⟩ | ⟨_, _, label⟩
    · simp [none, zero]
    · simp [label]
  have lastTerm' : (Raft.make peers me rf.persister applyCh).lastTermInSnapshot =
      rf.lastTermInSnapshot := by
    rw [lastTerm]
    rcases saved.snapshot with ⟨none, _, zero⟩ | ⟨_, _, label⟩
    · simp [none, zero]
    · simp [label]
  have state : (Raft.make peers me rf.persister applyCh).currentTerm = rf.currentTerm ∧
      (Raft.make peers me rf.persister applyCh).log.tail = rf.log.tail := by
    rw [term, tail]
    rcases saved.state with ⟨none, zero, short⟩ | ⟨log, found, same⟩
    · refine ⟨by simp [none, zero], ?_⟩
      rw [none]
      exact (List.eq_nil_of_length_eq_zero (by rw [List.length_tail]; omega)).symm
    · simp [found, same]
  refine ⟨⟨?_, ?_⟩, state.1, base', lastTerm', state.2⟩
  · rw [persister, state.1]
    rcases saved.state with ⟨none, zero, short⟩ | ⟨log, found, same⟩
    · refine Or.inl ⟨none, zero, ?_⟩
      have := congrArg List.length state.2
      simp only [List.length_tail] at this
      omega
    · exact Or.inr ⟨log, found, same.trans state.2.symm⟩
  · rw [persister, base', lastTerm']
    exact saved.snapshot

end Raft

namespace Server

end Server

namespace Raft

variable {rf rf' : Raft α σ}

theorem Saved.requestVote {args : RequestVoteArgs} {reply : RequestVoteReply} (saved : rf.Saved)
    (handled : rf.requestVote args = some (rf', reply)) : rf'.Saved := by
  rcases requestVote_cases handled with
    ⟨rfl, _⟩ | ⟨_, _, rfl, _⟩ | ⟨_, _, _, _, rfl⟩ | ⟨_, _, _, _, _, rfl⟩
  · exact saved
  · exact .persist saved.snapshot
  · exact .persist saved.snapshot
  · exact ⟨saved.state, saved.snapshot⟩

theorem Saved.appendEntry {args : AppendEntryArgs α} {reply : AppendEntryReply}
    (saved : rf.Saved) (handled : rf.appendEntry args = some (rf', reply)) : rf'.Saved := by
  rcases appendEntry_frame handled with ⟨_, rfl⟩ | ⟨_, _, _, _, _, _, rfl, _⟩
  · exact saved.notified _
  · exact .persist saved.snapshot

theorem Saved.installSnapShot {args : InstallSnapShotArgs σ} {reply : InstallSnapShotReply}
    (saved : rf.Saved)
    (emptied : rf.installs args = true → ∀ state ∈ rf.persister.raftstate, state.2.length ≤ 1)
    (handled : rf.installSnapShot args = some (rf', reply)) : rf'.Saved := by
  rcases installSnapShot_cases handled with
    ⟨rfl, _⟩ | ⟨rfl, _⟩ | ⟨rfl, _⟩ | ⟨installs, _, _, above, _, blob, _, label, rfl⟩
  · exact saved
  · exact saved
  · exact saved
  · have base := saved.base_nonneg
    refine ⟨?_, Or.inr ⟨?_, blob.state, rfl⟩⟩
    · rcases saved.state with ⟨none, zero, _⟩ | ⟨log, found, _⟩
      · exact Or.inl ⟨none, zero, by simp⟩
      · have short := emptied installs _ found
        refine Or.inr ⟨log, found, ?_⟩
        exact List.eq_nil_of_length_eq_zero (by rw [List.length_tail]; simp only at short; omega)
    · dsimp only
      omega

theorem Saved.takeSnapshots {state : σ} {index : Int} (saved : rf.Saved)
    (taken : rf.takeSnapshots state index = some rf') : rf'.Saved := by
  rcases takeSnapshots_cases taken with rfl | ⟨entry, log, positive, _, _, _, rfl⟩
  · exact saved
  · exact ⟨Or.inr ⟨log, rfl, rfl⟩, Or.inr ⟨positive, state, rfl⟩⟩

theorem Saved.snapShotReply {ind : Nat} {args : InstallSnapShotArgs σ}
    {reply : InstallSnapShotReply} (saved : rf.Saved)
    (kept : reply.errCode = 1 → reply.term = rf.currentTerm) :
    (rf.snapShotReply ind args reply).Saved := by
  rcases rf.snapShotReply_cases ind args reply with ⟨stale, frame⟩ | ⟨_, _, _, frame⟩
  · rw [frame, kept stale]
    exact ⟨saved.state, saved.snapshot⟩
  · rw [frame]
    exact ⟨saved.state, saved.snapshot⟩

end Raft

namespace Server

variable {i : Fin n} {server server' : Server n α σ} {input : Input n α σ}
  {output : Output n α σ}

end Server

namespace Cluster

variable [DecidableEq α] [DecidableEq σ] {c : Cluster n α σ}

/-- Server `0` wins term `1` and is given the command `7`. -/
def firstCommand : List (Action 3 Nat Unit) :=
  firstElection Nat Unit ++
    [.internal 0 .roundOver, .internal 0 (.startCheck 7), .internal 0 (.startAppend 0)]

end Cluster

end Mit6824
