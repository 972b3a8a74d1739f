import Mit6824.Raft.LogView

/-!
# Snapshots of applied entries

`TakeSnapshots` drops the entries below its label, moves the base of the log to the label and
saves both blobs. Seen through absolute indexes nothing changes from the label on: the slot of
the label becomes the new sentinel, and every later entry keeps its index.
-/

namespace Mit6824

namespace Raft

variable {α σ : Type} {rf rf' : Raft α σ} {state : σ} {index k : Int}

/-- Every index from the base to the end of the log has its slot. -/
theorem exists_slot (above : rf.lastIndexInSnapshot ≤ k) (bound : k ≤ rf.getLastLogIndex) :
    ∃ entry, rf.slot (rf.getTrueIndex k) = some entry := by
  rw [getLastLogIndex] at bound
  have inRange : (k - rf.lastIndexInSnapshot).toNat < rf.log.length := by omega
  rw [getTrueIndex_of_le above, slot, if_neg (by omega), List.getElem?_eq_getElem inRange]
  exact ⟨_, rfl⟩

end Raft

end Mit6824
