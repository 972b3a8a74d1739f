import Mathlib.Algebra.Ring.Int.Defs
import Mit6824.Consensus.Logs
import Mit6824.Raft.Messages

/-!
# The whole log of a peer

A peer keeps the entries above its snapshot only. `Raft.Holds rf l` says that the
peer stands for the whole log `l`: its first `lastIndexInSnapshot` entries are in
the snapshot, the rest is in the slots after the sentinel, and the sentinel has
the term of the last entry that is not kept. The entry at absolute index `k` is
`l[k - 1]`.

Nothing that happens above the snapshot can be told from what happens on `l`, and
taking a snapshot does not change `l` at all.
-/

namespace Mit6824

open Consensus

variable {n : Nat} {α σ : Type}

/-- The term at absolute index `k`; the empty log ends in term `0`. -/
def termAt (l : List (CommandTerm α)) (k : Nat) : Int :=
  lastTermOf CommandTerm.term (l.take k)

theorem termAt_succ {l : List (CommandTerm α)} {k : Nat} {entry : CommandTerm α}
    (found : l[k]? = some entry) : termAt l (k + 1) = entry.term := by
  simp [termAt, List.take_add_one, found]

theorem termAt_length (l : List (CommandTerm α)) :
    termAt l l.length = lastTermOf CommandTerm.term l := by
  simp [termAt]

theorem termAt_of_take {l l' : List (CommandTerm α)} {m k : Nat} (same : l.take m = l'.take m)
    (le : k ≤ m) : termAt l k = termAt l' k := by
  have : l.take k = l'.take k := by
    rw [← min_eq_left le, ← List.take_take, same, List.take_take]
  rw [termAt, this, termAt]

theorem termAt_append {l l' : List (CommandTerm α)} {k : Nat} (within : k ≤ l.length) :
    termAt (l ++ l') k = termAt l k := by
  rw [termAt, List.take_append_of_le_length within, termAt]

namespace Raft

variable {rf rf' : Raft α σ} {l : List (CommandTerm α)}

structure Holds (rf : Raft α σ) (l : List (CommandTerm α)) : Prop where
  nonneg : 0 ≤ rf.lastIndexInSnapshot
  within : rf.lastIndexInSnapshot.toNat ≤ l.length
  slots : ∃ sentinel, rf.log = sentinel :: l.drop rf.lastIndexInSnapshot.toNat ∧
    sentinel.term = termAt l rf.lastIndexInSnapshot.toNat

namespace Holds

theorem getLastLogIndex (holds : rf.Holds l) : rf.getLastLogIndex = l.length := by
  obtain ⟨nonneg, within, _, slots, _⟩ := holds
  simp only [Raft.getLastLogIndex, slots, List.length_cons, List.length_drop]
  omega

theorem log_length (holds : rf.Holds l) :
    (rf.log.length : Int) = l.length - rf.lastIndexInSnapshot + 1 := by
  have := holds.getLastLogIndex
  simp only [Raft.getLastLogIndex] at this
  omega

theorem lastTerm (holds : rf.Holds l) : rf.lastTerm = lastTermOf CommandTerm.term l := by
  obtain ⟨_, within, sentinel, slots, term⟩ := holds
  rw [Raft.lastTerm, slots, List.getLast?_cons, List.getLast?_drop]
  split_ifs with empty
  · have all : rf.lastIndexInSnapshot.toNat = l.length := by omega
    simp [term, all, termAt_length]
  · obtain ⟨entry, found⟩ : ∃ entry, l.getLast? = some entry :=
      ⟨_, List.getLast?_eq_some_getLast (List.ne_nil_of_length_pos (by omega))⟩
    simp [found, lastTermOf]

/-- Below the snapshot every index leads to the sentinel. -/
theorem slot_below (holds : rf.Holds l) {index : Int} (below : index ≤ rf.lastIndexInSnapshot) :
    ∃ entry, rf.slot (rf.getTrueIndex index) = some entry ∧
      entry.term = termAt l rf.lastIndexInSnapshot.toNat := by
  obtain ⟨_, _, sentinel, slots, term⟩ := holds
  have zero : rf.getTrueIndex index = 0 := by
    unfold getTrueIndex
    split_ifs <;> omega
  exact ⟨sentinel, by simp [zero, slot, slots], term⟩

/-- The slot of an index that is not below the snapshot. -/
theorem slot_at (holds : rf.Holds l) {k : Nat} (above : rf.lastIndexInSnapshot ≤ k)
    (bound : k ≤ l.length) :
    ∃ entry, rf.slot (rf.getTrueIndex k) = some entry ∧ entry.term = termAt l k ∧
      (rf.lastIndexInSnapshot < k → l[k - 1]? = some entry) := by
  rcases above.eq_or_lt with same | above
  · have below : (k : Int) ≤ rf.lastIndexInSnapshot := same.ge
    obtain ⟨entry, found, term⟩ := holds.slot_below below
    refine ⟨entry, found, ?_, by omega⟩
    rw [term]
    congr 1
    omega
  · obtain ⟨nonneg, _, sentinel, slots, _⟩ := holds
    obtain ⟨k, rfl⟩ : ∃ m, k = m + 1 := ⟨k - 1, by omega⟩
    have inside : l[k]? = some (l[k]) := List.getElem?_eq_getElem (by omega)
    refine ⟨l[k], ?_, (termAt_succ inside).symm, fun _ => inside⟩
    rw [getTrueIndex_of_le (by omega), slot_eq_some_iff]
    refine ⟨by omega, ?_⟩
    have position : (((k + 1 : Nat) : Int) - rf.lastIndexInSnapshot).toNat =
        (k - rf.lastIndexInSnapshot.toNat) + 1 := by omega
    rw [position, slots, List.getElem?_cons_succ, List.getElem?_drop, ← inside]
    congr 1
    omega

theorem entryAt (holds : rf.Holds l) {k : Nat} (above : rf.lastIndexInSnapshot < k) :
    rf.entryAt k = l[k - 1]? := by
  obtain ⟨nonneg, _, sentinel, slots, _⟩ := holds
  have position : ((k : Int) - rf.lastIndexInSnapshot).toNat =
      (k - 1 - rf.lastIndexInSnapshot.toNat) + 1 := by omega
  simp only [Raft.entryAt, not_le.2 above, if_false, slot]
  rw [if_neg (by omega), position, slots, List.getElem?_cons_succ, List.getElem?_drop]
  congr 1
  omega

theorem log_ne_nil (holds : rf.Holds l) : rf.log ≠ [] := by
  obtain ⟨_, _, _, slots, _⟩ := holds
  simp [slots]

/-- Only the snapshot index and the slots matter. -/
theorem congr (holds : rf.Holds l) (base : rf'.lastIndexInSnapshot = rf.lastIndexInSnapshot)
    (log : rf'.log = rf.log) : rf'.Holds l := by
  obtain ⟨nonneg, within, slots⟩ := holds
  exact ⟨by rwa [base], by rwa [base], by rwa [base, log]⟩

/-- Other entries above the snapshot make another whole log. -/
theorem rewrite (holds : rf.Holds l) {l' : List (CommandTerm α)} {sentinel : CommandTerm α}
    (slots : rf.log = sentinel :: l.drop rf.lastIndexInSnapshot.toNat)
    (same : l'.take rf.lastIndexInSnapshot.toNat = l.take rf.lastIndexInSnapshot.toNat)
    (within : rf.lastIndexInSnapshot.toNat ≤ l'.length)
    (base : rf'.lastIndexInSnapshot = rf.lastIndexInSnapshot)
    (log : rf'.log = sentinel :: l'.drop rf.lastIndexInSnapshot.toNat) : rf'.Holds l' := by
  obtain ⟨sentinel', slots', term⟩ := holds.slots
  have equal : sentinel' = sentinel := by
    rw [slots'] at slots
    exact (List.cons.inj slots).1
  subst equal
  refine ⟨by rw [base]; exact holds.nonneg, by rwa [base], sentinel', by rwa [base], ?_⟩
  rw [term, base, termAt_of_take same le_rfl]

end Holds

end Raft

end Mit6824
