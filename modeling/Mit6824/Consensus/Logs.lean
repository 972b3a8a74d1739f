import Mathlib.Data.List.TakeDrop
import Mathlib.Data.List.Infix
import Mathlib.Order.Lattice
import Mathlib.Algebra.Notation.Defs
import Mathlib.Tactic.Common

/-!
# Logs of a replicated state machine

A log is a list of entries of an arbitrary type `ε`; all that matters about an
entry is its term `termOf e`, in a linear order. This file has the comparison by
which a voter judges a candidate's log, and the way a follower takes over a
stretch of its leader's log.
-/

namespace Mit6824.Consensus

universe u v

section Logs

variable {ε : Type u} {τ : Type v} [LinearOrder τ] [Zero τ] {termOf : ε → τ}

/-- The term of the last entry; an empty log counts as one that ends in term `0`. -/
def lastTermOf (termOf : ε → τ) (l : List ε) : τ :=
  (l.getLast?.map termOf).getD 0

/-- `l` ends in a later term than `l'`, or in the same term and is at least as long. -/
def UpToDate (termOf : ε → τ) (l l' : List ε) : Prop :=
  lastTermOf termOf l' < lastTermOf termOf l ∨
    lastTermOf termOf l = lastTermOf termOf l' ∧ l'.length ≤ l.length

omit [LinearOrder τ] in
@[simp]
theorem lastTermOf_nil : lastTermOf termOf [] = 0 := rfl

omit [LinearOrder τ] in
@[simp]
theorem lastTermOf_concat (l : List ε) (e : ε) : lastTermOf termOf (l ++ [e]) = termOf e := by
  simp [lastTermOf]

theorem UpToDate.refl (l : List ε) : UpToDate termOf l l :=
  Or.inr ⟨rfl, le_rfl⟩

open Classical in
/-- Take over `p`: a log that has it already stays as it is, any other log becomes `p`. -/
noncomputable def graft (l p : List ε) : List ε :=
  if p <+: l then l else p

theorem graft_of_has {l p : List ε} (has : p <+: l) : graft l p = l :=
  if_pos has

theorem graft_of_lacks {l p : List ε} (lacks : ¬p <+: l) : graft l p = p :=
  if_neg lacks

theorem graft_cases (l p : List ε) : graft l p = l ∧ p <+: l ∨ graft l p = p ∧ ¬p <+: l := by
  by_cases has : p <+: l
  · exact Or.inl ⟨graft_of_has has, has⟩
  · exact Or.inr ⟨graft_of_lacks has, has⟩

theorem isPrefix_graft {l p q : List ε} (within : q <+: p) : q <+: graft l p := by
  rcases graft_cases l p with ⟨same, has⟩ | ⟨taken, _⟩
  · rw [same]
    exact within.trans has
  · rwa [taken]

/-- The first entries of a log are not changed by taking over a stretch of another log that
agrees with them. -/
theorem isPrefix_graft_of_common {l p q : List ε} (has : q <+: l) (common : q <+: p ∨ p <+: q) :
    q <+: graft l p := by
  rcases common with within | within
  · exact isPrefix_graft within
  · rwa [graft_of_has (within.trans has)]

theorem take_eq_of_isPrefix {l l' : List ε} {k : ℕ} (within : l <+: l') (bound : k ≤ l.length) :
    l.take k = l'.take k := by
  obtain ⟨rest, rfl⟩ := within
  rw [List.take_append_of_le_length bound]

/-- Prefixes of one list are comparable. -/
theorem take_isPrefix_or {l m : List ε} {k : ℕ} (within : m <+: l) :
    m <+: l.take k ∨ l.take k <+: m := by
  rcases le_total m.length k with short | long
  · exact Or.inl (List.prefix_take_iff.2 ⟨within, short⟩)
  · right
    rw [← take_eq_of_isPrefix within long]
    exact List.take_prefix k m

theorem getElem?_of_isPrefix {l l' : List ε} {k : ℕ} {e : ε} (within : l <+: l')
    (found : l[k]? = some e) : l'[k]? = some e := by
  obtain ⟨rest, rfl⟩ := within
  have bound : k < l.length := (List.getElem?_eq_some_iff.1 found).1
  rwa [List.getElem?_append_left bound]

end Logs

end Mit6824.Consensus
