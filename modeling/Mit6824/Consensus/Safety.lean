import Mathlib.Order.Interval.Finset.Basic
import Mit6824.Consensus.Steps

/-!
# What the invariant is for

For quorums any two of which meet: logs that have an entry of one term at one
position agree up to it (`Grounded.matching`), a term has one leader
(`Inv.leader_unique`), and every later leader has what was committed
(`Inv.completeness`), so that committed stretches agree (`Committed.compare`).
-/

namespace Mit6824.Consensus

universe u v w

namespace History

variable {ι : Type u} {τ : Type v} {ε : Type w} {termOf : ε → τ} {quorum : Set ι → Prop}
  {h h' : History ι τ ε}

/-- Log matching: one term at one position means one log up to that position. -/
theorem Grounded.matching {l l' : List ε} (grounded : h.Grounded termOf l)
    (grounded' : h.Grounded termOf l') {k : ℕ} {e e' : ε} (found : l[k]? = some e)
    (found' : l'[k]? = some e') (sameTerm : termOf e = termOf e') :
    l.take (k + 1) = l'.take (k + 1) := by
  obtain ⟨_, within⟩ := grounded found
  obtain ⟨_, within'⟩ := grounded' found'
  rw [← sameTerm] at within'
  have bound : k < l.length := (List.getElem?_eq_some_iff.1 found).1
  have bound' : k < l'.length := (List.getElem?_eq_some_iff.1 found').1
  refine (List.prefix_of_prefix_length_le within within' ?_).eq_of_length ?_
  · simp only [List.length_take]
    omega
  · simp only [List.length_take]
    omega

/-- A log is a prefix of the ledger of the term of its last entry. -/
theorem Grounded.isPrefix_ledger {l : List ε} (grounded : h.Grounded termOf l) {e : ε}
    (last : l.getLast? = some e) :
    h.leader (termOf e) ≠ none ∧ l <+: h.ledger (termOf e) := by
  rw [List.getLast?_eq_getElem?] at last
  obtain ⟨led, within⟩ := grounded last
  refine ⟨led, ?_⟩
  rwa [List.take_of_length_le (by omega)] at within

variable [LinearOrder τ] [Zero τ]

namespace Inv

/-- No entry of a log is of a later term than its last one. -/
theorem termOf_le_lastTermOf (inv : h.Inv termOf quorum) {l : List ε}
    (grounded : h.Grounded termOf l) {e : ε} (member : e ∈ l) :
    termOf e ≤ lastTermOf termOf l := by
  obtain ⟨last, found⟩ : ∃ last, l.getLast? = some last :=
    ⟨_, List.getLast?_eq_some_getLast (List.ne_nil_of_mem member)⟩
  obtain ⟨led, within⟩ := grounded.isPrefix_ledger found
  have bound := inv.ledgerBound led e (within.subset member)
  simpa [lastTermOf, found] using bound

section Quorums

variable (meet : ∀ {Q Q' : Set ι}, quorum Q → quorum Q' → ∃ v, v ∈ Q ∧ v ∈ Q')
include meet

/-- Whoever has the votes of a quorum in a term is the leader of that term, if it has one. -/
theorem leader_unique (inv : h.Inv termOf quorum) {t : τ} {c d : ι} {Q : Set ι}
    (leads : h.leader t = some c) (isQuorum : quorum Q)
    (votes : ∀ v ∈ Q, ∃ l, h.vote v t = some (d, l)) : d = c := by
  obtain ⟨Q', isQuorum', electors⟩ := (inv.leaders leads).elected
  obtain ⟨v, inQ, inQ'⟩ := meet isQuorum isQuorum'
  obtain ⟨l, voted⟩ := votes v inQ
  obtain ⟨l', voted', _⟩ := electors v inQ'
  rw [voted] at voted'
  simp only [Option.some.injEq, Prod.mk.injEq] at voted'
  exact voted'.1

omit meet in
/-- A voter's log carries a committed stretch over to the log of the leader it voted for, if the
leaders in between have it. -/
theorem isPrefix_of_upToDate (inv : h.Inv termOf quorum) {t : τ} {m : ℕ} {e : ε} {l l' : List ε}
    (led : h.leader t ≠ none) (nonneg : 0 ≤ t) (found : (h.ledger t)[m]? = some e)
    (own : termOf e = t) (grounded : h.Grounded termOf l) (grounded' : h.Grounded termOf l')
    (has : (h.ledger t).take (m + 1) <+: l) (uptodate : UpToDate termOf l' l)
    (between : ∀ {e'}, e' ∈ l' → t < termOf e' →
      (h.ledger t).take (m + 1) <+: h.ledger (termOf e')) :
    (h.ledger t).take (m + 1) <+: l' := by
  have bound : m < (h.ledger t).length := (List.getElem?_eq_some_iff.1 found).1
  have found' : l[m]? = some e :=
    getElem?_of_isPrefix has (by rw [List.getElem?_take_of_lt (by omega)]; exact found)
  have long : m < l.length := (List.getElem?_eq_some_iff.1 found').1
  have reached : t ≤ lastTermOf termOf l := by
    rw [← own]
    exact inv.termOf_le_lastTermOf grounded (List.mem_of_getElem? found')
  have stretch : ((h.ledger t).take (m + 1)).length = m + 1 := by
    rw [List.length_take]
    omega
  rcases uptodate with later | ⟨same, longer⟩
  · -- The last entry of `l'` is of a later term, and its leader has the stretch.
    obtain ⟨e', last⟩ : ∃ e', l'.getLast? = some e' := by
      refine Option.ne_none_iff_exists'.1 fun empty => ?_
      rw [List.getLast?_eq_none_iff.1 empty, lastTermOf_nil] at later
      exact absurd (nonneg.trans reached) (not_le.2 later)
    have lastTerm : lastTermOf termOf l' = termOf e' := by simp [lastTermOf, last]
    have after : t < termOf e' := lastTerm ▸ reached.trans_lt later
    obtain ⟨led', within⟩ := grounded'.isPrefix_ledger last
    have has' := between (List.mem_of_getLast? last) after
    refine List.prefix_of_prefix_length_le has' within ?_
    by_contra short
    rw [stretch] at short
    rw [List.getLast?_eq_getElem?] at last
    have position : l'.length - 1 < l'.length := (List.getElem?_eq_some_iff.1 last).1
    have early : (h.ledger t)[l'.length - 1]? = some e' := by
      rw [← List.getElem?_take_of_lt (show l'.length - 1 < m + 1 by omega),
        ← getElem?_of_isPrefix within last]
      obtain ⟨rest, split⟩ := has'
      rw [← split, List.getElem?_append_left (by omega)]
    exact absurd (inv.ledgerBound led e' (List.mem_of_getElem? early)) (not_le.2 after)
  · -- Both logs are stretches of one ledger.
    obtain ⟨d, last⟩ : ∃ d, l.getLast? = some d :=
      ⟨_, List.getLast?_eq_some_getLast (List.ne_nil_of_length_pos (by omega))⟩
    obtain ⟨d', last'⟩ : ∃ d', l'.getLast? = some d' :=
      ⟨_, List.getLast?_eq_some_getLast (List.ne_nil_of_length_pos (by omega))⟩
    have sameTerm : termOf d' = termOf d := by simpa [lastTermOf, last, last'] using same
    have within := (grounded.isPrefix_ledger last).2
    have within' := (grounded'.isPrefix_ledger last').2
    rw [sameTerm] at within'
    exact has.trans (List.prefix_of_prefix_length_le within within' longer)

variable [LocallyFiniteOrder τ]

/-- Leader completeness: the leader of a later term has what was committed. -/
theorem completeness (inv : h.Inv termOf quorum) {t : τ} {k : ℕ} (member : (t, k) ∈ h.committed)
    {t' : τ} (led' : h.leader t' ≠ none) (later : t ≤ t') :
    (h.ledger t).take k <+: h.ledger t' := by
  obtain ⟨led, ⟨m, e, rfl, found, own⟩, Q, isQuorum, acks⟩ := inv.commits member
  obtain ⟨_, _, leadership⟩ := inv.leadership led
  -- The induction is on the number of terms between the two.
  induction size : (Finset.Ioo t t').card using Nat.strong_induction_on generalizing t' with
  | _ size ih =>
    rcases eq_or_lt_of_le later with rfl | after
    · exact List.take_prefix _ _
    have between : ∀ {s}, h.leader s ≠ none → t < s → s < t' →
        (h.ledger t).take (m + 1) <+: h.ledger s := by
      intro s ledS from_t to_t'
      refine ih _ ?_ ledS from_t.le rfl
      rw [← size]
      refine Finset.card_lt_card (Finset.ssubset_iff_of_subset ?_ |>.2 ⟨s, ?_, ?_⟩)
      · exact Finset.Ioo_subset_Ioo_right to_t'.le
      · exact Finset.mem_Ioo.2 ⟨from_t, to_t'⟩
      · simp
    obtain ⟨c, _, leadership'⟩ := inv.leadership led'
    obtain ⟨Q', isQuorum', electors⟩ := leadership'.elected
    obtain ⟨v, inQ, inQ'⟩ := meet isQuorum isQuorum'
    obtain ⟨l, voted, uptodate, kept⟩ := electors v inQ'
    have has : (h.ledger t).take (m + 1) <+: l := by
      rcases kept (acks v inQ) after with has | ⟨t'', lost, before⟩
      · exact has
      · exact absurd (between lost.1 lost.2.1 before) lost.2.2
    have startGrounded := leadership'.grounded.of_isPrefix leadership'.start
    refine List.IsPrefix.trans ?_ leadership'.start
    refine inv.isPrefix_of_upToDate led leadership.nonneg found own (inv.votes voted).grounded
      startGrounded has uptodate ?_
    intro e' inStart after'
    obtain ⟨i, found'⟩ := List.mem_iff_getElem?.1 inStart
    exact between (startGrounded found').1 after' (leadership'.earlier e' inStart)

end Quorums

end Inv

/-! ## Committed logs -/

/-- Everything in `l` was committed, in term `t` at the latest. -/
def Decided (h : History ι τ ε) (t : τ) (l : List ε) : Prop :=
  l = [] ∨ ∃ s k, s ≤ t ∧ (s, k) ∈ h.committed ∧ l <+: (h.ledger s).take k

namespace Decided

omit [Zero τ] in
theorem nil (t : τ) : h.Decided t [] := Or.inl rfl

omit [Zero τ] in
theorem mono {t t' : τ} {l l' : List ε} (decided : h.Decided t l) (later : t ≤ t')
    (within : l' <+: l) : h.Decided t' l' := by
  rcases decided with rfl | ⟨s, k, before, member, has⟩
  · exact Or.inl (List.prefix_nil.1 within)
  · exact Or.inr ⟨s, k, before.trans later, member, within.trans has⟩

theorem extend (inv : h.Inv termOf quorum) (ext : Extends termOf h h') {t : τ} {l : List ε}
    (decided : h.Decided t l) : h'.Decided t l := by
  rcases decided with rfl | ⟨s, k, before, member, has⟩
  · exact Or.inl rfl
  · obtain ⟨led, _⟩ := inv.commits member
    exact Or.inr ⟨s, k, before, ext.committed member,
      has.trans (List.IsPrefix.take (ext.ledger_isPrefix led) k)⟩

variable [LocallyFiniteOrder τ]
  (meet : ∀ {Q Q' : Set ι}, quorum Q → quorum Q' → ∃ v, v ∈ Q ∧ v ∈ Q')
include meet

theorem isPrefix_ledger (inv : h.Inv termOf quorum) {t t' : τ} {l : List ε}
    (decided : h.Decided t l) (led' : h.leader t' ≠ none) (later : t ≤ t') :
    l <+: h.ledger t' := by
  rcases decided with rfl | ⟨s, k, before, member, has⟩
  · exact List.nil_prefix
  · exact has.trans (inv.completeness meet member led' (before.trans later))

/-- Committed logs never contradict each other. -/
theorem compare (inv : h.Inv termOf quorum) {t t' : τ} {l l' : List ε}
    (decided : h.Decided t l) (decided' : h.Decided t' l') : l <+: l' ∨ l' <+: l := by
  rcases decided with rfl | ⟨s, k, _, member, has⟩
  · exact Or.inl List.nil_prefix
  rcases decided' with rfl | ⟨s', k', _, member', has'⟩
  · exact Or.inr List.nil_prefix
  have ledger : l <+: h.ledger s := has.trans (List.take_prefix _ _)
  have ledger' : l' <+: h.ledger s' := has'.trans (List.take_prefix _ _)
  rcases le_total s s' with before | before
  · have within := has.trans (inv.completeness meet member (inv.commits member').1 before)
    exact List.prefix_or_prefix_of_prefix within ledger'
  · have within := has'.trans (inv.completeness meet member' (inv.commits member).1 before)
    exact List.prefix_or_prefix_of_prefix ledger within

end Decided

end History

end Mit6824.Consensus
