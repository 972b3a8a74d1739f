import Mit6824.Consensus.History

/-!
# The invariant of the protocol

What every step keeps, for an arbitrary family of quorums. The two facts at its
heart speak about an acknowledged stretch of a ledger: the node that acknowledged
it still has it, and had it when it voted, unless some later leader lacked it
(`Lost`). In `Safety` it is shown that no later leader lacks a stretch which a
quorum acknowledged.
-/

namespace Mit6824.Consensus

universe u v w

namespace History

variable {ι : Type u} {τ : Type v} {ε : Type w}

/-- The leader of the later term `t'` does not have the first `k` entries of the ledger of
`t`. -/
def Lost [LT τ] (h : History ι τ ε) (t : τ) (k : ℕ) (t' : τ) : Prop :=
  h.leader t' ≠ none ∧ t < t' ∧ ¬(h.ledger t).take k <+: h.ledger t'

section

variable [LinearOrder τ] [Zero τ] (termOf : ε → τ) (quorum : Set ι → Prop)

/-- What is known about the vote of `v` for `c` in term `t` with the log `l`. -/
structure Ballot (h : History ι τ ε) (v : ι) (t : τ) (c : ι) (l : List ε) : Prop where
  reached : t ≤ h.term v
  asked : t ≤ h.term c
  fresh : t < h.term c ∨ h.leader t ≠ none ∨ UpToDate termOf (h.log c) l
  grounded : h.Grounded termOf l
  kept : h.leader t = none → ∀ {t' k}, h.Acked v t' k → t' < t →
    (h.ledger t').take k <+: l ∨ ∃ t'', h.Lost t' k t'' ∧ t'' < t

/-- The vote of `v` that helped to elect the leader `c` of term `t`. -/
def Elector (h : History ι τ ε) (t : τ) (c v : ι) : Prop :=
  ∃ l, h.vote v t = some (c, l) ∧ UpToDate termOf (h.start t) l ∧
    ∀ {t' k}, h.Acked v t' k → t' < t →
      (h.ledger t').take k <+: l ∨ ∃ t'', h.Lost t' k t'' ∧ t'' < t

/-- What is known about the leader `c` of term `t`. -/
structure Leadership (h : History ι τ ε) (t : τ) (c : ι) : Prop where
  nonneg : 0 ≤ t
  reached : t ≤ h.term c
  log : h.term c = t → h.log c = h.ledger t
  start : h.start t <+: h.ledger t
  earlier : ∀ e ∈ h.start t, termOf e < t
  grounded : h.Grounded termOf (h.ledger t)
  bound : ∀ e ∈ h.ledger t, termOf e ≤ t
  elected : ∃ Q, quorum Q ∧ ∀ v ∈ Q, h.Elector termOf t c v

structure Inv (h : History ι τ ε) : Prop where
  votes : ∀ {v t c l}, h.vote v t = some (c, l) → h.Ballot termOf v t c l
  leaders : ∀ {t c}, h.leader t = some c → h.Leadership termOf quorum t c
  grounded : ∀ i, h.Grounded termOf (h.log i)
  bound : ∀ i, ∀ e ∈ h.log i, termOf e ≤ h.term i
  acks : ∀ {v t k}, (v, t, k) ∈ h.acked →
    h.leader t ≠ none ∧ k ≤ (h.ledger t).length ∧ t ≤ h.term v
  kept : ∀ {v t k}, h.Acked v t k →
    (h.ledger t).take k <+: h.log v ∨ ∃ t', h.Lost t k t' ∧ t' ≤ h.term v
  commits : ∀ {t k}, (t, k) ∈ h.committed → h.leader t ≠ none ∧
    (∃ m e, k = m + 1 ∧ (h.ledger t)[m]? = some e ∧ termOf e = t) ∧
    ∃ Q, quorum Q ∧ ∀ v ∈ Q, h.Acked v t k

end

namespace Inv

variable [LinearOrder τ] [Zero τ] {termOf : ε → τ} {quorum : Set ι → Prop}
  {h h' : History ι τ ε}

theorem leadership (inv : h.Inv termOf quorum) {t : τ} (led : h.leader t ≠ none) :
    ∃ c, h.leader t = some c ∧ h.Leadership termOf quorum t c := by
  obtain ⟨c, leads⟩ := Option.ne_none_iff_exists'.1 led
  exact ⟨c, leads, inv.leaders leads⟩

theorem ledgerBound (inv : h.Inv termOf quorum) {t : τ} (led : h.leader t ≠ none) :
    ∀ e ∈ h.ledger t, termOf e ≤ t := by
  obtain ⟨c, _, leadership⟩ := inv.leadership led
  exact leadership.bound

theorem ledgerGrounded (inv : h.Inv termOf quorum) {t : τ} (led : h.leader t ≠ none) :
    h.Grounded termOf (h.ledger t) := by
  obtain ⟨c, _, leadership⟩ := inv.leadership led
  exact leadership.grounded

theorem ackedBound (inv : h.Inv termOf quorum) {v : ι} {t : τ} {k : ℕ}
    (acked : h.Acked v t k) :
    h.leader t ≠ none ∧ k ≤ (h.ledger t).length ∧ t ≤ h.term v := by
  rcases acked with ⟨m, le, member⟩ | ⟨leads, le⟩
  · obtain ⟨led, bound, reached⟩ := inv.acks member
    exact ⟨led, le.trans bound, reached⟩
  · exact ⟨by simp [leads], le, (inv.leaders leads).reached⟩

/-- A later leader that lacked a stretch goes on lacking it: what it adds is of its own term. -/
theorem lost_of_extends (inv : h.Inv termOf quorum) (ext : Extends termOf h h') {t t' : τ}
    {k : ℕ} (led : h.leader t ≠ none) (bound : k ≤ (h.ledger t).length)
    (lost : h.Lost t k t') : h'.Lost t k t' := by
  obtain ⟨led', later, lacks⟩ := lost
  refine ⟨ext.led led', later, ?_⟩
  rw [ext.take_ledger led bound]
  obtain ⟨added, grown, terms⟩ := ext.ledger led'
  rw [grown]
  intro has
  apply lacks
  rcases le_or_gt ((h.ledger t).take k).length (h.ledger t').length with short | long
  · exact List.prefix_of_prefix_length_le has (List.prefix_append _ _) short
  · -- The first entry beyond the old ledger would be of term `t` at most and of term `t'`.
    exfalso
    set i := (h.ledger t').length with i_def
    have old : ((h.ledger t).take k)[i]? = some (((h.ledger t).take k)[i]) :=
      List.getElem?_eq_getElem long
    have new := getElem?_of_isPrefix has old
    rw [List.getElem?_append_right (by omega)] at new
    have early := inv.ledgerBound led _ (List.mem_of_mem_take (List.mem_of_getElem? old))
    have late := terms _ (List.mem_of_getElem? new)
    rw [late] at early
    exact absurd later (not_lt.2 early)

/-- A vote stays what it is, as long as the voter acknowledges nothing of an earlier term. -/
theorem elector_of_extends (inv : h.Inv termOf quorum) (ext : Extends termOf h h') {t : τ}
    {c v : ι} (led : h.leader t ≠ none) (elector : h.Elector termOf t c v)
    (recent : ∀ {t' k}, h'.Acked v t' k → h.Acked v t' k ∨ h.term v ≤ t') :
    h'.Elector termOf t c v := by
  obtain ⟨l, voted, uptodate, kept⟩ := elector
  refine ⟨l, ext.vote voted, by rwa [ext.start led], ?_⟩
  intro t' k acked earlier
  have old : h.Acked v t' k :=
    (recent acked).resolve_right fun late =>
      absurd ((inv.votes voted).reached.trans late) (not_le.2 earlier)
  obtain ⟨led', bound, _⟩ := inv.ackedBound old
  rcases kept old earlier with has | ⟨t'', lost, before⟩
  · exact Or.inl (by rwa [ext.take_ledger led' bound])
  · exact Or.inr ⟨t'', inv.lost_of_extends ext led' bound lost, before⟩

/-- A ballot stays valid, as long as the voter acknowledges nothing of an earlier term. -/
theorem ballot_of_extends (inv : h.Inv termOf quorum) (ext : Extends termOf h h') {t : τ}
    {c v : ι} {l : List ε} (ballot : h.Ballot termOf v t c l)
    (fresh : t < h'.term c ∨ h'.leader t ≠ none ∨ UpToDate termOf (h'.log c) l)
    (recent : ∀ {t' k}, h'.Acked v t' k → h.Acked v t' k ∨ h.term v ≤ t') :
    h'.Ballot termOf v t c l where
  reached := ballot.reached.trans (ext.term v)
  asked := ballot.asked.trans (ext.term c)
  fresh := fresh
  grounded := ext.grounded ballot.grounded
  kept vacant := by
    intro t' k acked earlier
    have vacant' : h.leader t = none := by
      by_contra led
      exact ext.led led vacant
    have old : h.Acked v t' k :=
      (recent acked).resolve_right fun late =>
        absurd (ballot.reached.trans late) (not_le.2 earlier)
    obtain ⟨led', bound, _⟩ := inv.ackedBound old
    rcases ballot.kept vacant' old earlier with has | ⟨t'', lost, before⟩
    · exact Or.inl (by rwa [ext.take_ledger led' bound])
    · exact Or.inr ⟨t'', inv.lost_of_extends ext led' bound lost, before⟩

theorem commits_of_extends (inv : h.Inv termOf quorum) (ext : Extends termOf h h') {t : τ}
    {k : ℕ} (member : (t, k) ∈ h.committed) :
    h'.leader t ≠ none ∧ (∃ m e, k = m + 1 ∧ (h'.ledger t)[m]? = some e ∧ termOf e = t) ∧
      ∃ Q, quorum Q ∧ ∀ v ∈ Q, h'.Acked v t k := by
  obtain ⟨led, ⟨m, e, rfl, found, own⟩, Q, isQuorum, acks⟩ := inv.commits member
  exact ⟨ext.led led, ⟨m, e, rfl, getElem?_of_isPrefix (ext.ledger_isPrefix led) found, own⟩,
    Q, isQuorum, fun v inQ => ext.ackedBy (acks v inQ)⟩

/-- An acknowledged stretch is still there, or still lost, where the log of the node has only
grown. -/
theorem kept_of_extends (inv : h.Inv termOf quorum) (ext : Extends termOf h h') {t : τ} {v : ι}
    {k : ℕ} (acked : h.Acked v t k) (grown : h.log v <+: h'.log v) :
    (h'.ledger t).take k <+: h'.log v ∨ ∃ t', h'.Lost t k t' ∧ t' ≤ h'.term v := by
  obtain ⟨led, bound, _⟩ := inv.ackedBound acked
  rcases inv.kept acked with has | ⟨t', lost, before⟩
  · exact Or.inl (by rw [ext.take_ledger led bound]; exact has.trans grown)
  · exact Or.inr ⟨t', inv.lost_of_extends ext led bound lost, before.trans (ext.term v)⟩

end Inv

end History

end Mit6824.Consensus
