import Mathlib.Logic.Relation
import Mit6824.Consensus.Invariant

/-!
# Every step keeps the invariant

One lemma for each kind of step, and from them `Step.inv` and `Steps.inv`.
-/

namespace Mit6824.Consensus

universe u v w

namespace History

variable {ι : Type u} {τ : Type v} {ε : Type w} [DecidableEq ι] [LinearOrder τ] [Zero τ]
  {termOf : ε → τ} {quorum : Set ι → Prop} {h h' : History ι τ ε}

omit [Zero τ] in
theorem update_term_le {i : ι} {t : τ} (later : h.term i ≤ t) (j : ι) :
    h.term j ≤ Function.update h.term i t j := by
  by_cases same : j = i
  · subst same
    simpa using later
  · simp [same]

/-! ## Moving to a later term, and voting -/

omit [Zero τ] in
theorem extends_advance {i : ι} {t : τ} (later : h.term i ≤ t) :
    Extends termOf h (h.advance i t) where
  term := update_term_le later
  vote found := found
  leader found := found
  start _ := rfl
  ledger _ := ⟨[], by simp [advance], by simp⟩
  acked := subset_rfl
  committed := subset_rfl

omit [Zero τ] in
theorem extends_support {v c : ι} {t : τ} (unused : h.vote v t = none)
    (later : h.term v ≤ t) : Extends termOf h (h.support v t c) where
  term := update_term_le later
  vote {w s b} found := by
    simp only [support]
    by_cases sameNode : w = v
    · subst sameNode
      by_cases sameTerm : s = t
      · subst sameTerm
        simp [unused] at found
      · simpa [sameTerm] using found
    · simpa [sameNode] using found
  leader found := found
  start _ := rfl
  ledger _ := ⟨[], by simp [support], by simp⟩
  acked := subset_rfl
  committed := subset_rfl

namespace Inv

omit [DecidableEq ι] in
/-- A step that writes no log and elects nobody. -/
theorem of_same_logs (inv : h.Inv termOf quorum) (ext : Extends termOf h h')
    (log : h'.log = h.log) (leader : h'.leader = h.leader) (start : h'.start = h.start)
    (ledger : h'.ledger = h.ledger) (acked : h'.acked = h.acked)
    (committed : ∀ {t k}, (t, k) ∈ h'.committed → (t, k) ∈ h.committed ∨
      h'.leader t ≠ none ∧ (∃ m e, k = m + 1 ∧ (h'.ledger t)[m]? = some e ∧ termOf e = t) ∧
        ∃ Q, quorum Q ∧ ∀ v ∈ Q, h'.Acked v t k)
    (votes : ∀ {v t c l}, h'.vote v t = some (c, l) → h'.Ballot termOf v t c l) :
    h'.Inv termOf quorum := by
  have same : ∀ {v t k}, h'.Acked v t k ↔ h.Acked v t k := by
    intro v t k
    simp [Acked, leader, ledger, acked]
  refine ⟨votes, ?_, ?_, ?_, ?_, ?_, ?_⟩
  · intro t c leads
    rw [leader] at leads
    have old := inv.leaders leads
    have led : h.leader t ≠ none := by simp [leads]
    obtain ⟨Q, isQuorum, electors⟩ := old.elected
    exact
      { nonneg := old.nonneg
        reached := old.reached.trans (ext.term c)
        log := fun present => by
          rw [log, ledger]
          exact old.log (le_antisymm (present ▸ ext.term c) old.reached)
        start := by rw [start, ledger]; exact old.start
        earlier := by rw [start]; exact old.earlier
        grounded := ext.grounded (by rw [ledger]; exact old.grounded)
        bound := by rw [ledger]; exact old.bound
        elected := ⟨Q, isQuorum, fun v inQ =>
          inv.elector_of_extends ext led (electors v inQ) fun acked => Or.inl (same.1 acked)⟩ }
  · intro i
    rw [log]
    exact ext.grounded (inv.grounded i)
  · intro i e member
    rw [log] at member
    exact (inv.bound i e member).trans (ext.term i)
  · intro v t k member
    rw [acked] at member
    obtain ⟨led, bound, reached⟩ := inv.acks member
    exact ⟨ext.led led, by rwa [ledger], reached.trans (ext.term v)⟩
  · intro v t k acked
    exact inv.kept_of_extends ext (same.1 acked) (by rw [log])
  · intro t k member
    rcases committed member with old | new
    · exact inv.commits_of_extends ext old
    · exact new

omit [DecidableEq ι] in
theorem ballot_of_same_logs (inv : h.Inv termOf quorum) (ext : Extends termOf h h')
    (log : h'.log = h.log) (leader : h'.leader = h.leader) (ledger : h'.ledger = h.ledger)
    (acked : h'.acked = h.acked) {v c : ι} {t : τ} {l : List ε}
    (voted : h.vote v t = some (c, l)) : h'.Ballot termOf v t c l := by
  have old := inv.votes voted
  refine inv.ballot_of_extends ext old ?_ ?_
  · rw [log, leader]
    rcases old.fresh with moved | led | uptodate
    · exact Or.inl (moved.trans_le (ext.term c))
    · exact Or.inr (Or.inl led)
    · exact Or.inr (Or.inr uptodate)
  · intro t' k ackedBy
    left
    simpa [Acked, leader, ledger, acked] using ackedBy

theorem advance (inv : h.Inv termOf quorum) {i : ι} {t : τ} (later : h.term i ≤ t) :
    (h.advance i t).Inv termOf quorum :=
  inv.of_same_logs (extends_advance later) rfl rfl rfl rfl rfl (fun member => Or.inl member)
    fun voted => inv.ballot_of_same_logs (extends_advance later) rfl rfl rfl rfl voted

theorem support (inv : h.Inv termOf quorum) {v c : ι} {t : τ} (unused : h.vote v t = none)
    (later : h.term v ≤ t) (asked : t ≤ h.term c)
    (uptodate : t < h.term c ∨ h.leader t ≠ none ∨ UpToDate termOf (h.log c) (h.log v)) :
    (h.support v t c).Inv termOf quorum := by
  have ext : Extends termOf h (h.support v t c) := extends_support unused later
  refine inv.of_same_logs ext rfl rfl rfl rfl rfl (fun member => Or.inl member) ?_
  intro w s d l voted
  by_cases new : w = v ∧ s = t
  · obtain ⟨rfl, rfl⟩ := new
    have record : c = d ∧ h.log w = l := by
      simpa [History.support] using voted
    obtain ⟨rfl, rfl⟩ := record
    refine ⟨by simp [History.support], asked.trans (ext.term c), ?_,
      ext.grounded (inv.grounded w), ?_⟩
    · rcases uptodate with moved | led | better
      · exact Or.inl (moved.trans_le (ext.term c))
      · exact Or.inr (Or.inl led)
      · exact Or.inr (Or.inr better)
    · -- A leader that lost the stretch was elected before this vote.
      intro vacant t' k acked earlier
      rcases inv.kept (v := w) (t := t') (k := k) acked with has | ⟨t'', lost, before⟩
      · exact Or.inl has
      · refine Or.inr ⟨t'', lost, lt_of_le_of_ne (before.trans later) ?_⟩
        rintro rfl
        exact lost.1 vacant
  · refine inv.ballot_of_same_logs ext rfl rfl rfl rfl ?_
    simp only [History.support] at voted
    by_cases sameNode : w = v
    · subst sameNode
      have otherTerm : s ≠ t := fun sameTerm => new ⟨rfl, sameTerm⟩
      simpa [otherTerm] using voted
    · simpa [sameNode] using voted

end Inv

/-! ## Elections -/

omit [DecidableEq ι] [Zero τ] in
theorem extends_elect {c : ι} (vacant : h.leader (h.term c) = none) :
    Extends termOf h (h.elect c) := by
  have other : ∀ {t}, h.leader t ≠ none → t ≠ h.term c := by
    rintro t led rfl
    exact led vacant
  refine ⟨fun _ => le_rfl, fun found => found, ?_, ?_, ?_, subset_rfl, subset_rfl⟩
  · intro t d leads
    have : t ≠ h.term c := other (by simp [leads])
    simpa [elect, this] using leads
  · intro t led
    simp [elect, other led]
  · intro t led
    exact ⟨[], by simp [elect, other led], by simp⟩

omit [DecidableEq ι] [Zero τ] in
theorem acked_elect_cases {c : ι} {v : ι} {t : τ} {k : ℕ} (acked : (h.elect c).Acked v t k) :
    h.Acked v t k ∨ v = c ∧ t = h.term c ∧ k ≤ (h.log c).length := by
  by_cases sameTerm : t = h.term c
  · subst sameTerm
    rcases acked with ⟨m, le, member⟩ | ⟨leads, le⟩
    · exact Or.inl (Or.inl ⟨m, le, member⟩)
    · simp only [elect, Function.update_self, Option.some.injEq] at leads le
      exact Or.inr ⟨leads.symm, rfl, le⟩
  · left
    simpa [Acked, elect, sameTerm] using acked

namespace Inv

omit [DecidableEq ι] in
theorem elect (inv : h.Inv termOf quorum) {c : ι} {Q : Set ι} (isQuorum : quorum Q)
    (votes : ∀ v ∈ Q, ∃ l, h.vote v (h.term c) = some (c, l))
    (vacant : h.leader (h.term c) = none) (nonneg : 0 ≤ h.term c) :
    (h.elect c).Inv termOf quorum := by
  have ext : Extends termOf h (h.elect c) := extends_elect vacant
  have recent : ∀ {v t k}, (h.elect c).Acked v t k → h.Acked v t k ∨ h.term v ≤ t := by
    intro v t k acked
    rcases acked_elect_cases acked with old | ⟨rfl, rfl, _⟩
    · exact Or.inl old
    · exact Or.inr le_rfl
  refine ⟨?_, ?_, ?_, ?_, ?_, ?_, ?_⟩
  · intro v t d l voted
    have old := inv.votes voted
    refine inv.ballot_of_extends ext old ?_ recent
    rcases old.fresh with moved | led | uptodate
    · exact Or.inl moved
    · exact Or.inr (Or.inl (ext.led led))
    · exact Or.inr (Or.inr uptodate)
  · intro t d leads
    by_cases sameTerm : t = h.term c
    · subst sameTerm
      have sameNode : c = d := by simpa [History.elect] using leads
      subst sameNode
      refine ⟨nonneg, le_rfl, fun _ => by simp [History.elect], by simp [History.elect],
        ?_, ?_, ?_, Q, isQuorum, ?_⟩
      · -- An entry of this term would have been written by a leader of it.
        intro e member
        have member' : e ∈ h.log c := by simpa [History.elect] using member
        obtain ⟨k, found⟩ := List.mem_iff_getElem?.1 member'
        refine lt_of_le_of_ne (inv.bound c e member') ?_
        intro current
        exact (inv.grounded c found).1 (by rw [current]; exact vacant)
      · have := ext.grounded (inv.grounded c)
        simpa [History.elect] using this
      · simpa [History.elect] using inv.bound c
      · intro v inQ
        obtain ⟨l, voted⟩ := votes v inQ
        have ballot := inv.votes voted
        refine ⟨l, voted, ?_, ?_⟩
        · rcases ballot.fresh with moved | led | uptodate
          · exact absurd moved (lt_irrefl _)
          · exact absurd vacant led
          · simpa [History.elect] using uptodate
        · intro t' k acked earlier
          have old : h.Acked v t' k :=
            (recent acked).resolve_right fun late =>
              absurd (ballot.reached.trans late) (not_le.2 earlier)
          obtain ⟨led', bound, _⟩ := inv.ackedBound old
          rcases ballot.kept vacant old earlier with has | ⟨t'', lost, before⟩
          · exact Or.inl (by rwa [ext.take_ledger led' bound])
          · exact Or.inr ⟨t'', inv.lost_of_extends ext led' bound lost, before⟩
    · have leads' : h.leader t = some d := by simpa [History.elect, sameTerm] using leads
      have old := inv.leaders leads'
      have led : h.leader t ≠ none := by simp [leads']
      have ledger : (h.elect c).ledger t = h.ledger t := by simp [History.elect, sameTerm]
      obtain ⟨Q', isQuorum', electors⟩ := old.elected
      exact
        { nonneg := old.nonneg
          reached := old.reached
          log := fun present => by rw [ledger]; exact old.log present
          start := by rw [ext.start led, ledger]; exact old.start
          earlier := by rw [ext.start led]; exact old.earlier
          grounded := by rw [ledger]; exact ext.grounded old.grounded
          bound := by rw [ledger]; exact old.bound
          elected := ⟨Q', isQuorum', fun v inQ =>
            inv.elector_of_extends ext led (electors v inQ) recent⟩ }
  · exact fun i => ext.grounded (inv.grounded i)
  · exact inv.bound
  · intro v t k member
    obtain ⟨led, bound, reached⟩ := inv.acks member
    exact ⟨ext.led led, bound.trans (ext.ledger_isPrefix led).length_le, reached⟩
  · intro v t k acked
    rcases acked_elect_cases acked with old | ⟨rfl, rfl, _⟩
    · exact inv.kept_of_extends ext old (List.prefix_refl _)
    · left
      simpa [History.elect] using List.take_prefix k (h.log v)
  · exact fun member => inv.commits_of_extends ext member

end Inv

/-! ## Writing and taking over entries -/

omit [Zero τ] in
theorem extends_append {c : ι} {e : ε} (log : h.log c = h.ledger (h.term c))
    (current : termOf e = h.term c) : Extends termOf h (h.append c e) := by
  refine ⟨fun _ => le_rfl, fun found => found, fun leads => leads, fun _ => rfl, ?_,
    subset_rfl, subset_rfl⟩
  intro t _
  by_cases sameTerm : t = h.term c
  · subst sameTerm
    exact ⟨[e], by simp [append, log], by simpa using current⟩
  · exact ⟨[], by simp [append, sameTerm], by simp⟩

omit [Zero τ] in
theorem acked_append_cases {c : ι} {e : ε} (leads : h.leader (h.term c) = some c) {v : ι}
    {t : τ} {k : ℕ} (acked : (h.append c e).Acked v t k) :
    h.Acked v t k ∨ v = c ∧ t = h.term c := by
  rcases acked with ⟨m, le, member⟩ | ⟨leads', le⟩
  · exact Or.inl (Or.inl ⟨m, le, member⟩)
  · by_cases sameTerm : t = h.term c
    · subst sameTerm
      have sameNode : c = v := by simpa [append, leads] using leads'
      exact Or.inr ⟨sameNode.symm, rfl⟩
    · exact Or.inl (Or.inr ⟨leads', by simpa [append, sameTerm] using le⟩)

omit [Zero τ] in
theorem extends_accept {j : ι} {t : τ} {k : ℕ} (later : h.term j ≤ t) :
    Extends termOf h (h.accept j t k) where
  term := update_term_le later
  vote found := found
  leader found := found
  start _ := rfl
  ledger _ := ⟨[], by simp [accept], by simp⟩
  acked := Set.subset_insert _ _
  committed := subset_rfl

omit [LinearOrder τ] [Zero τ] in
theorem acked_accept_cases {j : ι} {t : τ} {k : ℕ} {v : ι} {t' : τ} {m : ℕ}
    (acked : (h.accept j t k).Acked v t' m) :
    h.Acked v t' m ∨ v = j ∧ t' = t ∧ m ≤ k := by
  rcases acked with ⟨m', le, member⟩ | leads
  · rcases member with new | old
    · simp only [Prod.mk.injEq] at new
      obtain ⟨rfl, rfl, rfl⟩ := new
      exact Or.inr ⟨rfl, rfl, le⟩
    · exact Or.inl (Or.inl ⟨m', le, old⟩)
  · exact Or.inl (Or.inr leads)

namespace Inv

theorem append (inv : h.Inv termOf quorum) {c : ι} {e : ε}
    (leads : h.leader (h.term c) = some c) (current : termOf e = h.term c) :
    (h.append c e).Inv termOf quorum := by
  have log := (inv.leaders leads).log rfl
  have ext : Extends termOf h (h.append c e) := extends_append log current
  have led : h.leader (h.term c) ≠ none := by simp [leads]
  have recent : ∀ {v t k}, (h.append c e).Acked v t k → h.Acked v t k ∨ h.term v ≤ t := by
    intro v t k acked
    rcases acked_append_cases leads acked with old | ⟨rfl, rfl⟩
    · exact Or.inl old
    · exact Or.inr le_rfl
  have grown : ∀ i, h.log i <+: (h.append c e).log i := by
    intro i
    by_cases sameNode : i = c
    · subst sameNode
      simp [History.append]
    · simp [History.append, sameNode]
  have grounded : (h.append c e).Grounded termOf (h.log c ++ [e]) := by
    refine (ext.grounded (inv.grounded c)).concat ?_ ?_
    · rw [current]
      exact ext.led led
    · rw [current]
      simp [History.append]
  have bound : ∀ d ∈ h.log c ++ [e], termOf d ≤ h.term c := by
    intro d member
    rcases List.mem_append.1 member with old | new
    · exact inv.bound c d old
    · rw [List.mem_singleton.1 new, current]
  refine ⟨?_, ?_, ?_, ?_, ?_, ?_, ?_⟩
  · intro v t d l voted
    have old := inv.votes voted
    refine inv.ballot_of_extends ext old ?_ recent
    by_cases sameNode : d = c
    · -- The candidate leads its term, and can win no other one up to it.
      subst sameNode
      rcases lt_or_eq_of_le old.asked with moved | present
      · exact Or.inl moved
      · exact Or.inr (Or.inl (ext.led (by rw [present]; exact led)))
    · simpa [History.append, sameNode] using old.fresh
  · intro t d leads'
    have old := inv.leaders leads'
    have led' : h.leader t ≠ none := by
      intro vacant
      rw [show (h.append c e).leader t = h.leader t from rfl, vacant] at leads'
      cases leads'
    obtain ⟨Q, isQuorum, electors⟩ := old.elected
    have elected : ∃ Q, quorum Q ∧ ∀ v ∈ Q, (h.append c e).Elector termOf t d v :=
      ⟨Q, isQuorum, fun v inQ => inv.elector_of_extends ext led' (electors v inQ) recent⟩
    by_cases sameTerm : t = h.term c
    · subst sameTerm
      have sameNode : c = d := by
        have : h.leader (h.term c) = some d := leads'
        simpa [leads] using this
      subst sameNode
      have ledger : (h.append c e).ledger (h.term c) = h.log c ++ [e] := by
        simp [History.append]
      refine ⟨old.nonneg, le_rfl, fun _ => by simp [History.append], ?_, old.earlier, ?_, ?_,
        elected⟩
      · exact (by rw [ext.start led]; exact old.start.trans (ext.ledger_isPrefix led))
      · rwa [ledger]
      · rwa [ledger]
    · have ledger : (h.append c e).ledger t = h.ledger t := by
        simp [History.append, sameTerm]
      refine ⟨old.nonneg, old.reached, ?_, ?_, old.earlier, ?_, ?_, elected⟩
      · intro present
        have otherNode : d ≠ c := by
          rintro rfl
          exact sameTerm present.symm
        rw [ledger, ← old.log present]
        simp [History.append, otherNode]
      · rw [ledger]
        exact old.start
      · rw [ledger]
        exact ext.grounded old.grounded
      · rw [ledger]
        exact old.bound
  · intro i
    by_cases sameNode : i = c
    · subst sameNode
      simpa [History.append] using grounded
    · have : (h.append c e).log i = h.log i := by simp [History.append, sameNode]
      rw [this]
      exact ext.grounded (inv.grounded i)
  · intro i d member
    by_cases sameNode : i = c
    · subst sameNode
      exact bound d (by simpa [History.append] using member)
    · exact inv.bound i d (by simpa [History.append, sameNode] using member)
  · intro v t k member
    obtain ⟨led', le, reached⟩ := inv.acks member
    exact ⟨ext.led led', le.trans (ext.ledger_isPrefix led').length_le, reached⟩
  · intro v t k acked
    rcases acked_append_cases leads acked with old | ⟨rfl, rfl⟩
    · exact inv.kept_of_extends ext old (grown v)
    · left
      simpa [History.append] using List.take_prefix k (h.log v ++ [e])
  · exact fun member => inv.commits_of_extends ext member

theorem accept (inv : h.Inv termOf quorum) {j : ι} {t : τ} {k : ℕ} (led : h.leader t ≠ none)
    (later : h.term j ≤ t) (bound : k ≤ (h.ledger t).length) :
    (h.accept j t k).Inv termOf quorum := by
  have ext : Extends termOf h (h.accept j t k) := extends_accept later
  have recent : ∀ {v t' m}, (h.accept j t k).Acked v t' m →
      h.Acked v t' m ∨ h.term v ≤ t' := by
    intro v t' m acked
    rcases acked_accept_cases acked with old | ⟨rfl, rfl, _⟩
    · exact Or.inl old
    · exact Or.inr later
  have taken : (h.accept j t k).log j = graft (h.log j) ((h.ledger t).take k) := by
    simp [History.accept]
  have untouched : ∀ {i}, i ≠ j → (h.accept j t k).log i = h.log i := by
    intro i other
    simp [History.accept, other]
  refine ⟨?_, ?_, ?_, ?_, ?_, ?_, ?_⟩
  · intro v s c l voted
    have old := inv.votes voted
    refine inv.ballot_of_extends ext old ?_ recent
    by_cases sameNode : c = j
    · subst sameNode
      rcases lt_or_eq_of_le (old.asked.trans later) with moved | present
      · exact Or.inl (by simpa [History.accept] using moved)
      · exact Or.inr (Or.inl (by rw [present]; exact led))
    · rw [untouched sameNode]
      rcases old.fresh with moved | led' | uptodate
      · exact Or.inl (moved.trans_le (ext.term c))
      · exact Or.inr (Or.inl led')
      · exact Or.inr (Or.inr uptodate)
  · intro s c leads
    have leads' : h.leader s = some c := leads
    have old := inv.leaders leads'
    have led' : h.leader s ≠ none := by simp [leads']
    obtain ⟨Q, isQuorum, electors⟩ := old.elected
    refine ⟨old.nonneg, old.reached.trans (ext.term c), ?_, old.start, old.earlier,
      ext.grounded old.grounded, old.bound, Q, isQuorum, fun v inQ =>
        inv.elector_of_extends ext led' (electors v inQ) recent⟩
    intro present
    by_cases sameNode : c = j
    · -- A leader is not behind its own ledger.
      subst sameNode
      have sameTerm : t = s := by simpa [History.accept] using present
      subst sameTerm
      have log := old.log (le_antisymm later old.reached)
      rw [taken, log]
      exact graft_of_has (List.take_prefix k _)
    · rw [untouched sameNode]
      exact old.log (by simpa [History.accept, sameNode] using present)
  · intro i
    by_cases sameNode : i = j
    · subst sameNode
      rw [taken]
      exact ext.grounded ((inv.grounded i).graft
        ((inv.ledgerGrounded led).of_isPrefix (List.take_prefix k _)))
    · rw [untouched sameNode]
      exact ext.grounded (inv.grounded i)
  · intro i e member
    by_cases sameNode : i = j
    · subst sameNode
      rw [taken] at member
      have present : (h.accept i t k).term i = t := by simp [History.accept]
      rw [present]
      rcases graft_cases (h.log i) ((h.ledger t).take k) with ⟨same, _⟩ | ⟨new, _⟩
      · rw [same] at member
        exact (inv.bound i e member).trans later
      · rw [new] at member
        exact inv.ledgerBound led e (List.mem_of_mem_take member)
    · rw [untouched sameNode] at member
      exact (inv.bound i e member).trans (ext.term i)
  · intro v s m member
    rcases member with new | old
    · simp only [Prod.mk.injEq] at new
      obtain ⟨rfl, rfl, rfl⟩ := new
      exact ⟨led, bound, by simp [History.accept]⟩
    · obtain ⟨led', le, reached⟩ := inv.acks old
      exact ⟨led', le, reached.trans (ext.term v)⟩
  · intro v s m acked
    rcases acked_accept_cases acked with old | ⟨rfl, rfl, le⟩
    · by_cases sameNode : v = j
      · subst sameNode
        rcases inv.kept old with has | ⟨s', lost, before⟩
        · -- The new leader has the stretch as well, or is one that lost it.
          by_cases common : (h.ledger s).take m <+: h.ledger t
          · left
            rw [taken]
            exact isPrefix_graft_of_common has (take_isPrefix_or common)
          · obtain ⟨_, _, reached⟩ := inv.ackedBound old
            refine Or.inr ⟨t, ⟨led, ?_, common⟩, by simp [History.accept]⟩
            rcases lt_or_eq_of_le (reached.trans later) with earlier | rfl
            · exact earlier
            · exact absurd (List.take_prefix m _) common
        · exact Or.inr ⟨s', lost, before.trans (ext.term v)⟩
      · exact inv.kept_of_extends ext old (by rw [untouched sameNode])
    · left
      rw [taken]
      exact isPrefix_graft (List.take_prefix_take_left le)
  · exact fun member => inv.commits_of_extends ext member

end Inv

/-! ## Committing -/

omit [DecidableEq ι] [Zero τ] in
theorem extends_commit (t : τ) (k : ℕ) : Extends termOf h (h.commit t k) where
  term _ := le_rfl
  vote found := found
  leader found := found
  start _ := rfl
  ledger _ := ⟨[], by simp [commit], by simp⟩
  acked := subset_rfl
  committed := Set.subset_insert _ _

omit [DecidableEq ι] in
theorem Inv.commit (inv : h.Inv termOf quorum) {t : τ} {k : ℕ} {e : ε} {Q : Set ι}
    (led : h.leader t ≠ none) (isQuorum : quorum Q) (acks : ∀ v ∈ Q, h.Acked v t (k + 1))
    (found : (h.ledger t)[k]? = some e) (own : termOf e = t) :
    (h.commit t (k + 1)).Inv termOf quorum := by
  refine inv.of_same_logs (extends_commit t (k + 1)) rfl rfl rfl rfl rfl ?_
    fun voted => inv.ballot_of_same_logs (extends_commit t (k + 1)) rfl rfl rfl rfl voted
  intro s m member
  rcases member with new | old
  · simp only [Prod.mk.injEq] at new
    obtain ⟨rfl, rfl⟩ := new
    exact Or.inr ⟨led, ⟨k, e, rfl, found, own⟩, Q, isQuorum, acks⟩
  · exact Or.inl old

/-! ## Runs of the protocol -/

theorem Step.extends (inv : h.Inv termOf quorum) (step : Step termOf quorum h h') :
    Extends termOf h h' := by
  cases step with
  | advance later => exact extends_advance later
  | support unused later _ _ => exact extends_support unused later
  | elect _ _ vacant _ => exact extends_elect vacant
  | append leads current => exact extends_append ((inv.leaders leads).log rfl) current
  | accept _ later _ => exact extends_accept later
  | commit _ _ _ _ _ => exact extends_commit _ _

theorem Step.inv (inv : h.Inv termOf quorum) (step : Step termOf quorum h h') :
    h'.Inv termOf quorum := by
  cases step with
  | advance later => exact inv.advance later
  | support unused later asked uptodate => exact inv.support unused later asked uptodate
  | elect isQuorum votes vacant nonneg => exact inv.elect isQuorum votes vacant nonneg
  | append leads current => exact inv.append leads current
  | accept led later bound => exact inv.accept led later bound
  | commit led isQuorum acks found own => exact inv.commit led isQuorum acks found own

/-- Any number of steps. -/
def Steps (termOf : ε → τ) (quorum : Set ι → Prop) : History ι τ ε → History ι τ ε → Prop :=
  Relation.ReflTransGen (Step termOf quorum)

theorem Steps.inv_extends (inv : h.Inv termOf quorum) (steps : Steps termOf quorum h h') :
    h'.Inv termOf quorum ∧ Extends termOf h h' := by
  induction steps with
  | refl => exact ⟨inv, Extends.refl h⟩
  | tail _ step ih => exact ⟨step.inv ih.1, ih.2.trans (step.extends ih.1)⟩

/-- As long as a term has no leader, the log of a node that stays in it does not change. -/
theorem Step.settled (step : Step termOf quorum h h') {i : ι} (stays : h'.term i = h.term i) :
    h'.leader (h.term i) ≠ none ∨ h'.log i = h.log i := by
  cases step with
  | advance _ | support _ _ _ _ | elect _ _ _ _ | commit _ _ _ _ _ => exact Or.inr rfl
  | @append c e leads _ =>
      by_cases writes : i = c
      · subst writes
        exact Or.inl (by simp [History.append, leads])
      · exact Or.inr (by simp [History.append, writes])
  | @accept j t k led _ _ =>
      by_cases accepts : i = j
      · subst accepts
        have present : t = h.term i := by simpa [History.accept] using stays
        exact Or.inl (present ▸ led)
      · exact Or.inr (by simp [History.accept, accepts])

theorem Steps.settled (inv : h.Inv termOf quorum) (steps : Steps termOf quorum h h') {i : ι}
    (stays : h'.term i = h.term i) : h'.leader (h.term i) ≠ none ∨ h'.log i = h.log i := by
  induction steps with
  | refl => exact Or.inr rfl
  | @tail mid last first step ih =>
      obtain ⟨inv', ext⟩ := Steps.inv_extends inv first
      have ext' := step.extends inv'
      have stays' : mid.term i = h.term i := le_antisymm ((ext'.term i).trans_eq stays) (ext.term i)
      rcases step.settled (stays.trans stays'.symm) with led | same
      · exact Or.inl (stays' ▸ led)
      · rcases ih stays' with led | same'
        · exact Or.inl (ext'.led led)
        · exact Or.inr (same.trans same')

omit [DecidableEq ι] in
theorem inv_initial : (initial : History ι τ ε).Inv termOf quorum where
  votes voted := by simp [initial] at voted
  leaders leads := by simp [initial] at leads
  grounded i := by
    intro k e found
    simp [initial] at found
  bound i e member := by simp [initial] at member
  acks member := by simp [initial] at member
  kept acked := by simp [Acked, initial] at acked
  commits member := by simp [initial] at member

end History

end Mit6824.Consensus
