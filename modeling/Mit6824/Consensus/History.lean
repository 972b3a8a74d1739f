import Mathlib.Data.Set.Insert
import Mathlib.Logic.Function.Basic
import Mit6824.Consensus.Logs

/-!
# The history of a leader-based consensus protocol

An abstract protocol in which terms are led by elected leaders and followers take
over their leader's log. A `History` has the present of every node (its term and
its log) and what must be remembered of the past: who voted for whom, and with
which log; the leader of each term, the log it was elected with and the log it
has written since (its `ledger`); what the nodes have acknowledged; and which
stretches of a ledger were committed.

`Step` is what the nodes may do. There is no network in it: a message only
carries what the history remembers anyway, and a step may use it at any time.
-/

namespace Mit6824.Consensus

universe u v w

/-- `vote v t = some (c, l)`: in term `t` node `v` voted for `c`, when its log was `l`.
`(v, t, k) ∈ acked`: `v` told the leader of term `t` that it has the first `k` entries of the
ledger. `(t, k) ∈ committed`: the first `k` entries of the ledger of `t` were committed. -/
structure History (ι : Type u) (τ : Type v) (ε : Type w) where
  term : ι → τ
  log : ι → List ε
  vote : ι → τ → Option (ι × List ε)
  leader : τ → Option ι
  start : τ → List ε
  ledger : τ → List ε
  acked : Set (ι × τ × ℕ)
  committed : Set (τ × ℕ)

namespace History

variable {ι : Type u} {τ : Type v} {ε : Type w}

/-- Nobody has done anything. -/
def initial [Zero τ] : History ι τ ε where
  term _ := 0
  log _ := []
  vote _ _ := none
  leader _ := none
  start _ := []
  ledger _ := []
  acked := ∅
  committed := ∅

/-- `v` has the first `k` entries of the ledger of `t`, as far as its leader can know. -/
def Acked (h : History ι τ ε) (v : ι) (t : τ) (k : ℕ) : Prop :=
  (∃ m, k ≤ m ∧ (v, t, m) ∈ h.acked) ∨ h.leader t = some v ∧ k ≤ (h.ledger t).length

theorem Acked.mono {h : History ι τ ε} {v : ι} {t : τ} {k m : ℕ} (acked : h.Acked v t k)
    (le : m ≤ k) : h.Acked v t m := by
  rcases acked with ⟨k', le', member⟩ | ⟨leads, bound⟩
  · exact Or.inl ⟨k', le.trans le', member⟩
  · exact Or.inr ⟨leads, le.trans bound⟩

/-- Every entry of `l` was written by the leader of its term, together with all that is before
it in `l`. -/
def Grounded (h : History ι τ ε) (termOf : ε → τ) (l : List ε) : Prop :=
  ∀ ⦃k e⦄, l[k]? = some e →
    h.leader (termOf e) ≠ none ∧ l.take (k + 1) <+: h.ledger (termOf e)

namespace Grounded

variable {h : History ι τ ε} {termOf : ε → τ} {l p : List ε}

theorem of_isPrefix (grounded : h.Grounded termOf l) (within : p <+: l) :
    h.Grounded termOf p := by
  intro k e found
  have inside : k < p.length := (List.getElem?_eq_some_iff.1 found).1
  rw [take_eq_of_isPrefix within inside]
  exact grounded (getElem?_of_isPrefix within found)

theorem graft (grounded : h.Grounded termOf l) (grounded' : h.Grounded termOf p) :
    h.Grounded termOf (graft l p) := by
  rcases graft_cases l p with ⟨same, _⟩ | ⟨taken, _⟩
  · rwa [same]
  · rwa [taken]

/-- A leader that has written all of a log up to the new entry. -/
theorem concat (grounded : h.Grounded termOf l) {e : ε} (led : h.leader (termOf e) ≠ none)
    (within : l ++ [e] <+: h.ledger (termOf e)) : h.Grounded termOf (l ++ [e]) := by
  intro k d found
  rcases Nat.lt_or_ge k l.length with old | new
  · rw [List.getElem?_append_left old] at found
    rw [List.take_append_of_le_length old]
    exact grounded found
  · have inside : k < (l ++ [e]).length := (List.getElem?_eq_some_iff.1 found).1
    rw [List.length_append, List.length_singleton] at inside
    obtain rfl : k = l.length := by omega
    obtain rfl : e = d := by simpa using found
    exact ⟨led, (List.take_prefix _ _).trans within⟩

end Grounded

section Moves

variable [DecidableEq ι]

/-- Node `i` moves to term `t`. -/
def advance (h : History ι τ ε) (i : ι) (t : τ) : History ι τ ε :=
  { h with term := Function.update h.term i t }

variable [DecidableEq τ]

/-- Node `v` votes for `c` in term `t`. -/
def support (h : History ι τ ε) (v : ι) (t : τ) (c : ι) : History ι τ ε :=
  { h with
    term := Function.update h.term v t
    vote := Function.update h.vote v (Function.update (h.vote v) t (some (c, h.log v))) }

/-- Node `c` becomes the leader of its term. -/
def elect (h : History ι τ ε) (c : ι) : History ι τ ε :=
  { h with
    leader := Function.update h.leader (h.term c) (some c)
    start := Function.update h.start (h.term c) (h.log c)
    ledger := Function.update h.ledger (h.term c) (h.log c) }

/-- The leader `c` writes `e`. -/
def append (h : History ι τ ε) (c : ι) (e : ε) : History ι τ ε :=
  { h with
    log := Function.update h.log c (h.log c ++ [e])
    ledger := Function.update h.ledger (h.term c) (h.log c ++ [e]) }

/-- Node `j` takes over the first `k` entries of the ledger of `t`. -/
noncomputable def accept (h : History ι τ ε) (j : ι) (t : τ) (k : ℕ) : History ι τ ε :=
  { h with
    term := Function.update h.term j t
    log := Function.update h.log j (graft (h.log j) ((h.ledger t).take k))
    acked := insert (j, t, k) h.acked }

/-- The first `k` entries of the ledger of `t` are committed. -/
def commit (h : History ι τ ε) (t : τ) (k : ℕ) : History ι τ ε :=
  { h with committed := insert (t, k) h.committed }

end Moves

/-- A step of the protocol. A candidate's log must be up to date for a voter as long as the
candidate can still win the term. Only an entry of the leader's own term is committed by
counting the nodes that have it. -/
inductive Step [DecidableEq ι] [LinearOrder τ] [Zero τ] (termOf : ε → τ)
    (quorum : Set ι → Prop) : History ι τ ε → History ι τ ε → Prop where
  | advance {h : History ι τ ε} {i : ι} {t : τ} (later : h.term i ≤ t) :
      Step termOf quorum h (h.advance i t)
  | support {h : History ι τ ε} {v c : ι} {t : τ} (unused : h.vote v t = none)
      (later : h.term v ≤ t) (asked : t ≤ h.term c)
      (uptodate : t < h.term c ∨ h.leader t ≠ none ∨ UpToDate termOf (h.log c) (h.log v)) :
      Step termOf quorum h (h.support v t c)
  | elect {h : History ι τ ε} {c : ι} {Q : Set ι} (isQuorum : quorum Q)
      (votes : ∀ v ∈ Q, ∃ l, h.vote v (h.term c) = some (c, l))
      (vacant : h.leader (h.term c) = none) (nonneg : 0 ≤ h.term c) :
      Step termOf quorum h (h.elect c)
  | append {h : History ι τ ε} {c : ι} {e : ε} (leads : h.leader (h.term c) = some c)
      (current : termOf e = h.term c) : Step termOf quorum h (h.append c e)
  | accept {h : History ι τ ε} {j : ι} {t : τ} {k : ℕ} (led : h.leader t ≠ none)
      (later : h.term j ≤ t) (bound : k ≤ (h.ledger t).length) :
      Step termOf quorum h (h.accept j t k)
  | commit {h : History ι τ ε} {t : τ} {k : ℕ} {e : ε} {Q : Set ι} (led : h.leader t ≠ none)
      (isQuorum : quorum Q) (acks : ∀ v ∈ Q, h.Acked v t (k + 1))
      (found : (h.ledger t)[k]? = some e) (own : termOf e = t) :
      Step termOf quorum h (h.commit t (k + 1))

/-! ## What is never undone -/

/-- `h'` comes after `h`: nothing that was decided in `h` is different in `h'`. A leader only
adds entries of its own term to its ledger. -/
structure Extends [Preorder τ] (termOf : ε → τ) (h h' : History ι τ ε) : Prop where
  term : ∀ i, h.term i ≤ h'.term i
  vote : ∀ {v t b}, h.vote v t = some b → h'.vote v t = some b
  leader : ∀ {t c}, h.leader t = some c → h'.leader t = some c
  start : ∀ {t}, h.leader t ≠ none → h'.start t = h.start t
  ledger : ∀ {t}, h.leader t ≠ none →
    ∃ added, h'.ledger t = h.ledger t ++ added ∧ ∀ e ∈ added, termOf e = t
  acked : h.acked ⊆ h'.acked
  committed : h.committed ⊆ h'.committed

namespace Extends

section Preorder

variable [Preorder τ] {termOf : ε → τ} {h h' h'' : History ι τ ε}

theorem refl (h : History ι τ ε) : Extends termOf h h where
  term _ := le_rfl
  vote found := found
  leader found := found
  start _ := rfl
  ledger _ := ⟨[], by simp, by simp⟩
  acked := subset_rfl
  committed := subset_rfl

theorem led (ext : Extends termOf h h') {t : τ} (led : h.leader t ≠ none) :
    h'.leader t ≠ none := by
  obtain ⟨c, found⟩ := Option.ne_none_iff_exists'.1 led
  simp [ext.leader found]

theorem trans (first : Extends termOf h h') (second : Extends termOf h' h'') :
    Extends termOf h h'' where
  term i := (first.term i).trans (second.term i)
  vote found := second.vote (first.vote found)
  leader found := second.leader (first.leader found)
  start led := (second.start (first.led led)).trans (first.start led)
  ledger led := by
    obtain ⟨added, grown, terms⟩ := first.ledger led
    obtain ⟨added', grown', terms'⟩ := second.ledger (first.led led)
    refine ⟨added ++ added', by rw [grown', grown, List.append_assoc], ?_⟩
    intro e member
    rcases List.mem_append.1 member with old | new
    · exact terms e old
    · exact terms' e new
  acked := first.acked.trans second.acked
  committed := first.committed.trans second.committed

theorem ledger_isPrefix (ext : Extends termOf h h') {t : τ} (led : h.leader t ≠ none) :
    h.ledger t <+: h'.ledger t := by
  obtain ⟨added, grown, _⟩ := ext.ledger led
  exact ⟨added, grown.symm⟩

theorem take_ledger (ext : Extends termOf h h') {t : τ} {k : ℕ} (led : h.leader t ≠ none)
    (bound : k ≤ (h.ledger t).length) : (h'.ledger t).take k = (h.ledger t).take k :=
  (take_eq_of_isPrefix (ext.ledger_isPrefix led) bound).symm

theorem grounded (ext : Extends termOf h h') {l : List ε} (grounded : h.Grounded termOf l) :
    h'.Grounded termOf l := by
  intro k e found
  obtain ⟨led, within⟩ := grounded found
  exact ⟨ext.led led, within.trans (ext.ledger_isPrefix led)⟩

theorem ackedBy (ext : Extends termOf h h') {v : ι} {t : τ} {k : ℕ} (acked : h.Acked v t k) :
    h'.Acked v t k := by
  rcases acked with ⟨m, le, member⟩ | ⟨leads, le⟩
  · exact Or.inl ⟨m, le, ext.acked member⟩
  · have led : h.leader t ≠ none := by simp [leads]
    exact Or.inr ⟨ext.leader leads, le.trans (ext.ledger_isPrefix led).length_le⟩

end Preorder

end Extends

end History

end Mit6824.Consensus
