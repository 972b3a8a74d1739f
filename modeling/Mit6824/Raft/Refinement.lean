import Mit6824.Consensus.Safety
import Mit6824.Raft.Election
import Mit6824.Raft.WholeLog

/-!
# The cluster as a run of the protocol

`Cluster.Refines c h` relates a cluster to a history of the protocol: every peer
stands for the log the history gives it, the votes are those of the history, and
every packet that is still in the network is backed by the history, which only
grows. The server that acts is the only one whose part of the history changes
(`Refines.update`).
-/

namespace Mit6824

open Consensus

variable {n : Nat} {α σ : Type}

/-- The histories of the protocol that a cluster of `n` servers plays. -/
abbrev ClusterHistory (n : Nat) (α : Type) : Type := History (Fin n) Int (CommandTerm α)

/-- More than half of the servers. -/
def Majority (n : Nat) (Q : Set (Fin n)) : Prop :=
  ∃ s : Finset (Fin n), n < 2 * s.card ∧ ↑s = Q

theorem Majority.meet {Q Q' : Set (Fin n)} (first : Majority n Q) (second : Majority n Q') :
    ∃ v, v ∈ Q ∧ v ∈ Q' := by
  obtain ⟨s, more, rfl⟩ := first
  obtain ⟨t, more', rfl⟩ := second
  obtain ⟨v, inS, inT⟩ := majorities_meet more more'
  exact ⟨v, inS, inT⟩

/-- Steps of the protocol. -/
abbrev ProtocolSteps (n : Nat) {α : Type} : ClusterHistory n α → ClusterHistory n α → Prop :=
  History.Steps CommandTerm.term (Majority n)

/-- The invariant of the protocol. -/
abbrev ProtocolInv (n : Nat) {α : Type} (h : ClusterHistory n α) : Prop :=
  h.Inv CommandTerm.term (Majority n)

/-! ## Packets -/

/-- A request that says the truth. A candidate told how its log ended, which is still so while
it may win the term. A message has a piece of the leader's log; if it has no entries, its
`PrevLogTerm` may be that of a later index. A snapshot covers the leader's log up to its
label. -/
def Request.Backed (h : ClusterHistory n α) (src : Fin n) : Request α σ → Prop
  | .requestVote args => args.term ≤ h.term src ∧
      (args.term = h.term src → h.leader args.term ≠ none ∨
        args.lastLogIndex = (h.log src).length ∧
          args.lastLogTerm = lastTermOf CommandTerm.term (h.log src))
  | .appendEntry args => h.leader args.term = some src ∧
      ∃ b : Nat, args.prevLogIndex ≤ b ∧ b ≤ (h.ledger args.term).length ∧
        args.prevLogTerm = termAt (h.ledger args.term) b ∧
        (args.entries ≠ [] →
          args.prevLogIndex = b ∧ args.entries <+: (h.ledger args.term).drop b)
  | .installSnapShot args => h.leader args.term = some src ∧
      ∃ k : Nat, args.lastIncludedIndex = k ∧ k ≤ (h.ledger args.term).length ∧
        args.lastIncludedTerm = termAt (h.ledger args.term) k ∧
        (0 < k → ∃ blob, args.data = some blob ∧ blob.lastIndex = args.lastIncludedIndex ∧
          blob.lastTerm = args.lastIncludedTerm)

/-- A reply that acknowledges entries is recorded. -/
def Reply.Backed (h : ClusterHistory n α) (dst : Fin n) : Request α σ → Reply → Prop
  | .appendEntry args, .appendEntry reply => reply.success = true → reply.commitIndex = 0 →
      args.entries ≠ [] →
        (dst, args.term, (args.prevLogIndex + args.entries.length).toNat) ∈ h.acked
  | .installSnapShot args, .installSnapShot reply => reply.errCode = 0 →
      (dst, args.term, args.lastIncludedIndex.toNat) ∈ h.acked
  | _, _ => True

section Packets

variable {h h' : ClusterHistory n α} {src dst : Fin n} {request : Request α σ} {reply : Reply}

theorem Request.Backed.mono (inv : ProtocolInv n h) (steps : ProtocolSteps n h h')
    (backed : request.Backed h src) : request.Backed h' src := by
  obtain ⟨_, ext⟩ := History.Steps.inv_extends inv steps
  cases request with
  | requestVote args =>
      obtain ⟨reached, present⟩ := backed
      refine ⟨reached.trans (ext.term src), fun stays => ?_⟩
      have same : args.term = h.term src :=
        le_antisymm reached (stays ▸ ext.term src)
      rcases present same with led | log
      · exact Or.inl (ext.led led)
      · have settled := History.Steps.settled inv steps (i := src) (by rw [← stays, same])
        rcases settled with led | unchanged
        · exact Or.inl (same ▸ led)
        · exact Or.inr (by rwa [unchanged])
  | appendEntry args =>
      obtain ⟨leads, b, le, bound, term, piece⟩ := backed
      have led : h.leader args.term ≠ none := by simp [leads]
      have within := ext.ledger_isPrefix led
      refine ⟨ext.leader leads, b, le, bound.trans within.length_le, ?_, fun nonempty => ?_⟩
      · rw [term, termAt, termAt, take_eq_of_isPrefix within bound]
      · obtain ⟨start, entries⟩ := piece nonempty
        exact ⟨start, entries.trans (within.drop b)⟩
  | installSnapShot args =>
      obtain ⟨leads, k, index, bound, term, label⟩ := backed
      have led : h.leader args.term ≠ none := by simp [leads]
      have within := ext.ledger_isPrefix led
      refine ⟨ext.leader leads, k, index, bound.trans within.length_le, ?_, label⟩
      rw [term, termAt, termAt, take_eq_of_isPrefix within bound]

theorem Reply.Backed.mono (inv : ProtocolInv n h) (steps : ProtocolSteps n h h')
    (backed : reply.Backed h dst request) : reply.Backed h' dst request := by
  obtain ⟨_, ext⟩ := History.Steps.inv_extends inv steps
  cases request <;> cases reply
  case appendEntry.appendEntry =>
      exact fun success zero nonempty => ext.acked (backed success zero nonempty)
  case installSnapShot.installSnapShot => exact fun installed => ext.acked (backed installed)
  all_goals trivial

/-- A message that is cut from the log of the leader says the truth, if its entries start above
the snapshot. -/
theorem Raft.Cuts.backed {rf : Raft α σ} {args : AppendEntryArgs α} (cuts : rf.Cuts args)
    (holds : rf.Holds (h.ledger args.term)) (leads : h.leader args.term = some src)
    (above : args.entries ≠ [] → rf.lastIndexInSnapshot ≤ args.prevLogIndex) :
    Request.Backed h src (.appendEntry args : Request α σ) := by
  obtain ⟨entry, slot, term⟩ := cuts.prev
  have nonneg := holds.nonneg
  have length := holds.log_length
  rcases le_or_gt args.prevLogIndex rf.lastIndexInSnapshot with below | beyond
  · -- The term is the one of the sentinel.
    obtain ⟨entry', slot', term'⟩ := holds.slot_below below
    obtain rfl := Option.some.inj (slot'.symm.trans slot)
    refine ⟨leads, rf.lastIndexInSnapshot.toNat, by omega, holds.within, term.trans term', ?_⟩
    intro nonempty
    have start := above nonempty
    refine ⟨by omega, ?_⟩
    have entries := cuts.entries nonempty start
    obtain ⟨sentinel, slots, _⟩ := holds.slots
    rwa [Raft.getTrueIndex_of_le start,
      show args.prevLogIndex - rf.lastIndexInSnapshot = 0 by omega, slots, Int.toNat_zero,
      List.drop_succ_cons, List.drop_zero] at entries
  · obtain ⟨p, prev⟩ : ∃ p : Nat, args.prevLogIndex = p := ⟨args.prevLogIndex.toNat, by omega⟩
    have bound : p ≤ (h.ledger args.term).length := by
      obtain ⟨_, found⟩ := Raft.slot_eq_some_iff.1 slot
      have inside := (List.getElem?_eq_some_iff.1 found).1
      rw [Raft.getTrueIndex_of_le beyond.le] at inside
      omega
    rw [prev] at slot beyond
    obtain ⟨entry', slot', term', _⟩ := holds.slot_at beyond.le bound
    obtain rfl := Option.some.inj (slot'.symm.trans slot)
    refine ⟨leads, p, prev.le, bound, term.trans term', fun nonempty => ⟨prev, ?_⟩⟩
    have entries := cuts.entries nonempty (by omega)
    obtain ⟨sentinel, slots, _⟩ := holds.slots
    have position : ((p : Int) - rf.lastIndexInSnapshot).toNat =
        p - rf.lastIndexInSnapshot.toNat := by omega
    rw [prev, Raft.getTrueIndex_of_le beyond.le, slots, position, List.drop_succ_cons,
      List.drop_drop] at entries
    rwa [show rf.lastIndexInSnapshot.toNat + (p - rf.lastIndexInSnapshot.toNat) = p by omega]
      at entries

/-- A leader's snapshot covers its log. -/
theorem Raft.Stands.snapShotArgs_backed {rf : Raft α σ}
    (stands : rf.Stands (h.ledger rf.currentTerm)) (leads : h.leader rf.currentTerm = some src) :
    Request.Backed h src (.installSnapShot rf.snapShotArgs : Request α σ) := by
  have nonneg := stands.holds.nonneg
  have index : rf.lastIndexInSnapshot = (rf.lastIndexInSnapshot.toNat : Int) := by omega
  refine ⟨leads, rf.lastIndexInSnapshot.toNat, index, stands.holds.within, stands.lastTerm, ?_⟩
  intro positive
  exact stands.label (by omega)

end Packets

/-! ## The relation -/

/-- From `h` to `h'` nothing has happened to the term and the log of any server but `i`. -/
def Concerns (i : Fin n) (h h' : ClusterHistory n α) : Prop :=
  ∀ j, j ≠ i → h'.term j = h.term j ∧ h'.log j = h.log j

namespace Cluster

structure Refines (c : Cluster n α σ) (h : ClusterHistory n α) : Prop where
  inv : ProtocolInv n h
  term : ∀ i, (c.rf i).currentTerm = h.term i
  nonneg : ∀ i, 0 ≤ h.term i
  stands : ∀ i, (c.rf i).Stands (h.log i)
  votes : ∀ {v t d}, (v, t, d) ∈ c.supported ↔ ∃ l, h.vote v t = some (d, l)
  rounds : ∀ {i round}, (c.servers i).phase = .candidate round → round.args.term ≤ h.term i
  won : ∀ {i round}, (i, round) ∈ c.won → round.args.term ≤ h.term i ∧
    (round.args.term = h.term i → h.leader (h.term i) = some i)
  requests : ∀ {src dst request}, .request src dst request ∈ c.net → request.Backed h src
  replies : ∀ {src dst request reply}, .reply src dst request reply ∈ c.net →
    reply.Backed h dst request

variable {c c' : Cluster n α σ} {h h' : ClusterHistory n α} {i : Fin n} {server : Server n α σ}

theorem refines_init (n : Nat) (α σ : Type) : (init n α σ).Refines History.initial where
  inv := History.inv_initial
  term _ := rfl
  nonneg _ := le_rfl
  stands i := Raft.stands_boot n (i : Nat) []
  votes := by simp [init, History.initial]
  rounds phase := by simp [init, Server.boot] at phase
  won member := by simp [init] at member
  requests sent := by simp [init] at sent
  replies sent := by simp [init] at sent

/-- One server acts, and the history takes steps that concern that server alone. -/
theorem Refines.update (refines : c.Refines h) (steps : ProtocolSteps n h h')
    (still : Concerns i h h')
    (servers : c'.servers = Function.update c.servers i server)
    (term : server.rf.currentTerm = h'.term i) (stands : server.rf.Stands (h'.log i))
    (votes : ∀ {v t d}, (v, t, d) ∈ c'.supported ↔ ∃ l, h'.vote v t = some (d, l))
    (rounds : ∀ {round}, server.phase = .candidate round → round.args.term ≤ h.term i)
    (won : ∀ {j round}, (j, round) ∈ c'.won → (j, round) ∈ c.won ∨ j = i ∧
      round.args.term ≤ h'.term i ∧
      (round.args.term = h'.term i → h'.leader (h'.term i) = some i))
    (requests : ∀ {src dst request}, .request src dst request ∈ c'.net →
      .request src dst request ∈ c.net ∨ request.Backed h' src)
    (replies : ∀ {src dst request reply}, .reply src dst request reply ∈ c'.net →
      .reply src dst request reply ∈ c.net ∨ reply.Backed h' dst request) :
    c'.Refines h' := by
  obtain ⟨inv', ext⟩ := History.Steps.inv_extends refines.inv steps
  have others : ∀ {j}, j ≠ i → c'.servers j = c.servers j := by
    intro j other
    rw [servers, Function.update_of_ne other]
  have acts : c'.servers i = server := by rw [servers, Function.update_self]
  refine ⟨inv', ?_, fun j => (refines.nonneg j).trans (ext.term j), ?_, votes, ?_, ?_, ?_, ?_⟩
  · intro j
    by_cases same : j = i
    · subst same
      rw [rf, acts, term]
    · rw [rf, others same, (still j same).1]
      exact refines.term j
  · intro j
    by_cases same : j = i
    · subst same
      rwa [rf, acts]
    · rw [rf, others same, (still j same).2]
      exact refines.stands j
  · intro j round phase
    refine le_trans ?_ (ext.term j)
    by_cases same : j = i
    · subst same
      exact rounds (by rwa [acts] at phase)
    · exact refines.rounds (by rwa [others same] at phase)
  · intro j round member
    rcases won member with old | ⟨rfl, new⟩
    · obtain ⟨reached, leads⟩ := refines.won old
      refine ⟨reached.trans (ext.term j), fun stays => ?_⟩
      have same : round.args.term = h.term j := le_antisymm reached (stays ▸ ext.term j)
      rw [← stays, same]
      exact ext.leader (leads same)
    · exact new
  · intro src dst request sent
    rcases requests sent with old | backed
    · exact (refines.requests old).mono refines.inv steps
    · exact backed
  · intro src dst request reply sent
    rcases replies sent with old | backed
    · exact (refines.replies old).mono refines.inv steps
    · exact backed

end Cluster

end Mit6824
