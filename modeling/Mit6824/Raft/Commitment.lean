import Mit6824.Raft.Simulation

/-!
# What is committed

`Cluster.Commits c h` adds to `Cluster.Refines` what the servers know about the
commitments of the history: what a server has committed is decided, and so is every
command it has delivered; a message tells no commit index that is not decided; what a
reply says to be there has been acknowledged; and so has everything that a leader
counts in its match indices.
-/

namespace Mit6824

open Consensus

variable {n : Nat} {α σ : Type}

/-- The first entries of the ledger of `t`, up to `index`, are decided in term `t`. -/
def Told (h : ClusterHistory n α) (t index : Int) : Prop :=
  h.leader t ≠ none ∧ index ≤ (h.ledger t).length ∧
    h.Decided t ((h.ledger t).take index.toNat)

/-- The message delivers an entry that is decided. -/
def ApplyMsg.Settled (h : ClusterHistory n α) (message : ApplyMsg α σ) : Prop :=
  message.commandValid = true → ∃ t l, ∃ k : Nat, ∃ e, h.Decided t l ∧ l[k]? = some e ∧
    message.command = e.command ∧ message.commandIndex = k + 1

/-- The commit index of a message and the label of a snapshot are decided. -/
def Request.Told (h : ClusterHistory n α) : Request α σ → Prop
  | .requestVote _ => True
  | .appendEntry args => Mit6824.Told h args.term args.leaderCommit
  | .installSnapShot args => Mit6824.Told h args.term args.lastIncludedIndex

/-- A reply with the commit index or the snapshot index of the follower acknowledges what is
below it. -/
def Reply.Told (h : ClusterHistory n α) (dst : Fin n) : Request α σ → Reply → Prop
  | .appendEntry args, .appendEntry reply => reply.success = true → reply.commitIndex ≠ 0 →
      (dst, args.term, reply.commitIndex.toNat) ∈ h.acked
  | .installSnapShot args, .installSnapShot reply =>
      (reply.errCode = 2 → (dst, args.term, reply.value.toNat) ∈ h.acked) ∧
      (reply.errCode = 3 → (dst, args.term, args.lastIncludedIndex.toNat) ∈ h.acked)
  | _, _ => True

section Mono

variable {h h' : ClusterHistory n α} (inv : ProtocolInv n h) (steps : ProtocolSteps n h h')
include inv steps

theorem Told.mono {t index : Int} (told : Told h t index) : Told h' t index := by
  obtain ⟨_, ext⟩ := History.Steps.inv_extends inv steps
  obtain ⟨led, bound, decided⟩ := told
  have within := ext.ledger_isPrefix led
  refine ⟨ext.led led, bound.trans (by exact_mod_cast within.length_le), ?_⟩
  rw [ext.take_ledger led (by omega)]
  exact decided.extend inv ext

theorem ApplyMsg.Settled.mono {message : ApplyMsg α σ} (settled : message.Settled h) :
    message.Settled h' := by
  obtain ⟨_, ext⟩ := History.Steps.inv_extends inv steps
  intro valid
  obtain ⟨t, l, k, e, decided, found⟩ := settled valid
  exact ⟨t, l, k, e, decided.extend inv ext, found⟩

theorem Request.Told.mono {request : Request α σ} (told : request.Told h) : request.Told h' := by
  cases request with
  | requestVote _ => exact trivial
  | appendEntry args => exact Mit6824.Told.mono inv steps told
  | installSnapShot args => exact Mit6824.Told.mono inv steps told

theorem Reply.Told.mono {dst : Fin n} {request : Request α σ} {reply : Reply}
    (told : reply.Told h dst request) : reply.Told h' dst request := by
  obtain ⟨_, ext⟩ := History.Steps.inv_extends inv steps
  cases request <;> cases reply
  case appendEntry.appendEntry =>
      exact fun success ahead => ext.acked (told success ahead)
  case installSnapShot.installSnapShot =>
      exact ⟨fun code => ext.acked (told.1 code), fun code => ext.acked (told.2 code)⟩
  all_goals trivial

end Mono

namespace Cluster

structure Commits (c : Cluster n α σ) (h : ClusterHistory n α) : Prop where
  committed : ∀ i, h.Decided (h.term i) ((h.log i).take (c.rf i).commitIndex.toNat)
  delivered : ∀ {i message}, message ∈ (c.rf i).applyCh → message.Settled h
  waiting : ∀ {i cache logLen todo ind appEn shipped},
    (c.servers i).phase = .snapshotting cache logLen todo ind appEn shipped →
    Told h appEn.term appEn.leaderCommit
  matched : ∀ {i}, (c.servers i).phase.isLeader = true → c.hasWon i (h.term i) = true →
    ∀ {j : Fin n} {m : Int}, (c.rf i).matchIndex[j.val]? = some m → 0 < m →
      h.Acked j (h.term i) m.toNat
  requests : ∀ {src dst request}, .request src dst request ∈ c.net → request.Told h
  replies : ∀ {src dst request reply}, .reply src dst request reply ∈ c.net →
    reply.Told h dst request

theorem commits_init (n : Nat) (α σ : Type) : (init n α σ).Commits History.initial where
  committed i := by
    rw [show ((History.initial : ClusterHistory n α).log i) = [] from rfl, List.take_nil]
    exact .nil _
  delivered member := by
    simp [init, rf, Server.boot, Raft.make_eq, Persister.readable, makePersister] at member
  waiting phase := by simp [init, Server.boot] at phase
  matched phase := by simp [init, Server.boot, Phase.isLeader] at phase
  requests sent := by simp [init] at sent
  replies sent := by simp [init] at sent

variable {c c' : Cluster n α σ} {h h' : ClusterHistory n α} {i : Fin n} {server : Server n α σ}

/-- One server acts, and the history takes steps that concern that server alone. -/
theorem Commits.update (commits : c.Commits h) (inv : ProtocolInv n h)
    (steps : ProtocolSteps n h h')
    (still : Concerns i h h')
    (servers : c'.servers = Function.update c.servers i server)
    (won : ∀ {j round}, j ≠ i → (j, round) ∈ c'.won → (j, round) ∈ c.won)
    (committed : h'.Decided (h'.term i) ((h'.log i).take server.rf.commitIndex.toNat))
    (delivered : ∀ {message}, message ∈ server.rf.applyCh →
      message ∈ (c.rf i).applyCh ∨ message.Settled h')
    (waiting : ∀ {cache logLen todo ind appEn shipped},
      server.phase = .snapshotting cache logLen todo ind appEn shipped →
      Told h' appEn.term appEn.leaderCommit)
    (matched : server.phase.isLeader = true → c'.hasWon i (h'.term i) = true →
      ∀ {j : Fin n} {m : Int}, server.rf.matchIndex[j.val]? = some m → 0 < m →
        h'.Acked j (h'.term i) m.toNat)
    (requests : ∀ {src dst request}, .request src dst request ∈ c'.net →
      .request src dst request ∈ c.net ∨ request.Told h')
    (replies : ∀ {src dst request reply}, .reply src dst request reply ∈ c'.net →
      .reply src dst request reply ∈ c.net ∨ reply.Told h' dst request) :
    c'.Commits h' := by
  obtain ⟨_, ext⟩ := History.Steps.inv_extends inv steps
  have others : ∀ {j}, j ≠ i → c'.servers j = c.servers j := by
    intro j other
    rw [servers, Function.update_of_ne other]
  have acts : c'.servers i = server := by rw [servers, Function.update_self]
  refine ⟨?_, ?_, ?_, ?_, ?_, ?_⟩
  · intro j
    by_cases same : j = i
    · subst same
      rwa [rf, acts]
    · rw [rf, others same, (still j same).1, (still j same).2]
      exact (commits.committed j).extend inv ext
  · intro j message member
    by_cases same : j = i
    · subst same
      rw [rf, acts] at member
      rcases delivered member with old | settled
      · exact (commits.delivered old).mono inv steps
      · exact settled
    · rw [rf, others same] at member
      exact (commits.delivered member).mono inv steps
  · intro j cache logLen todo ind appEn shipped phase
    by_cases same : j = i
    · subst same
      rw [acts] at phase
      exact waiting phase
    · rw [others same] at phase
      exact (commits.waiting phase).mono inv steps
  · intro j phase hasWon k m found positive
    by_cases same : j = i
    · subst same
      rw [acts] at phase
      rw [rf, acts] at found
      exact matched phase hasWon found positive
    · rw [others same] at phase
      rw [rf, others same] at found
      rw [(still j same).1] at hasWon ⊢
      obtain ⟨round, member, term⟩ := hasWon_iff.1 hasWon
      exact ext.ackedBy
        (commits.matched phase (hasWon_iff.2 ⟨round, won same member, term⟩) found positive)
  · intro src dst request sent
    rcases requests sent with old | told
    · exact (commits.requests old).mono inv steps
    · exact told
  · intro src dst request reply sent
    rcases replies sent with old | told
    · exact (commits.replies old).mono inv steps
    · exact told

end Cluster

end Mit6824
