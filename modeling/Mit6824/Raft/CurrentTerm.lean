import Mit6824.Raft.StateMachine

/-!
# Commits of the current term

The commit loop of a leader ends at an entry of its current term as long as every match
index it records is at most its commit index or leads to such an entry. The commit rule
itself looks at no term. After a re-election with an entry of an earlier term the repair
messages, which carry one entry each, record exactly that index.
-/

namespace Mit6824

open Consensus

variable {n : Nat} {α σ : Type}

/-! ## The condition -/

/-- The index is committed already, or has an entry of the current term. -/
def Raft.reachesOwnTerm (rf : Raft α σ) (index : Int) : Bool :=
  decide (index ≤ rf.commitIndex) ||
    (rf.entryAt index).any fun entry => entry.term == rf.currentTerm

namespace Server

/-- A reigning leader records such match indices only, and no other server counts replies as a
leader. -/
def recordsOwnTerm (server : Server n α σ) (won : Int → Bool) : Input n α σ → Bool
  | .entryReply k reply =>
      server.senders[k]?.all fun sender =>
        !reply.success || sender.appEn.entries.isEmpty ||
          if server.reigns won then
            (server.rf.newMatch sender.ind sender.appEn reply).all server.rf.reachesOwnTerm
          else server.rf.leaderNum != server.rf.me
  | input =>
      (server.shipment input).all fun (_, args, reply) =>
        !server.reigns won || reply.errCode == 1 ||
          server.rf.reachesOwnTerm
            (if reply.errCode = 2 then reply.value else args.lastIncludedIndex)

end Server

namespace Cluster

def keepsOwnTerm [DecidableEq α] (c : Cluster n α σ) (i : Fin n) (input : Input n α σ) : Bool :=
  c.keepsLogs i input && (c.servers i).recordsOwnTerm (c.hasWon i) input

/-! ## The match indices of a reigning leader -/

/-- At `index` server `i` has an entry of its term. -/
def OwnEntry (h : ClusterHistory n α) (i : Fin n) (index : Int) : Prop :=
  ∃ k : Nat, ∃ entry, index = k + 1 ∧ (h.log i)[k]? = some entry ∧ entry.term = h.term i

/-- Every match index of a reigning leader is committed or that of an entry of its term. -/
def OwnMatches (c : Cluster n α σ) (h : ClusterHistory n α) : Prop :=
  ∀ i, (c.servers i).phase.isLeader = true → c.hasWon i (h.term i) = true →
    ∀ m ∈ (c.rf i).matchIndex, m ≤ (c.rf i).commitIndex ∨ OwnEntry h i m

variable {c c' : Cluster n α σ} {h h' : ClusterHistory n α} {i : Fin n} {input : Input n α σ}
  {server : Server n α σ} {output : Output n α σ}

theorem Refines.ownEntry (refines : c.Refines h) {index : Int}
    (reaches : (c.rf i).reachesOwnTerm index = true) :
    index ≤ (c.rf i).commitIndex ∨ OwnEntry h i index := by
  simp only [Raft.reachesOwnTerm, Bool.or_eq_true, decide_eq_true_eq, Option.any_eq_true,
    beq_iff_eq] at reaches
  refine reaches.imp_right ?_
  rintro ⟨entry, found, own⟩
  have above : (c.rf i).lastIndexInSnapshot < index := by
    by_contra below
    simp [Raft.entryAt, not_lt.1 below] at found
  have nonneg := (refines.stands i).holds.nonneg
  obtain ⟨k, rfl⟩ : ∃ k : Nat, index = k := ⟨index.toNat, by omega⟩
  rw [(refines.stands i).holds.entryAt above] at found
  exact ⟨k - 1, entry, by omega, found, own.trans (refines.term i)⟩

/-- A reigning leader keeps its term and only adds to its log. -/
theorem Refines.reign (refines : c.Refines h) (steps : ProtocolSteps n h h')
    (won : c.hasWon i (h'.term i) = true) : h'.term i = h.term i ∧ h.log i <+: h'.log i := by
  obtain ⟨_, ext⟩ := History.Steps.inv_extends refines.inv steps
  have same := refines.stays steps won
  obtain ⟨leader', log'⟩ := refines.leads steps won rfl
  rw [same] at won leader' log'
  obtain ⟨leader, log⟩ := refines.leads .refl won rfl
  rw [log, log']
  exact ⟨same, ext.ledger_isPrefix (by simp [leader])⟩

theorem OwnEntry.mono {index : Int} (own : OwnEntry h i index) (same : h'.term i = h.term i)
    (grown : h.log i <+: h'.log i) : OwnEntry h' i index := by
  obtain ⟨k, entry, position, found, term⟩ := own
  exact ⟨k, entry, position, getElem?_of_isPrefix grown found, term.trans same.symm⟩

/-- One server acts. Where it reigns afterwards, every match index it has was there before, or
is one of the new ones. -/
theorem OwnMatches.update (matches' : c.OwnMatches h) (refines : c.Refines h)
    (steps : ProtocolSteps n h h') (still : Concerns i h h')
    (servers : c'.servers = Function.update c.servers i server)
    (won : ∀ {j round}, (j, round) ∈ c'.won → (j, round) ∈ c.won ∨
      j = i ∧ server.phase.isLeader = false)
    (acts : server.phase.isLeader = true → c.hasWon i (h.term i) = true →
      h'.term i = h.term i → h.log i <+: h'.log i → ∀ m ∈ server.rf.matchIndex,
        (c.servers i).phase.isLeader = true ∧ m ∈ (c.rf i).matchIndex ∧
            (c.rf i).commitIndex ≤ server.rf.commitIndex ∨
          m ≤ server.rf.commitIndex ∨ OwnEntry h' i m) :
    c'.OwnMatches h' := by
  intro j leads won' m member
  obtain ⟨round, winner, term⟩ := hasWon_iff.1 won'
  by_cases same : j = i
  · subst same
    rw [servers, Function.update_self] at leads
    rw [rf, servers, Function.update_self] at member ⊢
    have before : c.hasWon j (h'.term j) = true := by
      rcases won winner with old | ⟨_, gone⟩
      · exact hasWon_iff.2 ⟨round, old, term⟩
      · rw [gone] at leads
        cases leads
    obtain ⟨stays, grown⟩ := refines.reign steps before
    rw [stays] at before
    rcases acts leads before stays grown m member with ⟨leads', old, commit⟩ | new
    · rcases matches' j leads' before m old with le | own
      · exact Or.inl (le.trans commit)
      · exact Or.inr (own.mono stays grown)
    · exact new
  · have others : c'.servers j = c.servers j := by rw [servers, Function.update_of_ne same]
    rw [rf, others] at member ⊢
    rw [others] at leads
    rw [(still j same).1] at won' term
    rcases won winner with old | ⟨equal, _⟩
    · rcases matches' j leads (hasWon_iff.2 ⟨round, old, term⟩) m member with le | own
      · exact Or.inl le
      · exact Or.inr (own.mono (still j same).1 (by rw [(still j same).2]))
    · exact absurd equal same

/-- A handler does not take the commit index of a reigning leader back. -/
theorem Refines.commit_mono [DecidableEq α] (refines : c.Refines h) {src dst : Fin n}
    {request : Request α σ} {reply : Reply} (sent : .request src dst request ∈ c.net)
    (handled : (c.servers dst).handle request = some (server, { reply := some reply }))
    (kept : (c.servers dst).keepsLog (.request request) = true)
    (won : c.hasWon dst (h.term dst) = true) :
    (c.rf dst).commitIndex ≤ server.rf.commitIndex := by
  have stands := refines.stands dst
  cases request with
  | requestVote args =>
      obtain ⟨⟨rf, _⟩, voted, equal⟩ := Option.map_eq_some_iff.1 handled
      cases equal
      rcases Raft.requestVote_cases voted with
        ⟨rfl, _⟩ | ⟨_, _, rfl, _⟩ | ⟨_, _, _, _, rfl⟩ | ⟨_, _, _, _, _, rfl⟩
      all_goals exact le_rfl
  | appendEntry args =>
      obtain ⟨⟨rf, _⟩, appended, equal⟩ := Option.map_eq_some_iff.1 handled
      cases equal
      have nonneg := stands.commit_nonneg
      rcases stands.appendEntry appended with
        ⟨_, rfl, _⟩ | ⟨_, _, ⟨_, _, same, _⟩ | ⟨_, k', _, _, _, _, _, _, reach, commit, _⟩⟩
      · exact le_rfl
      · exact same.ge
      · dsimp only
        omega
  | installSnapShot args =>
      obtain ⟨⟨rf, _⟩, installed, equal⟩ := Option.map_eq_some_iff.1 handled
      cases equal
      rcases Raft.installSnapShot_cases installed with
        ⟨rfl, _⟩ | ⟨rfl, _⟩ | ⟨rfl, _⟩ | ⟨installs, current, _, above, conflict, _⟩
      iterate 3 exact le_rfl
      -- The leader would have to lack what is in its own ledger.
      exfalso
      have term : (c.servers dst).rf.currentTerm = h.term dst := refines.term dst
      simp only [Server.keepsLog, installs, Bool.not_true, Bool.false_or,
        decide_eq_true_eq] at kept
      obtain ⟨_, k, index, bound, lastTerm, _⟩ := refines.requests sent
      obtain ⟨_, log⟩ := refines.leads .refl won rfl
      rw [← term, le_antisymm current kept] at log
      rw [← log] at bound lastTerm
      have last : (c.servers dst).rf.getLastLogIndex = _ := stands.holds.getLastLogIndex
      have above' : (c.rf dst).lastIndexInSnapshot < args.lastIncludedIndex := above
      obtain ⟨entry, slot, entryTerm, _⟩ := stands.holds.slot_at (k := k) (by omega) bound
      refine conflict (by omega) ?_
      change ((c.rf dst).slot ((c.rf dst).getTrueIndex args.lastIncludedIndex)).map _ = _
      rw [index, slot, Option.map_some, entryTerm, lastTerm]

theorem OwnMatches.answered [DecidableEq α] (matches' : c.OwnMatches h) (refines : c.Refines h)
    (steps : ProtocolSteps n h h') {src dst : Fin n} {request : Request α σ} {reply : Reply}
    (still : Concerns dst h h') (sent : .request src dst request ∈ c.net)
    (handled : (c.servers dst).handle request = some (server, { reply := some reply }))
    (kept : (c.servers dst).keepsLog (.request request) = true) :
    (c.answered src dst request server reply).OwnMatches h' := by
  obtain ⟨phase, matchIndex⟩ := Server.handle_frame handled
  refine matches'.update refines steps still rfl (fun member => Or.inl member) ?_
  intro leads won _ _ m member
  rw [phase] at leads
  rw [matchIndex] at member
  exact Or.inl ⟨leads, member, refines.commit_mono sent handled kept won⟩

/-- A reply to `AppendEntry`: the new match index is one that the condition speaks about, and the
commit index becomes the median of the match indices. -/
theorem OwnMatches.onReply [DecidableEq α] (matches' : c.OwnMatches h) (refines : c.Refines h)
    {k : Nat} {reply : AppendEntryReply} (kept : c.keepsOwnTerm i (.entryReply k reply) = true)
    (stepped : (c.servers i).step i (.entryReply k reply) = some (server, output)) :
    server.phase = (c.servers i).phase ∧ output.won = none ∧
      (c.rf i).commitIndex ≤ server.rf.commitIndex ∧
      ((c.servers i).reigns (c.hasWon i) = true → ∀ m ∈ server.rf.matchIndex,
        m ≤ (c.rf i).commitIndex ∨ OwnEntry h i m) ∧
      ((c.rf i).commitIndex < server.rf.commitIndex →
        ∃ entry, server.rf.entryAt server.rf.commitIndex = some entry ∧
          entry.term = server.rf.currentTerm) := by
  simp only [keepsOwnTerm, Bool.and_eq_true] at kept
  obtain ⟨_, records⟩ := kept
  have stands := refines.stands i
  have nonneg := stands.commit_nonneg
  have term : (c.servers i).rf.currentTerm = h.term i := refines.term i
  obtain ⟨k₀, committed⟩ : ∃ k₀ : Nat, (c.rf i).commitIndex = k₀ :=
    ⟨(c.rf i).commitIndex.toNat, by omega⟩
  obtain ⟨sender, rf, next, waiting, found, handled, frame, phase, unwon⟩ :=
    (Server.step_moves stepped).onReply
  obtain ⟨leaderNum, k', nextIndex, matchIndex, _, lower, upper, progress, rfl⟩ :=
    stands.window.onReply committed handled
  simp only [Server.recordsOwnTerm, found, Option.all_some] at records
  have allowed : reply.success = true → sender.appEn.entries ≠ [] → ∀ {m},
      (c.rf i).newMatch sender.ind sender.appEn reply = some m →
      if (c.servers i).reigns (c.hasWon i) then (c.rf i).reachesOwnTerm m = true
      else (c.rf i).leaderNum ≠ (c.rf i).me := by
    intro success nonempty m reached
    have reached' : (c.servers i).rf.newMatch sender.ind sender.appEn reply = some m := reached
    simp only [success, Bool.not_true, Bool.false_or, List.isEmpty_eq_false_iff.2 nonempty,
      reached', Option.all_some] at records
    split_ifs at records ⊢ with reigns
    · exact records
    · exact bne_iff_ne.1 records
  have known : (c.servers i).reigns (c.hasWon i) = true → ∀ m ∈ matchIndex,
      m ≤ (c.rf i).commitIndex ∨ OwnEntry h i m := by
    intro reigns m member
    have both := reigns
    simp only [Server.reigns, Bool.and_eq_true, term] at both
    rcases progress with ⟨_, rfl⟩ | ⟨success, nonempty, m', reached, rfl, _⟩
    · exact matches' i both.1 both.2 m member
    · rcases List.mem_or_eq_of_mem_set member with old | rfl
      · exact matches' i both.1 both.2 m old
      · have sound := allowed success nonempty reached
        rw [if_pos reigns] at sound
        exact refines.ownEntry sound
  have commit : server.rf.commitIndex = k' := by rw [frame]
  refine ⟨phase, unwon, by omega, ?_, fun raised => ?_⟩
  · rw [frame]
    exact known
  · rcases progress with ⟨same, _⟩ | ⟨success, nonempty, m, reached, rfl, same | rule⟩
    · omega
    · omega
    obtain ⟨_, _, leads, median, picked, equal⟩ := rule
    have sound := allowed success nonempty reached
    split_ifs at sound with reigns
    swap
    · exact absurd leads sound
    -- The median is one of the match indices.
    have member : (median : Int) ∈ (c.rf i).matchIndex.set sender.ind m :=
      (List.mem_insertionSort _).1 (List.mem_of_getElem? picked)
    rcases known reigns _ member with le | ⟨q, entry, position, place, own⟩
    · omega
    have inside := (List.getElem?_eq_some_iff.1 place).1
    have above : (c.rf i).lastIndexInSnapshot < k' := by
      have base := stands.base
      omega
    refine ⟨entry, ?_, ?_⟩
    · rw [commit, frame]
      refine (stands.holds.entryAt above).trans ?_
      rw [show k' - 1 = q by omega, place]
    · rw [frame]
      exact own.trans term.symm

section Acts

variable [DecidableEq α] [DecidableEq σ] (matches' : c.OwnMatches h) (refines : c.Refines h)
  (steps : ProtocolSteps n h h') (still : Concerns i h h')
  (kept : c.keepsOwnTerm i input = true)
  (stepped : (c.servers i).step i input = some (server, output))
include matches' refines steps still kept stepped

theorem OwnMatches.acted_other (placed : (c.servers i).Placed i) (prompted : c.Prompted i input)
    (refines' : (c.acted i input server output).Refines h')
    (other : ∀ k reply, input ≠ .entryReply k reply) :
    (c.acted i input server output).OwnMatches h' := by
  have moves := Server.step_moves stepped
  have own : ∀ request, input ≠ .request request := by
    rintro request rfl
    exact prompted
  simp only [keepsOwnTerm, keepsLogs, Bool.and_eq_true] at kept
  obtain ⟨⟨⟨_, keepsLog⟩, speaks⟩, records⟩ := kept
  have term : (c.servers i).rf.currentTerm = h.term i := refines.term i
  have nonneg := (refines.stands i).commit_nonneg
  refine matches'.update refines steps still rfl ?_ ?_
  · intro j round member
    rcases mem_won_acted.1 member with old | ⟨rfl, won⟩
    · exact Or.inl old
    · refine Or.inr ⟨rfl, ?_⟩
      by_contra leads
      have unwon := (moves.matchIndex own other (by simpa using leads)).1
      simp [unwon] at won
  · intro leads' won stays grown m member
    have commit : server.rf.commitIndex = (c.rf i).commitIndex := by
      rcases moves.commitIndex own other with ⟨same, _⟩ | ⟨_, rfl⟩
      · exact same
      · cases leads'
    rcases (moves.matchIndex own other leads').2 with
      reset | ⟨leads, unchanged | ⟨⟨k, rfl⟩, started⟩ | ⟨ind, args, reply, shipment, set⟩⟩
    · rw [reset] at member
      obtain ⟨_, rfl⟩ := List.mem_replicate.1 member
      exact Or.inr (Or.inl (by omega))
    · rw [unchanged] at member
      exact Or.inl ⟨leads, member, commit.ge⟩
    · rw [started] at member
      rcases List.mem_or_eq_of_mem_set member with old | rfl
      · exact Or.inl ⟨leads, old, commit.ge⟩
      · -- The last entry is the one of this `Start`, of the term the leader has won.
        rcases moves.wholeLog (refines.stands i) placed (Server.recovers_of_keepsLog keepsLog)
            own with
          ⟨_, _, idle⟩ | ⟨k', command, curTerm, equal, found, _, stands⟩
        · exact absurd rfl (idle k)
        · cases equal
          simp only [Server.leadsOwnTerm, found, Option.all_some, Bool.and_eq_true,
            beq_iff_eq] at speaks
          have stands' : server.rf.Stands (h'.log i) := by
            simpa [rf_acted] using refines'.stands i
          have last := stands.holds.getLastLogIndex
          rw [List.length_append, List.length_singleton] at last
          have above : server.rf.lastIndexInSnapshot < ((h.log i).length + 1 : Nat) := by
            have base := stands.base
            have bound := (refines.stands i).commit
            omega
          refine Or.inr (Or.inr ⟨(h.log i).length, ⟨some command, curTerm⟩, last, ?_, ?_⟩)
          · rw [← Nat.add_sub_cancel (h.log i).length 1, ← stands'.holds.entryAt above,
              stands.holds.entryAt above, Nat.add_sub_cancel,
              List.getElem?_append_right le_rfl, Nat.sub_self]
            rfl
          · exact speaks.2.trans (term.trans stays.symm)
    · have reigns : (c.servers i).reigns (c.hasWon i) = true := by
        rw [Server.reigns, leads, term, won, Bool.true_and]
      have allowed : (((c.servers i).shipment input).all fun (_, args, reply) =>
          !(c.servers i).reigns (c.hasWon i) || reply.errCode == 1 ||
            (c.servers i).rf.reachesOwnTerm
              (if reply.errCode = 2 then reply.value else args.lastIncludedIndex)) = true := by
        cases input with
        | entryReply k reply => exact absurd rfl (other k reply)
        | request request => exact absurd rfl (own request)
        | _ => exact records
      simp only [shipment, Option.all_some, reigns, Bool.not_true, Bool.false_or, Bool.or_eq_true,
        beq_iff_eq] at allowed
      -- A new match index is one that the condition speaks about.
      have sound : ∀ {index}, reply.errCode ≠ 1 →
          index = (if reply.errCode = 2 then reply.value else args.lastIncludedIndex) →
          index ≤ server.rf.commitIndex ∨ OwnEntry h' i index := by
        rintro index fresh rfl
        rw [commit]
        exact (refines.ownEntry (allowed.resolve_left fresh)).imp_right
          fun entry => entry.mono stays grown
      rw [set] at member
      rcases (c.servers i).rf.snapShotReply_progress ind args reply with
        same | ⟨old, same⟩ | ⟨done, same⟩
      · rw [same] at member
        exact Or.inl ⟨leads, member, commit.ge⟩
      all_goals
        rw [same] at member
        rcases List.mem_or_eq_of_mem_set member with before | equal
        · exact Or.inl ⟨leads, before, commit.ge⟩
      · exact Or.inr (sound (by omega) (by rw [if_pos old, equal]))
      · exact Or.inr (sound (by omega) (by rw [if_neg (by omega), equal]))

omit [DecidableEq σ] in
theorem OwnMatches.acted_reply {k : Nat} {reply : AppendEntryReply}
    (equal : input = .entryReply k reply) : (c.acted i input server output).OwnMatches h' := by
  subst equal
  obtain ⟨phase, unwon, lower, known, _⟩ := matches'.onReply refines kept stepped
  refine matches'.update refines steps still rfl ?_ ?_
  · intro j round member
    exact Or.inl (by simpa [acted, unwon] using member)
  · intro leads won stays grown m member
    rw [phase] at leads
    have reigns : (c.servers i).reigns (c.hasWon i) = true := by
      have term : (c.servers i).rf.currentTerm = h.term i := refines.term i
      rw [Server.reigns, leads, term, won, Bool.true_and]
    rcases known reigns m member with le | own
    · exact Or.inr (Or.inl (le.trans lower))
    · exact Or.inr (Or.inr (own.mono stays grown))

end Acts

/-! ## Runs -/

variable [DecidableEq α] [DecidableEq σ]

/-- One step keeps the match indices of reigning leaders at committed entries and entries of
their terms. -/
theorem OwnMatches.step {action : Action n α σ} (matches' : c.OwnMatches h)
    (refines : c.Refines h) (routed : c.Routed) (routed' : c'.Routed) (ballots' : c'.Ballots)
    (kept : c.Meets keepsOwnTerm action) (next : c.step action = some c') :
    ∃ h', c'.Refines h' ∧ c'.OwnMatches h' := by
  rcases step_cases next with
    ⟨src, dst, request, server, reply, sent, event, handled, rfl⟩ |
    ⟨i, input, server, output, prompted, event, stepped, rfl⟩
  · have kept' := kept.of_event event
    have logs : c.keepsLogs dst (.request request) = true := (Bool.and_eq_true _ _ ▸ kept' :).1
    obtain ⟨h', steps, still, refines'⟩ := refines.answered sent handled logs ballots'
    simp only [keepsLogs, Bool.and_eq_true] at logs
    exact ⟨h', refines', matches'.answered refines steps still sent handled logs.1.2⟩
  · have kept' := kept.of_event event
    have logs : c.keepsLogs i input = true := (Bool.and_eq_true _ _ ▸ kept' :).1
    obtain ⟨h', steps, still, _, refines'⟩ :=
      refines.acted routed routed' ballots' prompted logs stepped
    refine ⟨h', refines', ?_⟩
    by_cases replied : ∃ k reply, input = .entryReply k reply
    · obtain ⟨k, reply, equal⟩ := replied
      exact matches'.acted_reply refines steps still kept' stepped equal
    · exact matches'.acted_other refines steps still kept' stepped (routed.placed i) prompted
        refines' fun k reply equal => replied ⟨k, reply, equal⟩

end Cluster

end Mit6824
