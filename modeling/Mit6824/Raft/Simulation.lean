import Mit6824.Raft.Refinement
import Mit6824.Raft.Terms

/-!
# The cluster plays the protocol

Under `Cluster.keepsLogs` each step of the cluster is matched by steps of the
protocol (`Refines.step`), so that a history goes with every run (`refined`). The
condition leaves out the steps with which the code departs from the protocol: a
second vote in one term, a message or a command of a server that has not won the
term it speaks for, a message that leaves entries behind one it has replaced, a
snapshot that is installed ahead of its term, and a crash that takes something back.
-/

namespace Mit6824

open Consensus

variable {n : Nat} {α σ : Type}

/-! ## The condition -/

/-- The message ends the log, or cuts off what is beyond it, or changes no entry of the log. -/
def Raft.replacesTail (rf : Raft α σ) (args : AppendEntryArgs α) : Bool :=
  decide (rf.getLastLogIndex ≤ args.prevLogIndex + args.entries.length) ||
    decide (args.prevLogIndex + args.entries.length + 1 < rf.getLastLogIndex ∧
      rf.lastTerm < lastTermOf CommandTerm.term args.entries) ||
    (List.range args.entries.length).all fun k =>
      match rf.entryAt (args.prevLogIndex + 1 + k), args.entries[k]? with
      | some old, some new => old.term == new.term
      | _, _ => true

/-- The tests `AppendEntry` makes before it follows a message. -/
def Raft.accepts (rf : Raft α σ) (args : AppendEntryArgs α) : Bool :=
  decide (rf.currentTerm ≤ args.term) && decide (rf.commitIndex ≤ args.prevLogIndex) &&
    decide (args.prevLogIndex ≤ rf.getLastLogIndex) &&
    (rf.slot (rf.getTrueIndex args.prevLogIndex)).any fun entry => entry.term == args.prevLogTerm

theorem Raft.Stands.accepts {rf : Raft α σ} {l : List (CommandTerm α)} (stands : rf.Stands l)
    {args : AppendEntryArgs α} {p : Nat} (current : rf.currentTerm ≤ args.term)
    (prev : args.prevLogIndex = p) (committed : rf.commitIndex ≤ p) (bound : p ≤ l.length)
    (sameTerm : termAt l p = args.prevLogTerm) : rf.accepts args = true := by
  obtain ⟨entry, slot, entryTerm, _⟩ := stands.holds.slot_at (stands.base.trans committed) bound
  have last := stands.holds.getLastLogIndex
  simp only [Raft.accepts, prev, slot, entryTerm, sameTerm, Option.any_some, beq_self_eq_true,
    Bool.and_true, Bool.and_eq_true, decide_eq_true_eq]
  exact ⟨⟨current, committed⟩, by omega⟩

namespace Server

/-- A message that is accepted leaves nothing behind a replaced entry, a snapshot is installed in
its own term only, the answer to a snapshot does not take the term back, and a crash loses
nothing. -/
def keepsLog [DecidableEq α] (server : Server n α σ) : Input n α σ → Bool
  | .request (.appendEntry args) => !server.rf.accepts args || server.rf.replacesTail args
  | .request (.installSnapShot args) =>
      !server.rf.installs args || decide (args.term ≤ server.rf.currentTerm)
  | .snapShotReply reply | .retrySnapShotReply _ reply =>
      reply.errCode != 1 || decide (server.rf.currentTerm ≤ reply.term)
  | .restart => server.rf.recovers
  | _ => true

/-- The server speaks as a leader in a term it has won only, and of that term. Where it is about
to send entries, they are not those of its snapshot. -/
def leadsOwnTerm (server : Server n α σ) (won : Int → Bool) : Input n α σ → Bool
  | .distribute =>
      match server.phase with
      | .distributing _ _ (ind :: _) =>
          won server.rf.currentTerm ||
            server.rf.leaderNum != server.rf.me &&
              server.rf.nextIndex[ind.val]?.all (server.rf.lastIndexInSnapshot < ·)
      | _ => true
  | .snapShotReply reply =>
      match server.phase with
      | .snapshotting _ _ _ _ appEn _ =>
          if reply.errCode = 1 then reply.value != server.rf.me
          else
            server.rf.leaderNum != server.rf.me ||
              won server.rf.currentTerm && appEn.term == server.rf.currentTerm
      | _ => true
  | .entryReply k reply =>
      server.senders[k]?.all fun sender =>
        if reply.success then
          server.rf.leaderNum != server.rf.me ||
            won server.rf.currentTerm && (reply.commitIndex != 0 ||
              server.rf.nextIndex[sender.ind.val]?.all fun next =>
                decide (min sender.prevLogIndex server.rf.lastIndexInSnapshot ≤
                  Raft.reachedBy next sender.appEn))
        else
          won server.rf.currentTerm || decide (sender.appEnTerm < reply.term) ||
            server.rf.leaderNum != server.rf.me &&
              (server.rf.backUp sender reply).all (server.rf.lastIndexInSnapshot ≤ ·)
  | .retrySnapShotReply k reply =>
      server.senders[k]?.all fun sender =>
        if reply.errCode = 1 then reply.value != server.rf.me
        else
          server.rf.leaderNum != server.rf.me ||
            won server.rf.currentTerm && sender.snapshot.all fun args =>
              (server.rf.snapShotReply sender.ind args reply).matchIndex[sender.ind.val]?.all
                (server.rf.lastIndexInSnapshot ≤ ·)
  | .startAppend k =>
      server.starts[k]?.all fun (_, curTerm) => won curTerm && curTerm == server.rf.currentTerm
  | _ => true

end Server

namespace Cluster

def keepsLogs [DecidableEq α] (c : Cluster n α σ) (i : Fin n) (input : Input n α σ) : Bool :=
  c.votesOnce i input && (c.servers i).keepsLog input &&
    (c.servers i).leadsOwnTerm (c.hasWon i) input

end Cluster

/-! ## What a server says -/

/-- A request that a server with the state `rf` may send if it has won the terms `won`. -/
def Request.Spoken (won : Int → Bool) (rf : Raft α σ) : Request α σ → Prop
  | .requestVote _ => True
  | .appendEntry args => won args.term = true ∧ args.term = rf.currentTerm ∧
      (args.entries ≠ [] → rf.lastIndexInSnapshot ≤ args.prevLogIndex)
  | .installSnapShot args => won args.term = true

namespace Server

variable {i : Fin n} {server server' : Server n α σ} {input : Input n α σ}
  {output : Output n α σ} {won : Int → Bool}

theorem spawn_spoken {cache : TermCache} {logLen : Int} {ind : Fin n} {appEn : AppendEntryArgs α}
    (spawned : server.spawn cache logLen ind appEn = some (server', output))
    (leads : server.rf.leaderNum = server.rf.me →
      won appEn.term = true ∧ appEn.term = server.rf.currentTerm) {dst : Fin n}
    {request : Request α σ} (sent : (dst, request) ∈ output.sends) :
    request.Spoken won server'.rf := by
  rcases spawn_cases spawned with ⟨_, rfl, rfl⟩ | ⟨appEn', filled, own, rfl, rfl⟩
  · simp at sent
  · obtain ⟨_, rfl⟩ : _ ∧ request = .appendEntry appEn' := by simpa using sent
    obtain ⟨_, term, _, above, _⟩ := Raft.fillEntry_cuts filled
    obtain ⟨won', current⟩ := leads own
    exact ⟨term ▸ won', term.trans current, above⟩

theorem snapShotReply_leads {ind : Nat} {args : InstallSnapShotArgs σ}
    {reply : InstallSnapShotReply} (silent : reply.errCode = 1 → reply.value ≠ server.rf.me)
    (leads : (server.rf.snapShotReply ind args reply).leaderNum =
      (server.rf.snapShotReply ind args reply).me) :
    reply.errCode ≠ 1 ∧ server.rf.leaderNum = server.rf.me ∧
      (server.rf.snapShotReply ind args reply).currentTerm = server.rf.currentTerm ∧
      (server.rf.snapShotReply ind args reply).lastIndexInSnapshot =
        server.rf.lastIndexInSnapshot := by
  rcases server.rf.snapShotReply_cases ind args reply with ⟨stale, frame⟩ | ⟨other, _, _, frame⟩
  · rw [frame] at leads
    exact absurd leads (silent stale)
  · rw [frame] at leads ⊢
    exact ⟨other, leads, rfl, rfl⟩

theorem entryReply_spoken {k : Nat} {reply : AppendEntryReply} {sender : Sender n α σ}
    {rf : Raft α σ} {next : Next α} (placed : server.Placed i)
    (found : server.senders[k]? = some sender)
    (handled : server.rf.onReply sender reply = some (rf, next))
    (proceeds : { server with rf := rf }.proceed k sender next = (server', output))
    (leads : server.leadsOwnTerm won (.entryReply k reply) = true) {dst : Fin n}
    {request : Request α σ} (sent : (dst, request) ∈ output.sends) :
    request.Spoken won server'.rf := by
  simp only [leadsOwnTerm, found, Option.all_some] at leads
  obtain ⟨leaderNum, commitIndex, nextIndex, matchIndex, waiting, messages, role, rfl⟩ :=
    Raft.onReply_frame handled
  -- A goroutine never makes its server the leader.
  have stays : leaderNum = server.rf.me → server.rf.leaderNum = server.rf.me := by
    intro own
    rcases role with same | gone
    · exact same ▸ own
    · rw [gone, placed.me] at own
      omega
  rcases proceed_cases proceeds with
    ⟨_, rfl, rfl⟩ | ⟨appEn, _, rfl, own, rfl, rfl⟩ | ⟨rfl, rfl, rfl⟩
  · simp at sent
  · obtain ⟨_, rfl⟩ : _ ∧ request = .appendEntry appEn := by simpa using sent
    obtain ⟨_, term, _, above, _⟩ := Raft.onReply_cuts handled
    rw [stays own, bne_self_eq_false, Bool.false_or, Bool.false_and, Bool.or_false] at leads
    rcases Raft.onReply_goesOn handled (by simp) with ⟨success, _⟩ | ⟨rejected, notLater, _⟩
    · rw [if_pos success, Bool.and_eq_true] at leads
      obtain ⟨won', start⟩ := leads
      refine ⟨by rwa [term], term, fun nonempty => ?_⟩
      rcases above nonempty with above | ⟨_, zero, short, next, foundNext, reached⟩
      · exact above
      · simp only [zero, bne_self_eq_false, foundNext, Option.all_some, Bool.false_or,
          decide_eq_true_eq] at start
        dsimp only
        omega
    · rw [if_neg (by simp [rejected]), decide_eq_false (not_lt.2 notLater),
        Bool.or_false] at leads
      refine ⟨by rwa [term], term, fun nonempty => ?_⟩
      rcases above nonempty with above | ⟨success, _⟩
      · exact above
      · simp [rejected] at success
  · obtain ⟨_, rfl⟩ : _ ∧ request = .installSnapShot _ := by simpa using sent
    rcases Raft.onReply_goesOn handled (by simp) with
      ⟨_, other⟩ | ⟨rejected, notLater, prevlog, foundPrev, below⟩
    · exact absurd rfl other
    · have own : won server.rf.currentTerm = true := by
        simpa [rejected, not_lt.2 notLater, foundPrev, not_le.2 (below rfl)] using leads
      exact own

/-- What a server says is of a term it has won, if its step is one of `leadsOwnTerm`. -/
theorem Moves.spoken (moves : Moves i server input server' output) (placed : server.Placed i)
    (leads : server.leadsOwnTerm won input = true) {dst : Fin n} {request : Request α σ}
    (sent : (dst, request) ∈ output.sends) : request.Spoken won server'.rf := by
  cases moves with
  | startRound _ _ =>
      obtain ⟨_, _, _, rfl⟩ : ∃ peer ∈ others i, peer = dst ∧
          Request.requestVote server.rf.voteRequest = request := by simpa using sent
      exact trivial
  | snapshot phase entry behind =>
      obtain ⟨_, rfl⟩ : _ ∧ request = .installSnapShot _ := by simpa using sent
      obtain ⟨next, found, rfl⟩ := Raft.newEntry_eq entry
      have notAbove : ¬server.rf.lastIndexInSnapshot < next := by
        dsimp only at behind
        omega
      have own : won server.rf.currentTerm = true := by
        simpa [leadsOwnTerm, phase, found, notAbove] using leads
      exact own
  | distribute phase entry spawned =>
      obtain ⟨next, found, rfl⟩ := Raft.newEntry_eq entry
      refine spawn_spoken spawned ?_ sent
      intro own
      have own' : server.rf.leaderNum = server.rf.me := own
      simp only [leadsOwnTerm, phase, own', bne_self_eq_false, Bool.false_and,
        Bool.or_false] at leads
      exact ⟨leads, rfl⟩
  | @snapShotReply _ _ _ _ appEn _ reply _ _ phase spawned =>
      refine spawn_spoken spawned ?_ sent
      intro own
      simp only [leadsOwnTerm, phase] at leads
      obtain ⟨other, own', current, _⟩ := snapShotReply_leads
        (fun stale => by simpa [stale] using leads) own
      rw [if_neg other, own', bne_self_eq_false, Bool.false_or, Bool.and_eq_true,
        beq_iff_eq] at leads
      obtain ⟨won', sameTerm⟩ := leads
      exact ⟨by rwa [sameTerm], sameTerm.trans current.symm⟩
  | @entryReply k reply sender rf next _ _ found waits handled proceeds =>
      exact entryReply_spoken placed found handled proceeds leads sent
  | @retrySnapShotReply k reply sender args next _ _ found waits handled proceeds =>
      simp only [leadsOwnTerm, found, Option.all_some, waits] at leads
      rcases proceed_cases proceeds with
        ⟨_, rfl, rfl⟩ | ⟨appEn, _, rfl, own, rfl, rfl⟩ | ⟨rfl, rfl, rfl⟩
      · simp at sent
      · obtain ⟨_, rfl⟩ : _ ∧ request = .appendEntry appEn := by simpa using sent
        obtain ⟨_, term, _, matched, _⟩ := Raft.afterSnapShot_cuts handled
        obtain ⟨other, own', current, base⟩ := snapShotReply_leads
          (fun stale => by simpa [stale] using leads) own
        rw [if_neg other, own', bne_self_eq_false, Bool.false_or, Bool.and_eq_true, matched,
          Option.all_some, decide_eq_true_eq] at leads
        obtain ⟨won', above⟩ := leads
        refine ⟨?_, term, fun _ => ?_⟩
        · rwa [term, current]
        · dsimp only
          rwa [base]
      · exact absurd handled Raft.afterSnapShot_ne_snapshot
  | _ => cases sent

end Server

/-! ## What a server does to its own log -/

theorem Raft.Stands.sameLog {rf rf' : Raft α σ} {l : List (CommandTerm α)} (stands : rf.Stands l)
    (same : rf.SameLog rf') : rf'.Stands l :=
  stands.congr same.base same.lastTerm same.log same.snapshot same.commit.ge
    (same.commit ▸ stands.commit)

namespace Server

variable {i : Fin n} {server server' : Server n α σ} {input : Input n α σ}
  {output : Output n α σ} {l : List (CommandTerm α)}

theorem recovers_of_keepsLog [DecidableEq α] (kept : server.keepsLog input = true)
    (crashed : input = .restart) : server.rf.recovers = true := by
  subst crashed
  exact kept

theorem ordersTerms_of_keepsLog [DecidableEq α] (kept : server.keepsLog input = true) :
    server.ordersTerms input = true := by
  cases input with
  | snapShotReply reply | retrySnapShotReply k reply => exact kept
  | restart =>
      simp only [keepsLog, Raft.recovers, Raft.make_eq, Bool.and_eq_true] at kept
      exact kept.1.1.1
  | _ => rfl

/-- A step that handles no request and appends no command leaves the whole log as it is. -/
theorem LogMoves.stands [DecidableEq α] {rf' : Raft α σ} (moves : LogMoves i server input rf')
    (stands : server.rf.Stands l) (placed : server.Placed i)
    (recovers : input = .restart → server.rf.recovers = true)
    (own : ∀ request, input ≠ .request request) (idle : ∀ k, input ≠ .startAppend k) :
    rf'.Stands l := by
  cases moves with
  | same same => exact stands.sameLog same
  | appendEntry _ | installSnapShot _ _ _ => exact absurd rfl (own _)
  | entryReply handled =>
      obtain ⟨_, k', _, _, _, lower, upper, _, rfl⟩ :=
        stands.window.onReply (Int.toNat_of_nonneg stands.commit_nonneg).symm handled
      refine stands.congr rfl rfl rfl rfl ?_ ?_
      · dsimp only
        omega
      · dsimp only
        omega
  | startAppend _ => exact absurd rfl (idle _)
  | takeSnapshots delivered taken => exact stands.takeSnapshots delivered taken
  | restart =>
      have stands' := (stands.make (recovers rfl)).1
      rwa [placed.peers, placed.me] at stands'

/-- A step that handles no request leaves the whole log as it is, or appends the command of a
`Start`; under the condition the term never goes back. -/
theorem Moves.wholeLog [DecidableEq α] (moves : Moves i server input server' output)
    (stands : server.rf.Stands l) (placed : server.Placed i)
    (recovers : input = .restart → server.rf.recovers = true)
    (own : ∀ request, input ≠ .request request) :
    (server.keepsLog input = true → server.rf.currentTerm ≤ server'.rf.currentTerm) ∧
        server'.rf.Stands l ∧ (∀ k, input ≠ .startAppend k) ∨
      ∃ k command curTerm, input = .startAppend k ∧
        server.starts[k]? = some (command, curTerm) ∧
        server'.rf.currentTerm = server.rf.currentTerm ∧
        server'.rf.Stands (l ++ [⟨some command, curTerm⟩]) := by
  by_cases starts : ∃ k, input = .startAppend k
  · obtain ⟨k, rfl⟩ := starts
    cases moves with
    | startAppend found appended =>
        refine Or.inr ⟨_, _, _, rfl, found, ?_, stands.startAppend appended⟩
        obtain ⟨_, rfl⟩ := Raft.startAppend_frame appended
        rfl
  · have idle : ∀ k, input ≠ .startAppend k := fun k starting => starts ⟨k, starting⟩
    refine Or.inl ⟨fun kept => ?_, moves.log.stands stands placed recovers own idle, idle⟩
    exact moves.currentTerm_le (ordersTerms_of_keepsLog kept)

end Server

/-! ## Steps -/

namespace Cluster

variable {c : Cluster n α σ} {h h' : ClusterHistory n α} {i : Fin n} {input : Input n α σ}
  {server : Server n α σ} {output : Output n α σ}

theorem hasWon_iff {t : Int} :
    c.hasWon i t = true ↔ ∃ round, (i, round) ∈ c.won ∧ round.args.term = t := by
  simp only [hasWon, List.any_eq_true, Bool.and_eq_true, beq_iff_eq, Prod.exists]
  constructor
  · rintro ⟨winner, round, member, rfl, term⟩
    exact ⟨round, member, term⟩
  · rintro ⟨round, member, term⟩
    exact ⟨i, round, member, rfl, term⟩

/-- Who has won the term it is in leads it, with its own log. -/
theorem Refines.leads (refines : c.Refines h) (steps : ProtocolSteps n h h') {t : Int}
    (won : c.hasWon i t = true) (present : h'.term i = t) :
    h'.leader t = some i ∧ h'.log i = h'.ledger t := by
  obtain ⟨inv', ext⟩ := History.Steps.inv_extends refines.inv steps
  obtain ⟨round, member, rfl⟩ := hasWon_iff.1 won
  obtain ⟨reached, leads⟩ := refines.won member
  have same : round.args.term = h.term i := le_antisymm reached (present ▸ ext.term i)
  have leads' : h'.leader round.args.term = some i := by
    rw [same]
    exact ext.leader (leads same)
  exact ⟨leads', (inv'.leaders leads').log present⟩

/-- What a step sends is backed by the history after it. -/
theorem Refines.sends (refines : c.Refines h) (steps : ProtocolSteps n h h')
    (stepped : (c.servers i).step i input = some (server, output))
    (placed : (c.servers i).Placed i)
    (leads : (c.servers i).leadsOwnTerm (c.hasWon i) input = true)
    (term : server.rf.currentTerm = h'.term i) (stands : server.rf.Stands (h'.log i))
    {dst : Fin n} {request : Request α σ} (sent : (dst, request) ∈ output.sends) :
    request.Backed h' i := by
  have moves := Server.step_moves stepped
  have drafts := moves.sends sent
  have own := moves.spoken placed leads sent
  cases request with
  | requestVote args =>
      obtain ⟨rfl, rfl⟩ := drafts
      cases moves with
      | startRound _ _ =>
          refine ⟨term.le, fun _ => Or.inr ⟨?_, ?_⟩⟩
          · exact stands.holds.getLastLogIndex
          · exact stands.holds.lastTerm
  | appendEntry args =>
      obtain ⟨won, current, above⟩ := own
      obtain ⟨leader, log⟩ := refines.leads steps won (current.trans term).symm
      exact Raft.Cuts.backed drafts.1 (log ▸ stands.holds) leader above
  | installSnapShot args =>
      obtain rfl : args = server.rf.snapShotArgs := drafts
      have won : c.hasWon i server.rf.currentTerm = true := own
      obtain ⟨leader, log⟩ := refines.leads steps won term.symm
      exact Raft.Stands.snapShotArgs_backed (log ▸ stands) leader

/-- A step of a server that handles no request. -/
theorem Refines.acted_of (refines : c.Refines h) (steps : ProtocolSteps n h h')
    (stepped : (c.servers i).step i input = some (server, output))
    (placed : (c.servers i).Placed i)
    (leads : (c.servers i).leadsOwnTerm (c.hasWon i) input = true)
    (still : Concerns i h h')
    (term : server.rf.currentTerm = h'.term i) (stands : server.rf.Stands (h'.log i))
    (votes : ∀ {v t d}, (v, t, d) ∈ c.supported ++ c.candidacy i input ↔
      ∃ l, h'.vote v t = some (d, l))
    (won : ∀ {round}, output.won = some round → round.args.term ≤ h'.term i ∧
      (round.args.term = h'.term i → h'.leader (h'.term i) = some i)) :
    (c.acted i input server output).Refines h' := by
  refine refines.update steps still rfl term stands votes ?_ ?_ ?_ ?_
  · intro round phase
    rcases (Server.step_moves stepped).candidate phase with
      same | ⟨_, rfl, _⟩ | ⟨round₀, _, _, _, before, _, rfl⟩
    · exact refines.rounds same
    · exact (refines.term i).le
    · have reached := refines.rounds before
      exact reached
  · intro j round member
    rcases mem_won_acted.1 member with old | ⟨rfl, won'⟩
    · exact Or.inl old
    · exact Or.inr ⟨rfl, won won'⟩
  · intro src dst request member
    rcases request_mem_acted.1 member with old | ⟨rfl, sent⟩
    · exact Or.inl old
    · exact Or.inr (refines.sends steps stepped placed leads term stands sent)
  · intro src dst request reply member
    exact Or.inl (reply_mem_acted.1 member)

/-- A vote is a step of the protocol, or was given before. -/
theorem Refines.vote (refines : c.Refines h) {v d : Fin n} {t : Int}
    (once : ∀ {e}, (v, t, e) ∈ c.supported → e = d) (later : h.term v ≤ t)
    (asked : t ≤ h.term d) (uptodate : t < h.term d ∨ h.leader t ≠ none ∨
      UpToDate CommandTerm.term (h.log d) (h.log v)) :
    ∃ h', ProtocolSteps n h h' ∧ h'.term = Function.update h.term v t ∧ h'.log = h.log ∧
      ∀ {w s e}, (w, s, e) ∈ c.supported ++ [(v, t, d)] ↔ ∃ l, h'.vote w s = some (e, l) := by
  cases voted : h.vote v t with
  | none =>
      refine ⟨h.support v t d, .single (.support voted later asked uptodate), rfl, rfl, ?_⟩
      intro w s e
      by_cases same : w = v ∧ s = t
      · obtain ⟨rfl, rfl⟩ := same
        have record : (h.support w s d).vote w s = some (d, h.log w) := by
          simp [History.support]
        rw [record]
        constructor
        · intro member
          rcases List.mem_append.1 member with old | new
          · exact ⟨_, by rw [once old]⟩
          · obtain rfl : e = d := by simpa using new
            exact ⟨_, rfl⟩
        · rintro ⟨l, equal⟩
          obtain ⟨rfl, _⟩ : d = e ∧ _ := by simpa using equal
          simp
      · have unchanged : (h.support v t d).vote w s = h.vote w s := by
          by_cases node : w = v
          · subst node
            have other : s ≠ t := fun equal => same ⟨rfl, equal⟩
            simp [History.support, other]
          · simp [History.support, node]
        rw [unchanged, ← refines.votes]
        simp only [List.mem_append, List.mem_singleton, Prod.mk.injEq, or_iff_left_iff_imp]
        rintro ⟨rfl, rfl, _⟩
        exact absurd ⟨rfl, rfl⟩ same
  | some ballot =>
      obtain ⟨e₀, l₀⟩ := ballot
      have before : (v, t, e₀) ∈ c.supported := refines.votes.2 ⟨l₀, voted⟩
      obtain rfl := once before
      refine ⟨h.advance v t, .single (.advance later), rfl, rfl, ?_⟩
      intro w s e
      have unchanged : (h.advance v t).vote = h.vote := rfl
      rw [unchanged, ← refines.votes]
      simp only [List.mem_append, List.mem_singleton, Prod.mk.injEq, or_iff_left_iff_imp]
      rintro ⟨rfl, rfl, rfl⟩
      exact before

/-- A round that is won elects the server, unless its term has moved on. -/
theorem Refines.victory (refines : c.Refines h) {round : Round n} {supporters : Finset (Fin n)}
    (enough : n < 2 * supporters.card)
    (supported : ∀ v ∈ supporters, (v, round.args.term, i) ∈ c.supported) :
    ∃ h', ProtocolSteps n h h' ∧ h'.term = h.term ∧ h'.log = h.log ∧ h'.vote = h.vote ∧
      (round.args.term = h.term i → h'.leader (h.term i) = some i) := by
  by_cases present : round.args.term = h.term i
  · have isQuorum : Majority n ↑supporters := ⟨supporters, enough, rfl⟩
    have votes : ∀ v ∈ (↑supporters : Set (Fin n)), ∃ l, h.vote v (h.term i) = some (i, l) := by
      intro v member
      rw [← present]
      exact refines.votes.1 (supported v member)
    cases leads : h.leader (h.term i) with
    | none =>
        refine ⟨h.elect i, .single (.elect isQuorum votes leads (refines.nonneg i)),
          rfl, rfl, rfl, fun _ => ?_⟩
        simp [History.elect]
    | some d =>
        obtain rfl := refines.inv.leader_unique Majority.meet leads isQuorum votes
        exact ⟨h, .refl, rfl, rfl, rfl, fun _ => leads⟩
  · exact ⟨h, .refl, rfl, rfl, rfl, fun same => absurd same present⟩

/-! ## Handlers -/

/-- A handler of `dst`. -/
theorem Refines.answered_of (refines : c.Refines h) (steps : ProtocolSteps n h h')
    {src dst : Fin n} {request : Request α σ} {reply : Reply}
    (handled : (c.servers dst).handle request = some (server, { reply := some reply }))
    (still : Concerns dst h h')
    (term : server.rf.currentTerm = h'.term dst) (stands : server.rf.Stands (h'.log dst))
    (votes : ∀ {v t d}, (v, t, d) ∈ c.supported ++ ballot src dst request reply ↔
      ∃ l, h'.vote v t = some (d, l))
    (backed : reply.Backed h' dst request) :
    (c.answered src dst request server reply).Refines h' := by
  have moves : Server.Moves dst (c.servers dst) (.request request) server _ :=
    Server.step_moves handled
  refine refines.update steps still rfl term stands votes ?_ ?_ ?_ ?_
  · intro round phase
    rcases moves.candidate phase with same | ⟨other, _⟩ | ⟨_, _, _, other, _⟩
    · exact refines.rounds same
    · cases other
    · cases other
  · exact fun member => Or.inl member
  · intro s d r member
    exact Or.inl (request_mem_answered.1 member)
  · intro s d r rep member
    rcases reply_mem_answered.1 member with old | ⟨rfl, rfl, rfl, rfl⟩
    · exact Or.inl old
    · exact Or.inr backed

/-- A handler that only moves its server to a later term. -/
theorem Refines.answered_advance (refines : c.Refines h) {src dst : Fin n}
    {request : Request α σ} {reply : Reply}
    (handled : (c.servers dst).handle request = some (server, { reply := some reply }))
    (later : (c.servers dst).rf.currentTerm ≤ server.rf.currentTerm)
    (stands : server.rf.Stands (h.log dst)) (nobody : ballot src dst request reply = [])
    (backed : reply.Backed (h.advance dst server.rf.currentTerm) dst request) :
    ∃ h', ProtocolSteps n h h' ∧ Concerns dst h h' ∧ h'.log dst = h.log dst ∧
      (c.answered src dst request server reply).Refines h' := by
  have term : (c.servers dst).rf.currentTerm = h.term dst := refines.term dst
  have steps : ProtocolSteps n h (h.advance dst server.rf.currentTerm) :=
    .single (.advance (term ▸ later))
  have still : Concerns dst h (h.advance dst server.rf.currentTerm) := by
    intro j other
    simp [History.advance, other]
  refine ⟨_, steps, still, rfl, refines.answered_of steps handled still ?_ stands ?_ backed⟩
  · simp [History.advance]
  · intro v t d
    rw [nobody, List.append_nil]
    exact refines.votes

theorem Refines.requestVote (refines : c.Refines h) {src dst : Fin n}
    {args : RequestVoteArgs} {reply : Reply}
    (sent : .request src dst (.requestVote args) ∈ c.net)
    (handled : (c.servers dst).handle (.requestVote args) =
      some (server, { reply := some reply }))
    (ballots' : (c.answered src dst (.requestVote args) server reply).Ballots) :
    ∃ h', ProtocolSteps n h h' ∧ Concerns dst h h' ∧ h'.log dst = h.log dst ∧
      (c.answered src dst (.requestVote args) server reply).Refines h' := by
  obtain ⟨⟨rf, answer⟩, voted, equal⟩ := Option.map_eq_some_iff.1 handled
  cases equal
  have stands : rf.Stands (h.log dst) := (refines.stands dst).requestVote voted
  have term : (c.servers dst).rf.currentTerm = h.term dst := refines.term dst
  -- A vote for a candidate whose log is up to date.
  have grant : rf.currentTerm = args.term → h.term dst ≤ args.term →
      answer.voteGranted = true →
      (args.lastLogIndex = (h.log src).length →
        args.lastLogTerm = lastTermOf CommandTerm.term (h.log src) →
        UpToDate CommandTerm.term (h.log src) (h.log dst)) →
      ∃ h', ProtocolSteps n h h' ∧ Concerns dst h h' ∧ h'.log dst = h.log dst ∧
        (c.answered src dst (.requestVote args) { (c.servers dst) with rf := rf }
          (.requestVote answer)).Refines h' := by
    intro term' later granted compare
    have cast : ballot src dst (.requestVote args : Request α σ) (.requestVote answer) =
        [(dst, args.term, src)] := by simp [ballot, granted]
    have once : ∀ {e}, (dst, args.term, e) ∈ c.supported → e = src := by
      intro e member
      refine ballots'.once (List.mem_append_left _ member) (List.mem_append_right _ ?_)
      simp [cast]
    obtain ⟨asked, log⟩ := refines.requests sent
    have uptodate : args.term < h.term src ∨ h.leader args.term ≠ none ∨
        UpToDate CommandTerm.term (h.log src) (h.log dst) := by
      rcases asked.lt_or_eq with before | present
      · exact Or.inl before
      · rcases log present with led | ⟨index, lastTerm⟩
        · exact Or.inr (Or.inl led)
        · exact Or.inr (Or.inr (compare index lastTerm))
    obtain ⟨h', steps, terms, logs, votes⟩ := refines.vote once later asked uptodate
    have still : Concerns dst h h' := by
      intro j other
      simp [terms, logs, other]
    refine ⟨h', steps, still, by rw [logs],
      refines.answered_of steps handled still ?_ ?_ ?_ trivial⟩
    · simp [terms, term']
    · rwa [logs]
    · intro v t d
      rw [cast]
      exact votes
  have holds := (refines.stands dst).holds
  rcases Raft.requestVote_cases voted with
    ⟨rfl, denied⟩ | ⟨later, _, rfl, denied⟩ | ⟨later, notBehind, granted, _, rfl⟩ |
      ⟨sameTerm, _, newer, granted, _, rfl⟩
  · exact refines.answered_advance handled le_rfl stands (by simp [ballot, denied]) trivial
  · exact refines.answered_advance handled later.le stands (by simp [ballot, denied]) trivial
  · refine grant rfl (term ▸ later.le) granted fun index lastTerm => ?_
    have notBehind' : ¬(c.rf dst).Behind args := notBehind
    simp only [Raft.Behind, holds.lastTerm, holds.getLastLogIndex, index, lastTerm, not_or,
      not_lt, not_and] at notBehind'
    obtain ⟨notOlder, notShorter⟩ := notBehind'
    rcases notOlder.lt_or_eq with before | same
    · exact Or.inl before
    · exact Or.inr ⟨same.symm, by exact_mod_cast notShorter same.symm⟩
  · refine grant sameTerm (term ▸ sameTerm.le) granted fun _ lastTerm => Or.inl ?_
    rw [← lastTerm, ← holds.lastTerm]
    exact newer

/-- `replacesTail` on the whole log, for the piece of another log from `p` to `q`. -/
theorem replacesTail_cases {rf : Raft α σ} {l ledger : List (CommandTerm α)} {p q : Nat}
    {args : AppendEntryArgs α} (holds : rf.Holds l) (base : rf.lastIndexInSnapshot ≤ p)
    (prev : args.prevLogIndex = p) (le : p < q) (bound : q ≤ ledger.length)
    (piece : args.entries = (ledger.take q).drop p) (clean : rf.replacesTail args = true) :
    l.length ≤ q ∨ q + 1 < l.length ∧ lastTermOf CommandTerm.term l < termAt ledger q ∨
      ∀ {k e e'}, p ≤ k → k < q → l[k]? = some e → ledger[k]? = some e' → e.term = e'.term := by
  have ends : args.prevLogIndex + args.entries.length = (q : Int) := by
    rw [prev, piece, List.length_drop, List.length_take]
    omega
  have lastTerm : lastTermOf CommandTerm.term args.entries = termAt ledger q := by
    rw [piece, lastTermOf, List.getLast?_drop, if_neg (by simp; omega), termAt, lastTermOf]
  simp only [Raft.replacesTail, ends, lastTerm, holds.getLastLogIndex, holds.lastTerm,
    Bool.or_eq_true, decide_eq_true_eq, List.all_eq_true, List.mem_range] at clean
  rcases clean with (short | ⟨longer, earlier⟩) | agree
  · exact Or.inl (by omega)
  · exact Or.inr (Or.inl ⟨by omega, earlier⟩)
  · refine Or.inr (Or.inr ?_)
    intro k e e' lower upper found found'
    have size : k - p < args.entries.length := by omega
    have position : args.prevLogIndex + 1 + ((k - p : Nat) : Int) = ((k + 1 : Nat) : Int) := by
      omega
    have old : rf.entryAt (args.prevLogIndex + 1 + ((k - p : Nat) : Int)) = some e := by
      rw [position, holds.entryAt (by omega), Nat.add_sub_cancel, found]
    have new : args.entries[k - p]? = some e' := by
      rw [piece, List.getElem?_drop, show p + (k - p) = k by omega, List.getElem?_take,
        if_pos upper, found']
    have same := agree _ size
    rw [old, new] at same
    simpa using same

theorem Refines.appendEntry [DecidableEq α] (refines : c.Refines h) {src dst : Fin n}
    {args : AppendEntryArgs α} {reply : Reply}
    (sent : .request src dst (.appendEntry args) ∈ c.net)
    (handled : (c.servers dst).handle (.appendEntry args) =
      some (server, { reply := some reply }))
    (kept : (c.servers dst).keepsLog (.request (.appendEntry args)) = true) :
    ∃ h', ProtocolSteps n h h' ∧ Concerns dst h h' ∧
      (h'.log dst).take server.rf.commitIndex.toNat =
        (h.log dst).take server.rf.commitIndex.toNat ∧
      (c.answered src dst (.appendEntry args) server reply).Refines h' := by
  obtain ⟨⟨rf, answer⟩, appended, equal⟩ := Option.map_eq_some_iff.1 handled
  cases equal
  have stands := refines.stands dst
  have holds := stands.holds
  have base := stands.base
  have term : (c.servers dst).rf.currentTerm = h.term dst := refines.term dst
  obtain ⟨leads, b, _, _, prevTerm, piece⟩ := refines.requests sent
  have led : h.leader args.term ≠ none := by simp [leads]
  -- The message only moves the server to its term.
  have unchanged : (c.servers dst).rf.currentTerm ≤ rf.currentTerm → rf.Stands (h.log dst) →
      (answer.success = true → answer.commitIndex = 0 → args.entries = []) →
      ∃ h', ProtocolSteps n h h' ∧ Concerns dst h h' ∧
        (h'.log dst).take rf.commitIndex.toNat = (h.log dst).take rf.commitIndex.toNat ∧
        (c.answered src dst (.appendEntry args) { (c.servers dst) with rf := rf }
          (.appendEntry answer)).Refines h' := by
    intro later stands' nothing
    obtain ⟨h', steps, still, same, refines'⟩ := refines.answered_advance handled later stands' rfl
      fun success zero nonempty => absurd (nothing success zero) nonempty
    exact ⟨h', steps, still, by rw [same], refines'⟩
  rcases stands.appendEntry appended with ⟨_, rfl, denied⟩ | ⟨current, term', outcome⟩
  · exact unchanged le_rfl stands fun success => by simp [denied] at success
  have later : (c.servers dst).rf.currentTerm ≤ rf.currentTerm := by
    rw [term']
    exact current
  rcases outcome with ⟨stands', _, _, answer'⟩ |
    ⟨p, k', prev, committed, bound, sameTerm, success, zero, reach, commit, _, stands'⟩
  · refine unchanged later stands' fun success zero => ?_
    rcases answer' with denied | ⟨_, ahead, told⟩
    · simp [denied] at success
    · by_contra nonempty
      have start := (piece nonempty).1
      omega
  by_cases heartbeat : args.entries = []
  · rw [if_pos heartbeat] at stands'
    exact unchanged later stands' fun _ _ => heartbeat
  -- The entries of the message are a piece of the ledger of its term.
  rw [if_neg heartbeat] at stands'
  obtain ⟨start, entries⟩ := piece heartbeat
  obtain rfl : b = p := by omega
  set q := b + args.entries.length with q_def
  have longer : 0 < args.entries.length := List.length_pos_iff.2 heartbeat
  have bound' : q ≤ (h.ledger args.term).length := by
    have := entries.length_le
    rw [List.length_drop] at this
    omega
  have cut : args.entries = ((h.ledger args.term).take q).drop b := by
    rw [List.drop_take, q_def, Nat.add_sub_cancel_left]
    exact (List.prefix_iff_eq_take.1 entries)
  have matching : Matching (h.log dst) (h.ledger args.term) := fun _ _ _ found found' same =>
    (refines.inv.grounded dst).matching (refines.inv.ledgerGrounded led) found found' same
  have front := matching.take_eq bound (by omega) (sameTerm.trans prevTerm)
  have accepts : (c.servers dst).rf.accepts args = true :=
    (refines.stands dst).accepts current prev committed bound sameTerm
  simp only [Server.keepsLog, accepts, Bool.not_true, Bool.false_or] at kept
  have clean := replacesTail_cases holds (base.trans committed) prev (by omega) bound' cut kept
  have grafted := appended_eq_graft matching (by omega) bound' front
    (fun e member => refines.inv.termOf_le_lastTermOf (refines.inv.grounded dst) member) clean
  have steps : ProtocolSteps n h (h.accept dst args.term q) :=
    .single (.accept led (term ▸ current) bound')
  have still : Concerns dst h (h.accept dst args.term q) := by
    intro j other
    simp [History.accept, other]
  have log : (h.accept dst args.term q).log dst = Mit6824.appended (h.log dst) b args.entries := by
    simp only [History.accept, Function.update_self]
    rw [← grafted, ← cut]
  have agree : ((h.accept dst args.term q).log dst).take rf.commitIndex.toNat =
      (h.log dst).take rf.commitIndex.toNat := by
    rw [log, take_appended_of_le bound]
    omega
  refine ⟨_, steps, still, agree, refines.answered_of steps handled still ?_ ?_ ?_ ?_⟩
  · simp [History.accept, term']
  · rwa [log]
  · intro v t d
    simp only [ballot, List.append_nil]
    exact refines.votes
  · intro _ _ _
    left
    simp only [Prod.mk.injEq, true_and]
    omega

theorem Refines.installSnapShot [DecidableEq α] (refines : c.Refines h) {src dst : Fin n}
    {args : InstallSnapShotArgs σ} {reply : Reply}
    (sent : .request src dst (.installSnapShot args) ∈ c.net)
    (handled : (c.servers dst).handle (.installSnapShot args) =
      some (server, { reply := some reply }))
    (kept : (c.servers dst).keepsLog (.request (.installSnapShot args)) = true) :
    ∃ h', ProtocolSteps n h h' ∧ Concerns dst h h' ∧
      (server.rf = (c.servers dst).rf ∧ h'.log dst = h.log dst ∨
        server.rf.commitIndex = args.lastIncludedIndex ∧
          h'.log dst = (h.ledger args.term).take args.lastIncludedIndex.toNat) ∧
      (c.answered src dst (.installSnapShot args) server reply).Refines h' := by
  obtain ⟨⟨rf, answer⟩, installed, equal⟩ := Option.map_eq_some_iff.1 handled
  cases equal
  have stands := refines.stands dst
  have holds := stands.holds
  have nonneg := holds.nonneg
  have term : (c.servers dst).rf.currentTerm = h.term dst := refines.term dst
  obtain ⟨leads, k, index, bound, lastTerm, label⟩ := refines.requests sent
  have led : h.leader args.term ≠ none := by simp [leads]
  rcases Raft.installSnapShot_cases installed with
    ⟨rfl, _, code, _⟩ | ⟨rfl, _, _, code, _⟩ | ⟨rfl, _, _, _, code, _⟩ |
      ⟨installs, current, _, above, conflict, blob, data, _, rfl⟩
  iterate 3
    obtain ⟨h', steps, still, same, refines'⟩ := refines.answered_advance handled le_rfl stands rfl
      fun zero => by omega
    exact ⟨h', steps, still, Or.inl ⟨rfl, same⟩, refines'⟩
  have sameTerm : (c.servers dst).rf.currentTerm = args.term := by
    simp only [Server.keepsLog, installs, Bool.not_true, Bool.false_or, decide_eq_true_eq] at kept
    exact le_antisymm current kept
  have above' : (c.rf dst).lastIndexInSnapshot < args.lastIncludedIndex := above
  obtain ⟨blob', data', index', lastTerm'⟩ := label (by omega)
  obtain rfl : blob' = blob := Option.some.inj (data'.symm.trans data)
  have lacks : ¬(h.ledger args.term).take k <+: h.log dst := by
    intro has
    have long : k ≤ (h.log dst).length := by
      have := has.length_le
      rwa [List.length_take, min_eq_left bound] at this
    have agree : termAt (h.log dst) k = termAt (h.ledger args.term) k := by
      have := take_eq_of_isPrefix has (by rw [List.length_take, min_eq_left bound] : k ≤ _)
      rw [List.take_take, min_self] at this
      rw [termAt, termAt, this]
    obtain ⟨entry, slot, entryTerm, _⟩ := holds.slot_at (by omega) long
    refine conflict ?_ ?_
    · have last := holds.getLastLogIndex
      change args.lastIncludedIndex ≤ (c.rf dst).getLastLogIndex
      omega
    · change ((c.rf dst).slot ((c.rf dst).getTrueIndex args.lastIncludedIndex)).map _ = _
      rw [index, slot, Option.map_some, entryTerm, agree, lastTerm]
  have steps : ProtocolSteps n h (h.accept dst args.term k) :=
    .single (.accept led (term ▸ sameTerm.le) bound)
  have taken : (h.accept dst args.term k).log dst = (h.ledger args.term).take k := by
    simp [History.accept, graft_of_lacks lacks]
  have still : Concerns dst h (h.accept dst args.term k) := by
    intro j other
    simp [History.accept, other]
  refine ⟨_, steps, still, Or.inr ⟨index', ?_⟩, refines.answered_of steps handled still ?_ ?_ ?_ ?_⟩
  · rw [taken, index, Int.toNat_natCast]
  · simp [History.accept, sameTerm]
  · rw [taken]
    refine Raft.Stands.installed _ ?_ ?_
    · rw [index', index, List.length_take, min_eq_left bound]
    · rw [lastTerm', lastTerm, termAt]
  · intro v t d
    simp only [ballot, List.append_nil]
    exact refines.votes
  · intro _
    left
    simp only [Prod.mk.injEq, true_and]
    omega

theorem Refines.answered [DecidableEq α] (refines : c.Refines h) {src dst : Fin n}
    {request : Request α σ} {reply : Reply} (sent : .request src dst request ∈ c.net)
    (handled : (c.servers dst).handle request = some (server, { reply := some reply }))
    (kept : c.keepsLogs dst (.request request) = true)
    (ballots' : (c.answered src dst request server reply).Ballots) :
    ∃ h', ProtocolSteps n h h' ∧ Concerns dst h h' ∧
      (c.answered src dst request server reply).Refines h' := by
  simp only [keepsLogs, Bool.and_eq_true] at kept
  cases request with
  | requestVote args =>
      obtain ⟨h', steps, still, _, refines'⟩ := refines.requestVote sent handled ballots'
      exact ⟨h', steps, still, refines'⟩
  | appendEntry args =>
      obtain ⟨h', steps, still, _, refines'⟩ := refines.appendEntry sent handled kept.1.2
      exact ⟨h', steps, still, refines'⟩
  | installSnapShot args =>
      obtain ⟨h', steps, still, _, refines'⟩ := refines.installSnapShot sent handled kept.1.2
      exact ⟨h', steps, still, refines'⟩

/-! ## Steps that handle no request -/

section Acts

variable (refines : c.Refines h) (placed : (c.servers i).Placed i)
  (leads : (c.servers i).leadsOwnTerm (c.hasWon i) input = true)
  (stepped : (c.servers i).step i input = some (server, output))
include refines placed leads stepped

/-- A server that starts a round votes for itself. -/
theorem Refines.acted_startRound (ballots' : (c.acted i input server output).Ballots)
    (stood : input = .startRound) (stands : server.rf.Stands (h.log i)) :
    ∃ h', ProtocolSteps n h h' ∧ Concerns i h h' ∧ h.log i <+: h'.log i ∧
      (c.acted i input server output).Refines h' := by
  subst stood
  have moves := Server.step_moves stepped
  have once : ∀ {e}, (i, h.term i, e) ∈ c.supported → e = i := by
    intro e member
    refine ballots'.once (List.mem_append_left _ member) (List.mem_append_right _ ?_)
    simp [candidacy, refines.term i]
  obtain ⟨h', steps, terms, logs, votes⟩ := refines.vote once le_rfl le_rfl
    (Or.inr (Or.inr (UpToDate.refl _)))
  rw [Function.update_eq_self] at terms
  have still : Concerns i h h' := fun j _ => ⟨by rw [terms], by rw [logs]⟩
  cases moves with
  | startRound _ _ =>
      refine ⟨h', steps, still, by rw [logs],
        refines.acted_of steps stepped placed leads still ?_ ?_ ?_ ?_⟩
      · rw [terms]
        exact refines.term i
      · rw [logs]
        exact stands
      · intro v t d
        simpa [candidacy, refines.term i] using votes
      · exact fun won => by simp at won

/-- A step that neither votes nor wins moves its server to another term at most. -/
theorem Refines.acted_advance (nobody : c.candidacy i input = []) (unwon : output.won = none)
    (later : (c.servers i).rf.currentTerm ≤ server.rf.currentTerm)
    (stands : server.rf.Stands (h.log i)) :
    ∃ h', ProtocolSteps n h h' ∧ Concerns i h h' ∧ h.log i <+: h'.log i ∧
      (c.acted i input server output).Refines h' := by
  have term : (c.servers i).rf.currentTerm = h.term i := refines.term i
  have advanced : ProtocolSteps n h (h.advance i server.rf.currentTerm) :=
    .single (.advance (term ▸ later))
  have still : Concerns i h (h.advance i server.rf.currentTerm) := by
    intro j other
    simp [History.advance, other]
  refine ⟨_, advanced, still, List.prefix_rfl,
    refines.acted_of advanced stepped placed leads still ?_ stands ?_ ?_⟩
  · simp [History.advance]
  · intro v t d
    rw [nobody, List.append_nil]
    exact refines.votes
  · simp [unwon]

/-- A round that is won elects its server, unless it was elected before. -/
theorem Refines.acted_victory (routed' : (c.acted i input server output).Routed)
    (ballots' : (c.acted i input server output).Ballots) (nobody : c.candidacy i input = [])
    {round : Round n} (won : output.won = some round) (stands : server.rf.Stands (h.log i)) :
    ∃ h', ProtocolSteps n h h' ∧ Concerns i h h' ∧ h.log i <+: h'.log i ∧
      (c.acted i input server output).Refines h' := by
  have moves := Server.step_moves stepped
  obtain ⟨round₀, peer, reply, rfl, before, _, _, _, rfl⟩ := moves.won won
  have member : (i, round₀.count peer reply) ∈
      (c.acted i (.voteReply peer reply) server output).won := by
    simp [Cluster.acted, won]
  obtain ⟨supporters, enough, supported⟩ := ballots'.supporters routed' member
  have supported' : ∀ v ∈ supporters,
      (v, (round₀.count peer reply).args.term, i) ∈ c.supported := by
    simpa [Cluster.acted, nobody] using supported
  obtain ⟨h', steps, terms, logs, votes, leader⟩ := refines.victory enough supported'
  have sameTerm : server.rf.currentTerm = h.term i := by
    cases moves with
    | victory _ _ _ _ => exact refines.term i
    | outdated _ _ | counted _ _ => cases won
  have still : Concerns i h h' := fun j _ => ⟨by rw [terms], by rw [logs]⟩
  refine ⟨h', steps, still, by rw [logs],
    refines.acted_of steps stepped placed leads still ?_ ?_ ?_ ?_⟩
  · rwa [terms]
  · rwa [logs]
  · intro v t d
    rw [nobody, List.append_nil, votes]
    exact refines.votes
  · intro round won'
    rw [won] at won'
    obtain rfl := Option.some.inj won'
    rw [terms]
    have reached := refines.rounds before
    exact ⟨reached, leader⟩

/-- The command of a `Start` is appended to the log of the leader. -/
theorem Refines.acted_startAppend {k : Nat} {command : α} {curTerm : Int}
    (starts : input = .startAppend k)
    (found : (c.servers i).starts[k]? = some (command, curTerm))
    (same : server.rf.currentTerm = (c.servers i).rf.currentTerm)
    (stands : server.rf.Stands (h.log i ++ [⟨some command, curTerm⟩])) :
    ∃ h', ProtocolSteps n h h' ∧ Concerns i h h' ∧ h.log i <+: h'.log i ∧
      (c.acted i input server output).Refines h' := by
  subst starts
  have speaks := leads
  simp only [Server.leadsOwnTerm, found, Option.all_some, Bool.and_eq_true, beq_iff_eq] at speaks
  obtain ⟨won, current⟩ := speaks
  obtain rfl : curTerm = h.term i := current.trans (refines.term i)
  obtain ⟨leader, _⟩ := refines.leads .refl won rfl
  have steps : ProtocolSteps n h (h.append i ⟨some command, h.term i⟩) :=
    .single (.append leader rfl)
  have still : Concerns i h (h.append i ⟨some command, h.term i⟩) := by
    intro j other
    simp [History.append, other]
  have grown : h.log i <+: (h.append i ⟨some command, h.term i⟩).log i := by
    simp [History.append]
  refine ⟨_, steps, still, grown,
    refines.acted_of steps stepped placed leads still ?_ ?_ ?_ ?_⟩
  · exact same.trans (refines.term i)
  · simpa [History.append] using stands
  · intro v t d
    simp only [candidacy, List.append_nil]
    exact refines.votes
  · intro round won'
    cases Server.step_moves stepped with
    | startAppend _ _ => cases won'

end Acts

/-! ## Runs -/

variable [DecidableEq α] [DecidableEq σ]

theorem Refines.acted (refines : c.Refines h) (routed : c.Routed)
    (routed' : (c.acted i input server output).Routed)
    (ballots' : (c.acted i input server output).Ballots) (prompted : c.Prompted i input)
    (kept : c.keepsLogs i input = true)
    (stepped : (c.servers i).step i input = some (server, output)) :
    ∃ h', ProtocolSteps n h h' ∧ Concerns i h h' ∧ h.log i <+: h'.log i ∧
      (c.acted i input server output).Refines h' := by
  simp only [keepsLogs, Bool.and_eq_true] at kept
  obtain ⟨⟨_, keepsLog⟩, leads⟩ := kept
  have moves := Server.step_moves stepped
  have placed := routed.placed i
  have own : ∀ request, input ≠ .request request := by
    rintro request rfl
    exact prompted
  rcases moves.wholeLog (refines.stands i) placed (Server.recovers_of_keepsLog keepsLog) own with
    ⟨advances, stands, _⟩ | ⟨k, command, curTerm, starts, found, same, stands⟩
  · by_cases stood : input = .startRound
    · exact refines.acted_startRound placed leads stepped ballots' stood stands
    have nobody : c.candidacy i input = [] := by
      cases input with
      | startRound => exact absurd rfl stood
      | _ => rfl
    cases won : output.won with
    | none =>
        exact refines.acted_advance placed leads stepped nobody won (advances keepsLog) stands
    | some round =>
        exact refines.acted_victory placed leads stepped routed' ballots' nobody won stands
  · exact refines.acted_startAppend placed leads stepped starts found same stands

/-- Each step of the cluster is matched by steps of the protocol. -/
theorem Refines.step {c' : Cluster n α σ} {action : Action n α σ} (refines : c.Refines h)
    (routed : c.Routed) (routed' : c'.Routed) (ballots' : c'.Ballots)
    (kept : c.Meets keepsLogs action) (next : c.step action = some c') :
    ∃ h', ProtocolSteps n h h' ∧ c'.Refines h' := by
  rcases step_cases next with
    ⟨src, dst, request, server, reply, sent, event, handled, rfl⟩ |
    ⟨i, input, server, output, prompted, event, stepped, rfl⟩
  · obtain ⟨h', steps, _, refines'⟩ := refines.answered sent handled (kept.of_event event) ballots'
    exact ⟨h', steps, refines'⟩
  · obtain ⟨h', steps, _, _, refines'⟩ :=
      refines.acted routed routed' ballots' prompted (kept.of_event event) stepped
    exact ⟨h', steps, refines'⟩

end Cluster

end Mit6824
