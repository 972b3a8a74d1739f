import Mit6824.Raft.AppendRule
import Mit6824.Raft.LogMatching
import Mit6824.Raft.TermIndex

/-!
# The terms along a log

Every message is a part of the log of its sender, so its terms are in order behind
`PrevLogTerm`. What can put a log out of order is a command that `Start` appends with a term it
read in an earlier critical section, the entries that a message leaves behind its own last one,
and a term that is not the one of the log: the answer to an outdated snapshot, a snapshot that is
installed ahead of the current term, a crash that loses the term, and a message that had to wait
for a snapshot.
-/

namespace Mit6824

open Consensus

variable {n : Nat} {α σ : Type}

/-! ## Logs in order -/

/-- No entry is of an earlier term than the one before it, or of a later term than `term`. -/
structure Ordered (log : List (CommandTerm α)) (term : Int) : Prop where
  sorted : (log.map CommandTerm.term).IsChain (· ≤ ·)
  bound : ∀ entry ∈ log, entry.term ≤ term

namespace Ordered

variable {log front back : List (CommandTerm α)} {term term' : Int}

theorem singleton {entry : CommandTerm α} (bound : entry.term ≤ term) : Ordered [entry] term :=
  ⟨by simp, by simpa using bound⟩

theorem mono (ordered : Ordered log term) (later : term ≤ term') : Ordered log term' :=
  ⟨ordered.sorted, fun entry member => (ordered.bound entry member).trans later⟩

theorem sublist (ordered : Ordered log term) (sub : front.Sublist log) : Ordered front term := by
  refine ⟨?_, fun entry member => ordered.bound entry (sub.subset member)⟩
  exact (ordered.sorted.pairwise.sublist (sub.map CommandTerm.term)).isChain

theorem append (first : Ordered front term) (second : Ordered back term)
    (meets : ∀ last ∈ front.getLast?, ∀ next ∈ back.head?, last.term ≤ next.term) :
    Ordered (front ++ back) term := by
  refine ⟨?_, fun entry member => ?_⟩
  · rw [List.map_append, List.isChain_append]
    refine ⟨first.sorted, second.sorted, ?_⟩
    simpa using meets
  · exact (List.mem_append.1 member).elim (first.bound entry) (second.bound entry)

theorem term_le {p q : Nat} {earlier later : CommandTerm α} (ordered : Ordered log term)
    (le : p ≤ q) (found : log[p]? = some earlier) (found' : log[q]? = some later) :
    earlier.term ≤ later.term := by
  rcases le.eq_or_lt with rfl | lt
  · obtain rfl := Option.some.inj (found.symm.trans found')
    exact le_rfl
  · exact Raft.term_le_of_sorted ordered.sorted.pairwise lt found found'

/-- The last term bounds the others. -/
theorem of_lastTerm (ordered : Ordered log term)
    (bound : lastTermOf CommandTerm.term log ≤ term') : Ordered log term' := by
  refine ⟨ordered.sorted, fun entry member => ?_⟩
  obtain ⟨p, found⟩ := List.mem_iff_getElem?.1 member
  obtain ⟨last, ends⟩ : ∃ last, log.getLast? = some last :=
    ⟨_, List.getLast?_eq_some_getLast (List.ne_nil_of_mem member)⟩
  have within := (List.getElem?_eq_some_iff.1 found).1
  have le := ordered.term_le (Nat.le_sub_one_of_lt within) found
    (List.getLast?_eq_getElem?.symm.trans ends)
  rw [lastTermOf, ends] at bound
  exact le.trans bound

end Ordered

/-- The entries of the message are in order, from `PrevLogTerm` up to the term of the message. -/
structure AppendEntryArgs.InOrder (args : AppendEntryArgs α) : Prop where
  entries : Ordered args.entries args.term
  prev : ∀ first ∈ args.entries.head?, args.prevLogTerm ≤ first.term

namespace Raft

variable {rf rf' : Raft α σ} {args : AppendEntryArgs α}

/-- The log is in order, and so is the one that was saved. -/
structure InOrder (rf : Raft α σ) : Prop where
  log : Ordered rf.log rf.currentTerm
  saved : ∀ state ∈ rf.persister.raftstate, state.2 ≠ [] ∧ Ordered state.2 state.1

theorem InOrder.unsaved (inOrder : rf.InOrder) (ordered : Ordered rf'.log rf'.currentTerm)
    (same : rf'.persister.raftstate = rf.persister.raftstate) : rf'.InOrder :=
  ⟨ordered, fun state found => inOrder.saved state (same ▸ found)⟩

theorem InOrder.notified (inOrder : rf.InOrder) (waiting : Nat) :
    { rf with aeNotifyChan := waiting }.InOrder :=
  inOrder.unsaved inOrder.log rfl

theorem InOrder.persisted (nonempty : rf.log ≠ []) (ordered : Ordered rf.log rf.currentTerm)
    (written : rf.persister.raftstate = some (rf.currentTerm, rf.log)) : rf.InOrder := by
  refine ⟨ordered, fun state found => ?_⟩
  rw [written, Option.mem_some] at found
  subst found
  exact ⟨nonempty, ordered⟩

/-! ## Messages -/

/-- The message is made of a slot of the log and of slots that are not before it. -/
def Quotes (rf : Raft α σ) (args : AppendEntryArgs α) : Prop :=
  ∃ (p q : Nat) (entry : CommandTerm α), p ≤ q ∧ rf.log[p]? = some entry ∧
    args.prevLogTerm = entry.term ∧ args.entries <+: rf.log.drop q

theorem Quotes.inOrder (quotes : rf.Quotes args) (ordered : Ordered rf.log args.term) :
    args.InOrder := by
  obtain ⟨p, q, entry, le, found, prevTerm, part⟩ := quotes
  refine ⟨ordered.sublist (part.sublist.trans (List.drop_sublist q rf.log)), ?_⟩
  intro first member
  obtain ⟨rest, split⟩ := part
  have later : rf.log[q]? = some first := by
    rw [← List.head?_drop, ← split, List.head?_append, member]
    rfl
  rw [prevTerm]
  exact ordered.term_le le found later

/-- Above the snapshot, `Cuts` says where the entries are from. -/
theorem Cuts.quotes (cuts : rf.Cuts args)
    (above : args.entries ≠ [] → rf.lastIndexInSnapshot ≤ args.prevLogIndex) :
    rf.Quotes args := by
  obtain ⟨entry, found, prevTerm⟩ := cuts.prev
  refine ⟨_, _, entry, Nat.le_succ _, (slot_eq_some_iff.1 found).2, prevTerm, ?_⟩
  by_cases empty : args.entries = []
  · rw [empty]
    exact List.nil_prefix
  · exact cuts.entries empty (above empty)

theorem nextMessage_quotes {sender : Sender n α σ} {reply : AppendEntryReply} {currComInd : Int}
    (built : rf.nextMessage sender reply currComInd = some (some args)) : rf.Quotes args := by
  obtain ⟨entry, found, prevTerm, _, part, _⟩ := nextMessage_cases built
  exact ⟨_, _, entry, Nat.le_succ _, (slot_eq_some_iff.1 found).2, prevTerm, part⟩

theorem getTrueIndex_le_succ (rf : Raft α σ) (index : Int) :
    rf.getTrueIndex index ≤ rf.getTrueIndex (index + 1) := by
  unfold getTrueIndex
  split_ifs <;> omega

/-- Inside the snapshot both slots of the message are the sentinel. -/
theorem repairMessage_quotes {sender : Sender n α σ} {prevlog appEnTerm : Int}
    (built : rf.repairMessage sender prevlog = some (.retry args appEnTerm)) :
    rf.Quotes args := by
  unfold repairMessage at built
  split at built
  · cases built
  split at built
  · rename_i entry prev found foundPrev
    cases built
    obtain ⟨_, found⟩ := slot_eq_some_iff.1 found
    refine ⟨_, _, prev, Int.toNat_le_toNat (rf.getTrueIndex_le_succ prevlog),
      (slot_eq_some_iff.1 foundPrev).2, rfl, ?_⟩
    obtain ⟨within, rfl⟩ := List.getElem?_eq_some_iff.1 found
    rw [List.drop_eq_getElem_cons within]
    exact ⟨_, rfl⟩
  · cases built

/-- Every message after a reply is a part of the log and has the current term. -/
theorem onReply_quotes {sender : Sender n α σ} {reply : AppendEntryReply} {appEnTerm : Int}
    (handled : rf.onReply sender reply = some (rf', .retry args appEnTerm)) :
    rf'.Quotes args := by
  unfold onReply at handled
  split at handled
  · rcases onSuccess_cases handled with ⟨_, _, done⟩ | ⟨_, rf₁, _, _, ⟨_, done⟩ |
      ⟨_, _, _, ⟨rfl, _, _, built, retry⟩ | ⟨done, _⟩⟩⟩
    · cases done
    · cases done
    · cases retry
      exact nextMessage_quotes built
    · cases done
  · rcases onReject_cases handled with ⟨done, _⟩ | ⟨done, _⟩ |
      ⟨_, prevlog, _, rfl, ⟨_, snapshot⟩ | ⟨_, built⟩⟩
    · cases done
    · cases done
    · cases snapshot
    · exact repairMessage_quotes built

theorem afterSnapShot_quotes {sender : Sender n α σ} {appEnTerm : Int}
    (handled : rf.afterSnapShot sender = some (.retry args appEnTerm)) : rf.Quotes args := by
  unfold afterSnapShot at handled
  split at handled
  · cases handled
  · exact repairMessage_quotes handled

/-! ## The condition, and the handlers that change the log -/

/-- A message that is accepted leaves no entry of an earlier term right behind its last one. -/
def keepsOrder (rf : Raft α σ) (args : AppendEntryArgs α) : Bool :=
  !rf.accepts args || args.entries.isEmpty || rf.cuts args ||
    rf.log[rf.prevSlot args + 1 + args.entries.length]?.all fun next =>
      decide (lastTermOf CommandTerm.term args.entries ≤ next.term)

/-- The entries that a message writes, between the slot it names and what it leaves behind. -/
theorem ordered_written {term : Int} (ordered : Ordered rf.log term) (message : args.InOrder)
    (current : args.term = term) (above : rf.lastIndexInSnapshot ≤ args.prevLogIndex)
    {entry : CommandTerm α} (found : rf.slot (rf.getTrueIndex args.prevLogIndex) = some entry)
    (sameTerm : entry.term = args.prevLogTerm) (nonempty : args.entries ≠ [])
    (kept : (rf.cuts args || rf.log[rf.prevSlot args + 1 + args.entries.length]?.all fun next =>
      decide (lastTermOf CommandTerm.term args.entries ≤ next.term)) = true) :
    Ordered (rf.log.take (rf.prevSlot args + 1) ++ args.entries ++
      if rf.cuts args then []
      else rf.log.drop (rf.prevSlot args + 1 + args.entries.length)) term := by
  have slot : rf.log[rf.prevSlot args]? = some entry := by
    rw [getTrueIndex_of_le above] at found
    exact (slot_eq_some_iff.1 found).2
  have front : Ordered (rf.log.take (rf.prevSlot args + 1) ++ args.entries) term := by
    refine (ordered.sublist (List.take_sublist _ _)).append (current ▸ message.entries) ?_
    intro last ends first starts
    rw [List.getLast?_take, if_neg (Nat.succ_ne_zero _), Nat.add_sub_cancel, slot, Option.some_or,
      Option.mem_some] at ends
    rw [← ends, sameTerm]
    exact message.prev first starts
  split_ifs with cut
  · rwa [List.append_nil]
  · refine front.append (ordered.sublist (List.drop_sublist _ _)) ?_
    intro last ends next starts
    obtain ⟨written, lastWritten⟩ : ∃ written, args.entries.getLast? = some written :=
      ⟨_, List.getLast?_eq_some_getLast nonempty⟩
    rw [List.getLast?_append, lastWritten, Option.some_or, Option.mem_some] at ends
    rw [List.head?_drop, Option.mem_def] at starts
    rw [Bool.not_eq_true] at cut
    rw [cut, Bool.false_or, starts, Option.all_some, decide_eq_true_eq, lastTermOf,
      lastWritten] at kept
    rwa [← ends]

/-- A peer that is in the term of the message stays in order. -/
theorem ordered_checkAndAppend {me term : Int} {reply : AppendEntryReply}
    (checked : rf.checkAndAppend args { me := me, term := term } = some (rf', reply))
    (current : args.term = rf.currentTerm) (ordered : Ordered rf.log rf.currentTerm)
    (base : rf.lastIndexInSnapshot ≤ rf.commitIndex) (message : args.InOrder)
    (kept : rf.keepsOrder args = true) : Ordered rf'.log rf'.currentTerm := by
  rcases checkAndAppend_cases checked with
    ⟨rfl, _⟩ | ⟨rfl, _⟩ | ⟨start, within, _, _, ⟨entry, found, sameTerm⟩, rf₁, followed,
      ⟨_, rfl⟩ | ⟨nonempty, written⟩⟩
  · exact ordered
  · exact ordered
  · obtain ⟨_, _, rfl⟩ := followCommit_frame followed
    exact ordered
  · obtain ⟨commitIndex, messages, followed', _, bound⟩ := exists_followCommit base start within
    obtain rfl := Option.some.inj (followed'.symm.trans followed)
    have above : rf.lastIndexInSnapshot ≤ args.prevLogIndex := base.trans start
    have accepted : rf.accepts args = true := by
      simp only [accepts, found, Option.any_some, sameTerm, beq_self_eq_true, Bool.and_true,
        Bool.and_eq_true, decide_eq_true_eq]
      exact ⟨⟨current.ge, start⟩, within⟩
    have filled : args.entries.isEmpty = false := by simpa using nonempty
    rw [keepsOrder, accepted, filled, Bool.not_true, Bool.false_or, Bool.false_or] at kept
    have after := (writeEntries_log (by exact above) (by exact bound) (by exact within) nonempty
      written).2
    obtain ⟨log, rfl⟩ := writeEntries_frame written
    exact after ▸ ordered_written ordered message current above found sameTerm nonempty kept

theorem ordered_appendEntry {reply : AppendEntryReply}
    (handled : rf.appendEntry args = some (rf', reply)) (ordered : Ordered rf.log rf.currentTerm)
    (base : rf.lastIndexInSnapshot ≤ rf.commitIndex) (message : args.InOrder)
    (kept : rf.keepsOrder args = true) : Ordered rf'.log rf'.currentTerm := by
  rcases appendEntry_cases handled with ⟨_, rfl, _⟩ | ⟨fresh, checked⟩
  · exact ordered
  obtain ⟨leaderNum, waiting, persister, observed, _⟩ := observe_frame rf args fresh
  rw [observed] at checked
  refine ordered_checkAndAppend checked rfl (ordered.mono fresh) base message ?_
  have accepts : rf.accepts args = Raft.accepts { rf with
      currentTerm := args.term, leaderNum := leaderNum, aeNotifyChan := waiting
      persister := persister } args := by
    simp only [Raft.accepts, fresh, le_refl]
    rfl
  rw [keepsOrder, accepts] at kept
  exact kept

/-- What a snapshot leaves of the log. -/
theorem ordered_truncate {endIndex preIndex lastTerm term : Int} {log : List (CommandTerm α)}
    (truncated : rf.truncate endIndex preIndex lastTerm = some log) (ordered : Ordered rf.log term)
    (bound : lastTerm ≤ term) : Ordered log term := by
  unfold truncate at truncated
  split_ifs at truncated
  split at truncated
  · cases truncated
    exact .singleton bound
  · cases truncated
    exact ordered.sublist (List.drop_sublist _ _)

end Raft

/-- A peer that is made again finds its log in order, if the term it starts with is not behind the
snapshot it takes over. -/
theorem Persister.ordered_startLog {persister : Persister α σ}
    (saved : ∀ state ∈ persister.raftstate, state.2 ≠ [] ∧ Ordered state.2 state.1)
    (kept : (persister.raftstate.isSome || persister.readable.all fun blob =>
      decide (blob.lastTerm ≤ 0)) = true) :
    Ordered persister.startLog ((persister.raftstate.map Prod.fst).getD 0) := by
  cases found : persister.raftstate with
  | some state =>
      obtain ⟨nonempty, ordered⟩ := saved state found
      have log : persister.startLog = state.2 := by
        simp [startLog, found, nonempty]
      rw [log]
      exact ordered
  | none =>
      rw [found, Option.isSome_none, Bool.false_or] at kept
      cases read : persister.readable with
      | none =>
          have log : persister.startLog = [⟨none, 0⟩] := by simp [startLog, found, read]
          rw [log]
          exact .singleton le_rfl
      | some blob =>
          have log : persister.startLog = [⟨none, blob.lastTerm⟩] := by
            simp [startLog, found, read]
          rw [read, Option.all_some, decide_eq_true_eq] at kept
          rw [log]
          exact .singleton kept

namespace Server

variable {i : Fin n} {server server' : Server n α σ} {input : Input n α σ}
  {output : Output n α σ}

/-- The step does not put the log out of order. -/
def keepsOrder (server : Server n α σ) : Input n α σ → Bool
  | .request (.appendEntry args) => server.rf.keepsOrder args
  | .request (.installSnapShot args) => !server.rf.installs args ||
      args.data.all fun blob => decide (blob.lastTerm ≤ server.rf.currentTerm)
  | .startAppend k => server.starts[k]?.all fun (_, curTerm) =>
      decide (server.rf.lastTerm ≤ curTerm) && decide (curTerm ≤ server.rf.currentTerm)
  | .snapShotReply reply =>
      (reply.errCode != 1 || decide (server.rf.lastTerm ≤ reply.term)) &&
        match server.phase with
        | .snapshotting _ _ _ _ appEn _ => decide (server.rf.lastTerm ≤ appEn.term)
        | _ => true
  | .retrySnapShotReply _ reply =>
      reply.errCode != 1 || decide (server.rf.lastTerm ≤ reply.term)
  | .restart => server.rf.persister.raftstate.isSome ||
      server.rf.persister.readable.all fun blob => decide (blob.lastTerm ≤ 0)
  | _ => true

theorem inOrder_snapShotReply {rf : Raft α σ} {ind : Nat} {args : InstallSnapShotArgs σ}
    {reply : InstallSnapShotReply} (inOrder : rf.InOrder)
    (kept : (reply.errCode != 1 || decide (rf.lastTerm ≤ reply.term)) = true) :
    (rf.snapShotReply ind args reply).InOrder := by
  rcases rf.snapShotReply_cases ind args reply with ⟨stale, frame⟩ | ⟨_, _, _, frame⟩
  · rw [frame]
    have bound : rf.lastTerm ≤ reply.term := by simpa [stale] using kept
    exact inOrder.unsaved (inOrder.log.of_lastTerm bound) rfl
  · rw [frame]
    exact inOrder.unsaved inOrder.log rfl

/-- The step leaves the log in order, and whatever it saves. -/
theorem Moves.inOrder (moves : Moves i server input server' output) (inOrder : server.rf.InOrder)
    (base : server.rf.lastIndexInSnapshot ≤ server.rf.commitIndex)
    (nonempty : server'.rf.log ≠ []) (kept : server.keepsOrder input = true)
    (message : ∀ {args}, input = .request (.appendEntry args) → args.InOrder) :
    server'.rf.InOrder := by
  have ordered := inOrder.log
  cases moves with
  | requestVote handled =>
      rcases Raft.requestVote_cases handled with
        ⟨rfl, _⟩ | ⟨later, _, rfl, _⟩ | ⟨later, _, _, _, rfl⟩ | ⟨_, _, _, _, _, rfl⟩
      · exact inOrder
      · exact .persisted nonempty (ordered.mono later.le) rfl
      · exact .persisted nonempty (ordered.mono later.le) rfl
      · exact inOrder.unsaved ordered rfl
  | appendEntry handled =>
      have ordered' := Raft.ordered_appendEntry handled ordered base (message rfl) kept
      rcases Raft.appendEntry_frame handled with ⟨_, rfl⟩ | ⟨_, _, _, _, _, _, rfl, _⟩
      · exact inOrder.unsaved ordered' rfl
      · exact .persisted nonempty ordered' rfl
  | installSnapShot handled =>
      rcases Raft.installSnapShot_cases handled with
        ⟨rfl, _⟩ | ⟨rfl, _⟩ | ⟨rfl, _⟩ | ⟨installs, _, _, _, _, blob, data, _, rfl⟩
      · exact inOrder
      · exact inOrder
      · exact inOrder
      · have bound : blob.lastTerm ≤ server.rf.currentTerm := by
          simpa [keepsOrder, installs, data] using kept
        exact inOrder.unsaved (.singleton bound) rfl
  | outdated _ later => exact .persisted nonempty (ordered.mono later.le) rfl
  | roundTimeout _ | termTimeout _ | followerTimeout _ =>
      exact .persisted nonempty (ordered.mono (Int.le_add_one le_rfl)) rfl
  | lead _ _ started =>
      rw [Raft.startLeader_frame started]
      exact inOrder.unsaved ordered rfl
  | distribute _ _ spawned =>
      obtain ⟨_, frame⟩ := spawn_rf spawned
      rw [frame]
      exact inOrder.unsaved ordered rfl
  | snapShotReply _ spawned =>
      obtain ⟨_, frame⟩ := spawn_rf spawned
      rw [keepsOrder, Bool.and_eq_true] at kept
      rw [frame]
      exact (inOrder_snapShotReply inOrder kept.1).notified _
  | entryReply _ _ handled proceeds =>
      obtain ⟨_, frame⟩ := proceed_rf proceeds
      obtain ⟨_, _, _, _, _, _, _, rfl⟩ := Raft.onReply_frame handled
      rw [frame]
      exact inOrder.unsaved ordered rfl
  | retrySnapShotReply _ _ _ proceeds =>
      obtain ⟨_, frame⟩ := proceed_rf proceeds
      rw [frame]
      exact (inOrder_snapShotReply inOrder kept).notified _
  | startAppend found appended =>
      obtain ⟨_, rfl⟩ := Raft.startAppend_frame appended
      simp only [keepsOrder, found, Option.all_some, Bool.and_eq_true, decide_eq_true_eq] at kept
      refine .persisted nonempty (ordered.append (.singleton kept.2) ?_) rfl
      intro last ends next starts
      obtain rfl := Option.some.inj starts
      simpa [Raft.lastTerm, Option.mem_def.1 ends] using kept.1
  | takeSnapshots _ taken =>
      rcases Raft.takeSnapshots_cases taken with rfl | ⟨entry, log, _, _, found, truncated, rfl⟩
      · exact inOrder
      · have bound := ordered.bound entry (List.mem_of_getElem? (Raft.slot_eq_some_iff.1 found).2)
        exact .persisted nonempty (Raft.ordered_truncate truncated ordered bound) rfl
  | restart =>
      rw [boot, Raft.make_eq]
      exact ⟨Persister.ordered_startLog inOrder.saved kept, inOrder.saved⟩
  | _ => exact inOrder.unsaved ordered rfl

theorem spawn_inOrder {cache : TermCache} {logLen : Int} {ind dst : Fin n}
    {appEn args : AppendEntryArgs α}
    (spawned : server.spawn cache logLen ind appEn = some (server', output))
    (ordered : Ordered server.rf.log appEn.term)
    (sent : (dst, .appendEntry args) ∈ output.sends) : args.InOrder := by
  rcases spawn_cases spawned with ⟨_, rfl, rfl⟩ | ⟨appEn', filled, _, rfl, rfl⟩
  · simp at sent
  · obtain ⟨_, rfl⟩ : dst = ind ∧ args = appEn' := by simpa using sent
    obtain ⟨cuts, term, _, above, _⟩ := Raft.fillEntry_cuts filled
    exact (cuts.quotes above).inOrder (term ▸ ordered)

theorem proceed_inOrder {k : Nat} {sender : Sender n α σ} {next : Next α} {dst : Fin n}
    {args : AppendEntryArgs α} (proceeds : server.proceed k sender next = (server', output))
    (message : ∀ {appEn appEnTerm}, next = .retry appEn appEnTerm → appEn.InOrder)
    (sent : (dst, .appendEntry args) ∈ output.sends) : args.InOrder := by
  rcases proceed_cases proceeds with
    ⟨_, rfl, rfl⟩ | ⟨appEn, _, retry, _, rfl, rfl⟩ | ⟨_, rfl, rfl⟩
  · simp at sent
  · obtain ⟨_, rfl⟩ : dst = sender.ind ∧ args = appEn := by simpa using sent
    exact message retry
  · simp at sent

/-- What a step sends is in order. -/
theorem Moves.sends_inOrder (moves : Moves i server input server' output)
    (inOrder : server.rf.InOrder) (kept : server.keepsOrder input = true) {dst : Fin n}
    {args : AppendEntryArgs α} (sent : (dst, .appendEntry args) ∈ output.sends) :
    args.InOrder := by
  cases moves with
  | distribute _ entry spawned =>
      obtain ⟨_, _, rfl⟩ := Raft.newEntry_eq entry
      exact spawn_inOrder spawned inOrder.log sent
  | snapShotReply phase spawned =>
      simp only [keepsOrder, phase, Bool.and_eq_true, decide_eq_true_eq] at kept
      refine spawn_inOrder spawned ?_ sent
      dsimp only
      rw [(Raft.sameLog_snapShotReply server.rf _ _ _).log]
      exact inOrder.log.of_lastTerm kept.2
  | entryReply _ _ handled proceeds =>
      refine proceed_inOrder proceeds ?_ sent
      rintro appEn appEnTerm rfl
      have term := (Raft.onReply_cuts handled).2.1
      have quotes := Raft.onReply_quotes handled
      obtain ⟨_, _, _, _, _, _, _, rfl⟩ := Raft.onReply_frame handled
      exact quotes.inOrder (term ▸ inOrder.log)
  | retrySnapShotReply _ _ handled proceeds =>
      refine proceed_inOrder proceeds ?_ sent
      rintro appEn appEnTerm rfl
      have term := (Raft.afterSnapShot_cuts handled).2.1
      exact (Raft.afterSnapShot_quotes handled).inOrder
        (term ▸ (inOrder_snapShotReply inOrder kept).log)
  | _ => simp at sent

end Server

namespace Cluster

/-- Every log is in order, and every message that was sent. -/
structure InOrder (c : Cluster n α σ) : Prop where
  standing : ∀ i, (c.rf i).Standing
  peers : ∀ i, (c.rf i).InOrder
  messages : ∀ {src dst args}, .request src dst (.appendEntry args) ∈ c.net → args.InOrder

variable {c c' : Cluster n α σ}

/-- One server acts, and the network gets what it sends. -/
theorem InOrder.update (inOrder : c.InOrder) {i : Fin n} {input : Input n α σ}
    {server : Server n α σ} {output : Output n α σ}
    (moves : Server.Moves i (c.servers i) input server output)
    (kept : (c.servers i).keepsOrder input = true)
    (message : ∀ {args}, input = .request (.appendEntry args) → args.InOrder)
    (servers : c'.servers = Function.update c.servers i server)
    (net : ∀ {src dst args}, .request src dst (.appendEntry args) ∈ c'.net →
      .request src dst (.appendEntry args) ∈ c.net ∨
        (dst, .appendEntry args) ∈ output.sends) : c'.InOrder := by
  have standing : server.rf.Standing := moves.log.standing (inOrder.standing i)
  obtain ⟨l, window⟩ := (inOrder.standing i).window
  obtain ⟨l', window'⟩ := standing.window
  have peer := moves.inOrder (inOrder.peers i) window.base window'.holds.log_ne_nil kept message
  refine ⟨fun j => ?_, fun j => ?_, fun sent => ?_⟩
  · rw [rf, servers]
    by_cases acts : j = i
    · subst acts
      rwa [Function.update_self]
    · rw [Function.update_of_ne acts]
      exact inOrder.standing j
  · rw [rf, servers]
    by_cases acts : j = i
    · subst acts
      rwa [Function.update_self]
    · rw [Function.update_of_ne acts]
      exact inOrder.peers j
  · rcases net sent with old | new
    · exact inOrder.messages old
    · exact moves.sends_inOrder (inOrder.peers i) kept new

variable [DecidableEq α] [DecidableEq σ]

theorem InOrder.step (inOrder : c.InOrder) {action : Action n α σ}
    (kept : c.Meets (fun c i input => (c.servers i).keepsOrder input) action)
    (next : c.step action = some c') : c'.InOrder := by
  rcases step_cases next with
    ⟨src, dst, request, server, reply, sent, event, handled, rfl⟩ |
    ⟨i, input, server, output, prompted, event, stepped, rfl⟩
  · have stepped : (c.servers dst).step dst (.request request) = _ := handled
    refine inOrder.update (Server.step_moves stepped) (kept.of_event event) ?_ rfl ?_
    · rintro args ⟨⟩
      exact inOrder.messages sent
    · intro src dst args member
      exact Or.inl (request_mem_answered.1 member)
  · refine inOrder.update (Server.step_moves stepped) (kept.of_event event) ?_ rfl ?_
    · rintro args rfl
      exact absurd prompted id
    · intro src dst args member
      exact (request_mem_acted.1 member).imp_right And.right

end Cluster

end Mit6824
