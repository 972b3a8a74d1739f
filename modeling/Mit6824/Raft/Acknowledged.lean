import Mit6824.Raft.Replication
import Mit6824.Runs

/-!
# Acknowledged entries survive reordering

One leader, whose log only grows, sends pieces of it to a follower; they arrive in
any order, some of them twice and some never. The handler overwrites what it finds
and cuts off a tail that ends in an earlier term, but only a tail of two or more
entries. So a single stale entry stays behind the entries of a message that was
acknowledged, and a late shorter message then cuts off acknowledged entries with it.

An acknowledgement that leaves no such entry behind is final
(`Raft.acknowledged_survives`).
-/

namespace Mit6824

open Consensus

variable {α σ : Type}

/-- A message of term `T` with the entries `p + 1 .. q` of a version of the leader's log, which
has grown to `l` since. -/
def CutFrom (T : Int) (l : List (CommandTerm α)) (args : AppendEntryArgs α) : Prop :=
  ∃ version p q, version <+: l ∧ p ≤ q ∧ q ≤ version.length ∧ args.term = T ∧
    args.prevLogIndex = (p : Nat) ∧ args.prevLogTerm = termAt version p ∧
    args.entries = (version.take q).drop p

/-- The piece of a version is a piece of the log it has grown to. -/
theorem CutFrom.piece {T : Int} {l : List (CommandTerm α)} {args : AppendEntryArgs α}
    (cut : CutFrom T l args) :
    ∃ p q, p ≤ q ∧ q ≤ l.length ∧ args.prevLogIndex = (p : Nat) ∧
      args.prevLogTerm = termAt l p ∧ args.entries = (l.take q).drop p := by
  obtain ⟨version, p, q, ⟨rest, rfl⟩, le, bound, _, prev, term, entries⟩ := cut
  refine ⟨p, q, le, by simp; omega, prev, ?_, ?_⟩
  · rw [term, termAt, termAt, List.take_append_of_le_length (by omega)]
  · rw [entries, List.take_append_of_le_length bound]

section Lists

variable {f l : List (CommandTerm α)} {p q m : Nat}

theorem matching_spliced (matching : Matching f l) (q : Nat) :
    Matching (l.take q ++ f.drop q) l := by
  intro k e e' found found' sameTerm
  by_cases within : k < (l.take q).length
  · rw [List.take_append_of_le_length within, List.take_take]
    congr 1
    simp only [List.length_take] at within
    omega
  · have bound : k < l.length := (List.getElem?_eq_some_iff.1 found').1
    have size : (l.take q).length = q := by
      simp only [List.length_take] at within ⊢
      omega
    rw [List.getElem?_append_right (by omega), size, List.getElem?_drop] at found
    have position : q + (k - q) = k := by omega
    rw [position] at found
    have agree := matching found found' sameTerm
    have front : l.take q = f.take q := by
      rw [← min_eq_left (show q ≤ k + 1 by omega), ← List.take_take, ← agree, List.take_take]
    rw [front, List.take_append_drop, agree]

theorem termAt_mono (ordered : l.Pairwise fun e e' => e.term ≤ e'.term) (positive : 0 < p)
    (le : p ≤ q) (bound : q ≤ l.length) : termAt l p ≤ termAt l q := by
  obtain ⟨p, rfl⟩ : ∃ p', p = p' + 1 := ⟨p - 1, by omega⟩
  obtain ⟨q, rfl⟩ : ∃ q', q = q' + 1 := ⟨q - 1, by omega⟩
  have found : l[p]? = some (l[p]) := List.getElem?_eq_getElem (by omega)
  have found' : l[q]? = some (l[q]) := List.getElem?_eq_getElem (by omega)
  rw [termAt_succ found, termAt_succ found']
  rcases (Nat.le_of_succ_le_succ le).eq_or_lt with rfl | lt
  · rfl
  · exact List.pairwise_iff_getElem.1 ordered p q _ _ lt

theorem lastTermOf_spliced (f l : List (CommandTerm α)) (q : Nat) :
    lastTermOf CommandTerm.term (l.take q ++ f.drop q) =
      if q < f.length then lastTermOf CommandTerm.term f else termAt l q := by
  split_ifs with beyond
  · obtain ⟨last, found⟩ : ∃ last, f.getLast? = some last :=
      ⟨_, List.getLast?_eq_some_getLast (List.ne_nil_of_length_pos (by omega))⟩
    simp [lastTermOf, List.getLast?_append, List.getLast?_drop, found, not_le.2 beyond]
  · rw [List.drop_eq_nil_of_le (by omega), List.append_nil, termAt]

theorem matching_appended (matching : Matching f l) (le : p < q) (bound : q ≤ l.length)
    (same : f.take p = l.take p) : Matching (appended f p ((l.take q).drop p)) l := by
  rw [appended_piece le bound same]
  split_ifs
  · intro k e e' found found' sameTerm
    have within : k < (l.take q).length := (List.getElem?_eq_some_iff.1 found).1
    rw [List.take_take]
    congr 1
    simp only [List.length_take] at within
    omega
  · exact matching_spliced matching q

end Lists

namespace Raft

/-- One call of the handler. -/
def receive (rf : Raft α σ) (args : AppendEntryArgs α) : Option (Raft α σ) :=
  (rf.appendEntry args).map Prod.fst

/-- The call would leave one entry behind its own, and that entry is of an earlier term. -/
def strandsEntry (rf : Raft α σ) (args : AppendEntryArgs α) : Bool :=
  rf.getLastLogIndex == args.prevLogIndex + args.entries.length + 1 &&
    decide (rf.lastTerm < lastTermOf CommandTerm.term args.entries)

/-- The follower stands for the log `f`, which matches the leader's log. -/
structure Follows (rf : Raft α σ) (l f : List (CommandTerm α)) : Prop where
  holds : rf.Holds f
  base : rf.lastIndexInSnapshot ≤ rf.commitIndex
  matching : Matching f l

/-- The log `f` has the first `m` entries of the leader's log, and does not end in a term
before that of the last of them. -/
structure Keeps (l f : List (CommandTerm α)) (m : Nat) : Prop where
  positive : 0 < m
  reaches : m ≤ f.length
  same : f.take m = l.take m
  lastTerm : termAt l m ≤ lastTermOf CommandTerm.term f

variable {rf rf' : Raft α σ} {l f : List (CommandTerm α)} {T : Int} {args : AppendEntryArgs α}
  {reply : AppendEntryReply}

/-- What one call does to a follower: its log stays as it is, or a piece of the leader's log is
written over it. Only a call of the second kind with entries is acknowledged with
`CommitIndex` 0. -/
theorem Follows.call (follows : rf.Follows l f) (cut : CutFrom T l args)
    (handled : rf.appendEntry args = some (rf', reply)) :
    rf'.Follows l f ∧
        (reply.success = true → reply.commitIndex = 0 → args.entries = []) ∨
      ∃ p q, p < q ∧ q ≤ l.length ∧ p ≤ f.length ∧ args.prevLogIndex = (p : Nat) ∧
        args.entries = (l.take q).drop p ∧ f.take p = l.take p ∧
        rf'.Follows l (appended f p args.entries) := by
  obtain ⟨holds, base, matching⟩ := follows
  have nonneg := holds.nonneg
  obtain ⟨k, committed⟩ : ∃ k : Nat, rf.commitIndex = k := ⟨rf.commitIndex.toNat, by omega⟩
  rcases appendEntry_spec holds (committed ▸ base) committed handled with
    ⟨_, rfl, denied⟩ | ⟨_, _, _, _, _, _, _, _, rfl, outcome⟩
  · exact Or.inl ⟨⟨holds, base, matching⟩, by simp [denied]⟩
  rcases outcome with ⟨rfl, rfl, rfl, answer⟩ |
    ⟨p, prev, le, bound, sameTerm, _, _, rfl, rfl, holds'⟩
  · refine Or.inl ⟨⟨holds.congr rfl rfl, base, matching⟩, fun success zero => ?_⟩
    rcases answer with denied | ⟨_, ahead, told⟩
    · simp [denied] at success
    · obtain ⟨p, _, _, _, prev, _⟩ := cut.piece
      omega
  · have base' :
        rf.lastIndexInSnapshot ≤ ((max k (min p args.leaderCommit.toNat) : Nat) : Int) := by
      omega
    by_cases empty : args.entries = []
    · rw [if_pos empty] at holds'
      exact Or.inl ⟨⟨holds', base', matching⟩, fun _ _ => empty⟩
    · rw [if_neg empty] at holds'
      obtain ⟨p', q, le', bound', prev', term', entries⟩ := cut.piece
      obtain rfl : p' = p := by omega
      have strict : p' < q := by
        rcases le'.eq_or_lt with rfl | strict
        · simp [entries] at empty
        · exact strict
      have same := matching.take_eq bound (by omega) (sameTerm.trans term')
      refine Or.inr ⟨p', q, strict, bound', bound, prev, entries, same, holds', base', ?_⟩
      rw [entries]
      exact matching_appended matching strict bound' same

/-- An acknowledged piece is kept, unless a single entry of an earlier term is left behind
it. -/
theorem Keeps.acknowledged {p q : Nat} (le : p < q) (bound : q ≤ l.length)
    (same : f.take p = l.take p)
    (clean : ¬(f.length = q + 1 ∧ lastTermOf CommandTerm.term f < termAt l q)) :
    Keeps l (appended f p ((l.take q).drop p)) q := by
  rw [appended_piece le bound same]
  have size : (l.take q).length = q := by simp [bound]
  split_ifs with cuts
  · exact ⟨by omega, size.ge, by rw [List.take_take, min_self], le_rfl⟩
  · refine ⟨by omega, by simp [bound], List.take_left' size, ?_⟩
    rw [lastTermOf_spliced]
    split_ifs with beyond
    · by_contra earlier
      rcases eq_or_ne f.length (q + 1) with single | longer
      · exact clean ⟨single, not_le.1 earlier⟩
      · exact cuts ⟨by omega, not_le.1 earlier⟩
    · exact le_rfl

/-- A further piece of the leader's log does not take back what the follower has of it. -/
theorem Keeps.appended {m p q : Nat} (keeps : Keeps l f m) (upTo : m ≤ l.length)
    (ordered : l.Pairwise fun e e' => e.term ≤ e'.term) (le : p < q) (bound : q ≤ l.length)
    (same : f.take p = l.take p) : Keeps l (appended f p ((l.take q).drop p)) m := by
  obtain ⟨positive, reaches, agree, lastTerm⟩ := keeps
  rw [appended_piece le bound same]
  rcases lt_or_ge q m with short | long
  · -- The piece is within what is kept: it changes nothing, and its last term is no later.
    have front : l.take q = f.take q := by
      rw [← min_eq_left short.le, ← List.take_take, ← agree, List.take_take]
    have notLater := termAt_mono ordered (by omega) short.le upTo
    rw [if_neg (by omega), front, List.take_append_drop]
    exact ⟨positive, reaches, agree, lastTerm⟩
  · have size : (l.take q).length = q := by simp [bound]
    have later := termAt_mono ordered positive long bound
    split_ifs
    · exact ⟨positive, by omega, by rw [List.take_take, min_eq_left long], later⟩
    · refine ⟨positive, by simp; omega, ?_, ?_⟩
      · rw [List.take_append_of_le_length (by omega), List.take_take, min_eq_left long]
      · rw [lastTermOf_spliced]
        split_ifs
        · exact lastTerm
        · exact later

/-- What the follower keeps it keeps through any further calls. -/
theorem Keeps.run {m : Nat} (ordered : l.Pairwise fun e e' => e.term ≤ e'.term)
    (upTo : m ≤ l.length) (follows : rf.Follows l f) (keeps : Keeps l f m)
    (run : Reaches receive (fun _ args => CutFrom T l args) rf rf') :
    ∃ f', rf'.Follows l f' ∧ Keeps l f' m := by
  refine run.invariant (fun rf => ∃ f, rf.Follows l f ∧ Keeps l f m) ⟨f, follows, keeps⟩ ?_
  rintro rf rf' args ⟨f, follows, keeps⟩ cut received
  obtain ⟨⟨_, reply⟩, handled, rfl⟩ := Option.map_eq_some_iff.1 received
  rcases follows.call cut handled with
    ⟨follows', _⟩ | ⟨p, q, le, bound, _, _, entries, same, follows'⟩
  · exact ⟨f, follows', keeps⟩
  · exact ⟨_, follows', entries ▸ keeps.appended upTo ordered le bound same⟩

/-- The calls that come before an acknowledgement leave a follower. -/
theorem Follows.run (follows : rf.Follows l f)
    (run : Reaches receive (fun _ args => CutFrom T l args) rf rf') :
    ∃ f', rf'.Follows l f' := by
  refine run.invariant (fun rf => ∃ f, rf.Follows l f) ⟨f, follows⟩ ?_
  rintro rf rf' args ⟨f, follows⟩ cut received
  obtain ⟨⟨_, reply⟩, handled, rfl⟩ := Option.map_eq_some_iff.1 received
  rcases follows.call cut handled with ⟨follows', _⟩ | ⟨_, _, _, _, _, _, _, _, follows'⟩
  · exact ⟨f, follows'⟩
  · exact ⟨_, follows'⟩

/-- A follower whose log matches the log of the leader gets pieces of it in any order. From the
call on that acknowledges the entries up to index `m` and does not leave a single entry of an
earlier term behind them, the follower has the leader's log up to `m`. -/
theorem acknowledged_survives {rf rf₁ rf₂ rf₃ : Raft α σ} (holds : rf.Holds f)
    (base : rf.lastIndexInSnapshot ≤ rf.commitIndex) (matching : Matching f l)
    (ordered : l.Pairwise fun e e' => e.term ≤ e'.term)
    (before : Reaches receive (fun _ args => CutFrom T l args) rf rf₁)
    (cut : CutFrom T l args) (handled : rf₁.appendEntry args = some (rf₂, reply))
    (nonempty : args.entries ≠ []) (success : reply.success = true)
    (zero : reply.commitIndex = 0) (clean : rf₁.strandsEntry args = false)
    (after : Reaches receive (fun _ args => CutFrom T l args) rf₂ rf₃) :
    args.prevLogIndex + args.entries.length ≤ rf₃.getLastLogIndex ∧
      ∀ k : Nat, rf₃.lastIndexInSnapshot < k → k ≤ args.prevLogIndex + args.entries.length →
        rf₃.entryAt k = l[k - 1]? := by
  obtain ⟨f₁, follows₁⟩ := Follows.run ⟨holds, base, matching⟩ before
  rcases follows₁.call cut handled with
    ⟨_, heartbeat⟩ | ⟨p, q, le, bound, bound', prev, entries, same, follows₂⟩
  · exact absurd (heartbeat success zero) nonempty
  have ends : args.prevLogIndex + args.entries.length = (q : Int) := by
    rw [prev, entries, List.length_drop, List.length_take]
    omega
  have lastTerm : lastTermOf CommandTerm.term args.entries = termAt l q := by
    rw [entries, lastTermOf, List.getLast?_drop, if_neg (by simp; omega), termAt, lastTermOf]
  have keeps : Keeps l (Mit6824.appended f₁ p args.entries) q := by
    rw [entries]
    refine Keeps.acknowledged le bound same ?_
    rintro ⟨single, earlier⟩
    simp only [strandsEntry, ends, lastTerm, follows₁.holds.getLastLogIndex,
      follows₁.holds.lastTerm, Bool.and_eq_false_iff, beq_eq_false_iff_ne,
      decide_eq_false_iff_not] at clean
    rcases clean with other | notEarlier
    · exact other (by rw [single]; push_cast; rfl)
    · exact notEarlier earlier
  obtain ⟨f₃, follows₃, keeps₃⟩ := Keeps.run ordered bound follows₂ keeps after
  rw [ends, follows₃.holds.getLastLogIndex]
  refine ⟨by exact_mod_cast keeps₃.reaches, fun k above le => ?_⟩
  have nonneg := follows₃.holds.nonneg
  rw [follows₃.holds.entryAt above]
  have inside : k - 1 < q := by omega
  have agree := congrArg (fun l : List (CommandTerm α) => l[k - 1]?) keeps₃.same
  simpa only [List.getElem?_take, if_pos inside] using agree

/-! ## A follower with a stale tail -/

/-- The piece of `l` after index `p` and up to `q`. -/
def piece (l : List (CommandTerm α)) (T : Int) (p q : Nat) : AppendEntryArgs α :=
  { term := T, leaderID := 0, prevLogIndex := p, prevLogTerm := termAt l p
    entries := (l.take q).drop p, leaderCommit := 0 }

theorem cutFrom_piece {p q : Nat} (le : p ≤ q) (bound : q ≤ l.length) :
    CutFrom T l (piece l T p q) :=
  ⟨l, p, q, List.prefix_rfl, le, bound, rfl, rfl, rfl, rfl⟩

def leaderLog : List (CommandTerm Nat) := [⟨some 10, 1⟩, ⟨some 30, 3⟩, ⟨some 31, 3⟩]

def staleLog : List (CommandTerm Nat) :=
  [⟨some 10, 1⟩, ⟨some 20, 2⟩, ⟨some 21, 2⟩, ⟨some 22, 2⟩]

/-- A follower of term 2 with three entries of that term which the leader of term 3 does not
have. -/
def staleFollower : Raft Nat Unit :=
  { make 3 1 ⟨none, none⟩ [] with currentTerm := 2, log := ⟨none, 0⟩ :: staleLog }

theorem staleFollower_holds : staleFollower.Holds staleLog :=
  ⟨by decide, by decide, ⟨none, 0⟩, rfl, rfl⟩

theorem matching_staleLog : Matching staleLog leaderLog := by
  intro k e e' found found' sameTerm
  rcases k with _ | _ | _ | k
  · rfl
  · obtain rfl := Option.some.inj found
    obtain rfl := Option.some.inj found'
    exact absurd sameTerm (by decide)
  · obtain rfl := Option.some.inj found
    obtain rfl := Option.some.inj found'
    exact absurd sameTerm (by decide)
  · simp [leaderLog] at found'

/-- Entry 2 is acknowledged and stays through a longer and a shorter piece. -/
theorem acknowledged_survives_staleFollower :
    ∃ rf₂ rf₃ reply, staleFollower.appendEntry (piece leaderLog 3 1 2) = some (rf₂, reply) ∧
      reply.success = true ∧ reply.commitIndex = 0 ∧
      Reaches receive (fun _ args => CutFrom 3 leaderLog args) rf₂ rf₃ ∧ 2 ≤ rf₃.getLastLogIndex ∧
      rf₃.entryAt 2 = leaderLog[1]? := by
  have cut (p q : Nat) (le : p ≤ q) (bound : q ≤ 3) :
      CutFrom 3 leaderLog (piece leaderLog 3 p q) := cutFrom_piece le bound
  refine ⟨_, _, _, rfl, rfl, rfl,
    .tail (.single (cut 1 3 (by decide) (by decide)) rfl) (cut 0 1 (by decide) (by decide)) rfl, ?_⟩
  have survives := acknowledged_survives staleFollower_holds (by decide) matching_staleLog
    (by decide) (.refl _) (cut 1 2 (by decide) (by decide)) rfl (by decide) rfl rfl (by decide)
    (.tail (.single (cut 1 3 (by decide) (by decide)) rfl) (cut 0 1 (by decide) (by decide)) rfl)
  exact ⟨survives.1, survives.2 2 (by decide) (by decide)⟩

/-- Entry 3 is acknowledged with one stale entry behind it; a late piece that ends in entry 2
cuts both off. -/
theorem acknowledged_entry_cut :
    ∃ rf₂ rf₃ reply,
      staleFollower.Holds staleLog ∧
      staleFollower.lastIndexInSnapshot ≤ staleFollower.commitIndex ∧
      Matching staleLog leaderLog ∧ leaderLog.Pairwise (fun e e' => e.term ≤ e'.term) ∧
      CutFrom 3 leaderLog (piece leaderLog 3 1 3) ∧ CutFrom 3 leaderLog (piece leaderLog 3 1 2) ∧
      staleFollower.appendEntry (piece leaderLog 3 1 3) = some (rf₂, reply) ∧
      (piece leaderLog 3 1 3).entries ≠ [] ∧ reply.success = true ∧ reply.commitIndex = 0 ∧
      rf₂.entryAt 3 = leaderLog[2]? ∧
      rf₂.receive (piece leaderLog 3 1 2) = some rf₃ ∧ rf₃.entryAt 3 = none := by
  refine ⟨_, _, _, staleFollower_holds, by decide, matching_staleLog, by decide,
    cutFrom_piece (by decide) (by decide), cutFrom_piece (by decide) (by decide), rfl, by decide,
    rfl, rfl, rfl, rfl, rfl⟩

end Raft

end Mit6824
