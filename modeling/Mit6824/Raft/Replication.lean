import Mit6824.Raft.LogView

/-!
# AppendEntry on the whole log

What the handler does to the log a peer stands for: commands are delivered in
order up to the commit index, the entries of the message replace what was at
their indices, and the tail test may cut off what is beyond them.
-/

namespace Mit6824

open Consensus

variable {α σ : Type}

/-- The messages that deliver `count` entries of `l`, the first of them the one after index
`a`. -/
def deliveries (σ : Type) (l : List (CommandTerm α)) (a : Nat) : Nat → List (ApplyMsg α σ)
  | 0 => []
  | count + 1 =>
      match l[a]? with
      | none => []
      | some entry => ⟨true, entry.command, a + 1, none⟩ :: deliveries σ l (a + 1) count

theorem mem_deliveries {l : List (CommandTerm α)} {a count : Nat} {message : ApplyMsg α σ}
    (member : message ∈ deliveries σ l a count) :
    ∃ k entry, a ≤ k ∧ k < a + count ∧ l[k]? = some entry ∧
      message = ⟨true, entry.command, k + 1, none⟩ := by
  induction count generalizing a with
  | zero => cases member
  | succ count ih =>
      simp only [deliveries] at member
      split at member
      · cases member
      · rename_i entry found
        rcases List.mem_cons.1 member with rfl | later
        · exact ⟨a, entry, le_rfl, by omega, found, rfl⟩
        · obtain ⟨k, entry', lower, upper, found', equal⟩ := ih later
          exact ⟨k, entry', by omega, by omega, found', equal⟩

/-- The log after the entries of a message were written over it from index `p` on. -/
def overwritten (l : List (CommandTerm α)) (p : Nat) (entries : List (CommandTerm α)) :
    List (CommandTerm α) :=
  l.take p ++ entries ++ l.drop (p + entries.length)

/-- The log after a message with entries: a tail of two or more entries that ends in an earlier
term than the message is cut off. -/
def appended (l : List (CommandTerm α)) (p : Nat) (entries : List (CommandTerm α)) :
    List (CommandTerm α) :=
  if p + entries.length + 1 < l.length ∧
      lastTermOf CommandTerm.term l < lastTermOf CommandTerm.term entries then
    (overwritten l p entries).take (p + entries.length)
  else overwritten l p entries

/-- Log matching: one term at one index means one log up to that index. -/
def Matching (f l : List (CommandTerm α)) : Prop :=
  ∀ ⦃k : Nat⦄ ⦃e e' : CommandTerm α⦄, f[k]? = some e → l[k]? = some e' → e.term = e'.term →
    f.take (k + 1) = l.take (k + 1)

section Lists

variable {l entries : List (CommandTerm α)} {p : Nat}

theorem length_overwritten (bound : p ≤ l.length) :
    (overwritten l p entries).length = max (p + entries.length) l.length := by
  simp only [overwritten, List.length_append, List.length_take, List.length_drop]
  omega

theorem take_overwritten (bound : p ≤ l.length) :
    (overwritten l p entries).take (p + entries.length) = l.take p ++ entries := by
  have size : (l.take p ++ entries).length = p + entries.length := by
    simp only [List.length_append, List.length_take]
    omega
  rw [overwritten, ← size, List.take_left]

theorem lastTermOf_overwritten (longer : p + entries.length < l.length) :
    lastTermOf CommandTerm.term (overwritten l p entries) = lastTermOf CommandTerm.term l := by
  obtain ⟨last, found⟩ : ∃ last, l.getLast? = some last :=
    ⟨_, List.getLast?_eq_some_getLast (List.ne_nil_of_length_pos (by omega))⟩
  simp [lastTermOf, overwritten, List.getLast?_append, List.getLast?_drop, found,
    not_le.2 longer]

theorem take_appended (bound : p ≤ l.length) :
    (appended l p entries).take (p + entries.length) = l.take p ++ entries := by
  unfold appended
  split_ifs
  · rw [List.take_take, min_self, take_overwritten bound]
  · exact take_overwritten bound

theorem length_appended (bound : p ≤ l.length) :
    p + entries.length ≤ (appended l p entries).length := by
  unfold appended
  split_ifs
  · simp [length_overwritten bound]
  · simp [length_overwritten bound]

/-- Nothing changes up to where the message starts. -/
theorem take_appended_of_le (bound : p ≤ l.length) {k : Nat} (le : k ≤ p) :
    (appended l p entries).take k = l.take k := by
  have cut : (appended l p entries).take k =
      ((appended l p entries).take (p + entries.length)).take k := by
    rw [List.take_take, min_eq_left (by omega)]
  rw [cut, take_appended bound, List.take_append_of_le_length (by simp; omega), List.take_take,
    min_eq_left le]

/-! ## Pieces of another log -/

variable {f : List (CommandTerm α)} {q : Nat}

/-- Where the terms agree, the logs do. -/
theorem Matching.take_eq (matching : Matching f l) (bound : p ≤ f.length) (bound' : p ≤ l.length)
    (sameTerm : termAt f p = termAt l p) : f.take p = l.take p := by
  cases p with
  | zero => simp
  | succ p =>
      have found : f[p]? = some (f[p]) := List.getElem?_eq_getElem (by omega)
      have found' : l[p]? = some (l[p]) := List.getElem?_eq_getElem (by omega)
      rw [termAt_succ found, termAt_succ found'] at sameTerm
      exact matching found found' sameTerm

/-- The leader's log up to `q`, with what the follower had beyond. -/
theorem overwritten_piece (le : p ≤ q) (bound : q ≤ l.length) (same : f.take p = l.take p) :
    overwritten f p ((l.take q).drop p) = l.take q ++ f.drop q := by
  have front : f.take p ++ (l.take q).drop p = l.take q := by
    rw [same, ← min_eq_left le, ← List.take_take, min_eq_left le, List.take_append_drop]
  rw [overwritten, front]
  congr 2
  simp only [List.length_drop, List.length_take]
  omega

/-- The follower's log after a piece of the leader's log was written over it. -/
theorem appended_piece (le : p < q) (bound : q ≤ l.length) (same : f.take p = l.take p) :
    appended f p ((l.take q).drop p) =
      if q + 1 < f.length ∧ lastTermOf CommandTerm.term f < termAt l q then l.take q
      else l.take q ++ f.drop q := by
  have reaches : p + ((l.take q).drop p).length = q := by
    simp only [List.length_drop, List.length_take]
    omega
  have lastTerm : lastTermOf CommandTerm.term ((l.take q).drop p) = termAt l q := by
    have longer : ¬(l.take q).length ≤ p := by
      simp only [List.length_take]
      omega
    rw [termAt, lastTermOf, lastTermOf, List.getLast?_drop, if_neg longer]
  rw [appended, reaches, lastTerm, overwritten_piece le.le bound same]
  congr 1
  rw [List.take_append_of_le_length (by simp; omega), List.take_take, min_self]

/-- Writing a piece of another log that matches leaves the log alone if it has the piece, and
otherwise ends it with the piece, provided that nothing is left behind a replaced entry. -/
theorem appended_eq_graft (matching : Matching f l) (le : p < q) (bound : q ≤ l.length)
    (same : f.take p = l.take p)
    (ordered : ∀ e ∈ f, e.term ≤ lastTermOf CommandTerm.term f)
    (clean : f.length ≤ q ∨
      q + 1 < f.length ∧ lastTermOf CommandTerm.term f < termAt l q ∨
      ∀ {k e e'}, p ≤ k → k < q → f[k]? = some e → l[k]? = some e' → e.term = e'.term) :
    appended f p ((l.take q).drop p) = graft f (l.take q) := by
  rw [appended_piece le bound same]
  obtain ⟨q, rfl⟩ : ∃ m, q = m + 1 := ⟨q - 1, by omega⟩
  have found' : l[q]? = some (l[q]) := List.getElem?_eq_getElem (by omega)
  by_cases has : l.take (q + 1) <+: f
  · have long : q + 1 ≤ f.length := by
      have := has.length_le
      rwa [List.length_take, min_eq_left bound] at this
    have front : l.take (q + 1) = f.take (q + 1) := by
      have := take_eq_of_isPrefix has (by rw [List.length_take, min_eq_left bound] : q + 1 ≤ _)
      rwa [List.take_take, min_self] at this
    have found : f[q]? = some (f[q]) := List.getElem?_eq_getElem (by omega)
    have notCut : ¬(q + 1 + 1 < f.length ∧
        lastTermOf CommandTerm.term f < termAt l (q + 1)) := by
      rintro ⟨_, later⟩
      rw [← termAt_of_take front.symm le_rfl, termAt_succ found] at later
      exact absurd (ordered _ (List.mem_of_getElem? found)) (not_le.2 later)
    rw [graft_of_has has, if_neg notCut, front, List.take_append_drop]
  · rw [graft_of_lacks has]
    have short : f.length ≤ q + 1 → f.drop (q + 1) = [] := List.drop_eq_nil_of_le
    rcases clean with within | cuts | agree
    · rw [short within, List.append_nil, ite_self]
    · rw [if_pos cuts]
    · rcases le_or_gt f.length q with within | beyond
      · rw [short (by omega), List.append_nil, ite_self]
      · have found : f[q]? = some (f[q]) := List.getElem?_eq_getElem beyond
        have front := matching found found' (agree (by omega) (by omega) found found')
        exact absurd (front ▸ List.take_prefix _ _) has

end Lists

namespace Raft

variable {rf rf' : Raft α σ} {l : List (CommandTerm α)}

/-! ## Delivering -/

theorem deliver_spec (holds : rf.Holds l) {k : Nat} (above : rf.lastIndexInSnapshot ≤ k)
    (new : rf.commitIndex ≤ k) {entry : CommandTerm α} (found : l[k]? = some entry) :
    rf.deliver (k + 1) = some { rf with
      commitIndex := k + 1
      applyCh := rf.applyCh ++ [⟨true, entry.command, k + 1, none⟩] } := by
  have bound : k < l.length := (List.getElem?_eq_some_iff.1 found).1
  have above' : rf.lastIndexInSnapshot ≤ ((k + 1 : Nat) : Int) := by omega
  obtain ⟨entry', slot, _, same⟩ := holds.slot_at above' bound
  have equal : entry' = entry := by
    have := same (by omega)
    simpa [found] using this.symm
  subst equal
  unfold deliver
  rw [show ((k : Int) + 1) = ((k + 1 : Nat) : Int) by push_cast; rfl, slot]
  dsimp only
  rw [if_pos (by omega)]

theorem deliverSlots_spec (holds : rf.Holds l) {a count : Nat}
    (above : rf.lastIndexInSnapshot ≤ a) (committed : rf.commitIndex = a)
    (bound : a + count ≤ l.length) :
    rf.deliverSlots (a - rf.lastIndexInSnapshot) count = some { rf with
      commitIndex := a + count
      applyCh := rf.applyCh ++ deliveries σ l a count } := by
  induction count generalizing rf a with
  | zero =>
      simp only [deliverSlots_zero, deliveries, Option.some.injEq, List.append_nil]
      rw [← committed]
      simp
  | succ count ih =>
      have found : l[a]? = some (l[a]) := List.getElem?_eq_getElem (by omega)
      have delivered := deliver_spec holds above committed.le found
      have name : rf.getNameIndex (a - rf.lastIndexInSnapshot + 1) = (a : Int) + 1 := by
        simp only [getNameIndex]
        omega
      simp only [deliverSlots_succ, name, delivered]
      have position : ((a : Int) - rf.lastIndexInSnapshot + 1) =
          ((a + 1 : Nat) : Int) - rf.lastIndexInSnapshot := by
        push_cast
        omega
      rw [position]
      have holds' : Holds { rf with
          commitIndex := a + 1
          applyCh := rf.applyCh ++ [⟨true, l[a].command, a + 1, none⟩] } l := holds.congr rfl rfl
      have above' : rf.lastIndexInSnapshot ≤ ((a + 1 : Nat) : Int) := by omega
      rw [ih holds' above' (by push_cast; rfl) (by omega)]
      simp only [deliveries, found, List.append_assoc, List.singleton_append]
      congr 2
      push_cast
      omega

/-- A follower follows the leader's commit index as far as the message has checked its log. -/
theorem followCommit_spec (holds : rf.Holds l) {args : AppendEntryArgs α} {k p : Nat}
    (lower : rf.lastIndexInSnapshot ≤ k) (committed : rf.commitIndex = k)
    (prev : args.prevLogIndex = p) (le : k ≤ p) (bound : p ≤ l.length) :
    rf.followCommit args = some { rf with
      commitIndex := (max k (min p args.leaderCommit.toNat) : Nat)
      applyCh := rf.applyCh ++
        deliveries σ l k (max k (min p args.leaderCommit.toNat) - k) }.persist := by
  have length := holds.log_length
  have nonneg := holds.nonneg
  unfold followCommit
  rw [committed, prev]
  by_cases news : (k : Int) < args.leaderCommit
  · set target := min p args.leaderCommit.toNat with target_def
    have aft : (if (p : Int) < args.leaderCommit then (p : Int) else args.leaderCommit) =
        target := by
      split_ifs <;> omega
    have reached : max k target = target := by omega
    simp only [if_pos news, aft, reached]
    rw [getTrueIndex_of_le lower, getTrueIndex_of_le (by omega), if_neg (by omega),
      if_neg (by omega)]
    have count : ((target : Int) - rf.lastIndexInSnapshot - (k - rf.lastIndexInSnapshot)).toNat =
        target - k := by omega
    rw [count, deliverSlots_spec holds lower committed (by omega)]
    have target' : (k : Int) + ((target - k : Nat) : Int) = target := by omega
    simp [target']
  · have zero : rf.getTrueIndex 0 = 0 := by
      unfold getTrueIndex
      split_ifs <;> omega
    have same : max k (min p args.leaderCommit.toNat) = k := by omega
    simp only [if_neg news, zero, ite_self, lt_irrefl, if_false, same]
    simp [deliveries, ← committed]

/-! ## Writing -/

theorem overwrite_spec {startInd : Nat} {startInd' : Int} {entries : List (CommandTerm α)}
    (inside : startInd ≤ rf.log.length)
    (above : rf.commitIndex < startInd + rf.lastIndexInSnapshot)
    (written : rf.overwrite startInd entries = some (rf', startInd')) :
    rf' = { rf with
      log := rf.log.take startInd ++ entries ++ rf.log.drop (startInd + entries.length) } ∧
      startInd' = startInd + entries.length := by
  induction entries generalizing rf startInd with
  | nil =>
      obtain ⟨rfl, rfl⟩ : rf = rf' ∧ _ = startInd' := by simpa [overwrite] using written
      simp
  | cons entry rest ih =>
      simp only [overwrite, getNameIndex, not_le.2 above, if_false] at written
      split at written
      · cases written
      · set log := if (rf.log.length : Int) ≤ startInd then rf.log ++ [entry]
          else rf.log.set startInd entry with log_def
        -- One slot is written, at the end of the log or over an old one.
        have written₁ : log.take (startInd + 1) = rf.log.take startInd ++ [entry] ∧
            startInd + 1 ≤ log.length ∧
            ∀ m, startInd + 1 ≤ m → log.drop m = rf.log.drop m := by
          rw [log_def]
          split_ifs with atEnd
          · have equal : rf.log.length = startInd := by omega
            refine ⟨?_, by simp [equal], fun m le => ?_⟩
            · rw [← equal, List.take_length, List.take_of_length_le (by simp)]
            · rw [List.drop_eq_nil_of_le (by simp; omega), List.drop_eq_nil_of_le (by omega)]
          · refine ⟨?_, by simp; omega, fun m le => List.drop_set_of_lt (by omega)⟩
            rw [List.take_add_one, List.take_set_of_le le_rfl,
              List.getElem?_set_self (by omega)]
            rfl
        obtain ⟨kept, long, beyond⟩ := written₁
        have next : ((startInd : Int) + 1) = ((startInd + 1 : Nat) : Int) := by push_cast; rfl
        simp only [Int.toNat_natCast, next] at written
        obtain ⟨rfl, rfl⟩ := @ih { rf with log := log } _ long (by push_cast; omega) written
        refine ⟨?_, by push_cast; simp; omega⟩
        dsimp only
        rw [kept, beyond _ (by omega)]
        simp [Nat.add_comm, Nat.add_left_comm]

theorem cutTail_spec (holds : rf.Holds l) {q : Nat} (lower : rf.lastIndexInSnapshot ≤ q)
    (bound : q ≤ l.length) :
    rf.cutTail (q + 1 - rf.lastIndexInSnapshot) =
      if q + 1 < l.length ∧ lastTermOf CommandTerm.term l < termAt l q then
        { rf with log := rf.log.take (q + 1 - rf.lastIndexInSnapshot).toNat }
      else rf := by
  have length := holds.log_length
  obtain ⟨written, slot, term, _⟩ := holds.slot_at lower bound
  obtain ⟨last, found⟩ : ∃ last, rf.log.getLast? = some last :=
    ⟨_, List.getLast?_eq_some_getLast holds.log_ne_nil⟩
  have lastTerm : last.term = lastTermOf CommandTerm.term l := by
    rw [← holds.lastTerm]
    simp [Raft.lastTerm, found]
  have position : (q : Int) + 1 - rf.lastIndexInSnapshot - 1 = rf.getTrueIndex q := by
    rw [getTrueIndex_of_le lower]
    omega
  unfold cutTail
  rw [position, slot, found]
  dsimp only
  rw [term, lastTerm]
  have test : ((q : Int) + 1 - rf.lastIndexInSnapshot < rf.log.length - 1) ↔ q + 1 < l.length := by
    omega
  simp only [test]

/-- The slots of the overwritten log. -/
theorem slots_overwritten {sentinel : CommandTerm α} {b p : Nat} (le : b ≤ p)
    (bound : p ≤ l.length) (entries : List (CommandTerm α)) :
    (sentinel :: l.drop b).take (p + 1 - b) ++ entries ++
        (sentinel :: l.drop b).drop (p + 1 - b + entries.length) =
      sentinel :: (overwritten l p entries).drop b := by
  obtain ⟨d, rfl⟩ := Nat.exists_eq_add_of_le le
  have first : b + d + 1 - b = d + 1 := by omega
  have second : d + 1 + entries.length = (d + entries.length) + 1 := by omega
  have third : (overwritten l (b + d) entries).drop b =
      (l.drop b).take d ++ entries ++ l.drop (b + (d + entries.length)) := by
    unfold overwritten
    rw [List.append_assoc, List.drop_append_of_le_length (by simp; omega), List.drop_take,
      Nat.add_sub_cancel_left, List.append_assoc, Nat.add_assoc]
  rw [first, second, List.take_succ_cons, List.drop_succ_cons, List.drop_drop, third]
  simp

theorem writeEntries_spec (holds : rf.Holds l) {args : AppendEntryArgs α} {p : Nat}
    (prev : args.prevLogIndex = p) (committed : rf.commitIndex ≤ p)
    (lower : rf.lastIndexInSnapshot ≤ p) (bound : p ≤ l.length) (nonempty : args.entries ≠ [])
    (written : rf.writeEntries args = some rf') :
    rf'.Holds (appended l p args.entries) ∧ ∃ log, rf' = { rf with log := log }.persist := by
  obtain ⟨sentinel, slots, _⟩ := holds.slots
  have length := holds.log_length
  have nonneg := holds.nonneg
  have startInd : rf.getTrueIndex (args.prevLogIndex + 1) =
      ((p + 1 - rf.lastIndexInSnapshot.toNat : Nat) : Int) := by
    rw [prev, getTrueIndex_of_le (by omega)]
    omega
  unfold writeEntries at written
  rw [startInd] at written
  rw [if_pos (by omega)] at written
  split at written
  · cases written
  rename_i rf₁ startInd' overwrote
  obtain ⟨rfl, rfl⟩ := overwrite_spec (by omega) (by omega) overwrote
  set whole := overwritten l p args.entries with whole_def
  have size : whole.length = max (p + args.entries.length) l.length := length_overwritten bound
  rw [slots, slots_overwritten (by omega) bound, ← whole_def] at written
  have position : ((p + 1 - rf.lastIndexInSnapshot.toNat : Nat) : Int) + args.entries.length =
      ((p + args.entries.length : Nat) : Int) + 1 - rf.lastIndexInSnapshot := by omega
  rw [position] at written
  have same : ∀ {l' : List (CommandTerm α)}, l'.take p = l.take p →
      l'.take rf.lastIndexInSnapshot.toNat = l.take rf.lastIndexInSnapshot.toNat := by
    intro l' agree
    have le : rf.lastIndexInSnapshot.toNat ≤ p := by omega
    rw [← min_eq_left le, ← List.take_take, agree, List.take_take]
  have holds₁ : Holds { rf with log := sentinel :: whole.drop rf.lastIndexInSnapshot.toNat }
      whole := by
    refine holds.rewrite slots (same ?_) (by omega) rfl rfl
    rw [whole_def, overwritten, List.append_assoc, List.take_append_of_le_length (by simp; omega),
      List.take_take, min_self]
  have lastTerm : termAt whole (p + args.entries.length) =
      lastTermOf CommandTerm.term args.entries := by
    obtain ⟨last, found⟩ : ∃ last, args.entries.getLast? = some last :=
      ⟨_, List.getLast?_eq_some_getLast nonempty⟩
    rw [termAt, whole_def, take_overwritten bound]
    simp [lastTermOf, found]
  have lower₁ : rf.lastIndexInSnapshot ≤ ((p + args.entries.length : Nat) : Int) := by omega
  rw [cutTail_spec holds₁ lower₁ (by omega), lastTerm] at written
  obtain rfl := Option.some.inj written
  have test : (p + args.entries.length + 1 < whole.length ∧
      lastTermOf CommandTerm.term whole < lastTermOf CommandTerm.term args.entries) ↔
      p + args.entries.length + 1 < l.length ∧
        lastTermOf CommandTerm.term l < lastTermOf CommandTerm.term args.entries := by
    have sameLength : p + args.entries.length + 1 < whole.length ↔
        p + args.entries.length + 1 < l.length := by omega
    rw [sameLength]
    refine and_congr_right fun longer => ?_
    rw [whole_def, lastTermOf_overwritten (by omega)]
  unfold appended
  rw [← whole_def]
  by_cases cuts : p + args.entries.length + 1 < l.length ∧
      lastTermOf CommandTerm.term l < lastTermOf CommandTerm.term args.entries
  · rw [if_pos (test.2 cuts), if_pos cuts]
    refine ⟨?_, _, rfl⟩
    have agree : (whole.take (p + args.entries.length)).take p = l.take p := by
      rw [whole_def, take_overwritten bound, List.take_append_of_le_length (by simp; omega),
        List.take_take, min_self]
    refine holds.rewrite slots (same agree) (by rw [List.length_take]; omega) rfl ?_
    have slotsKept : (((p + args.entries.length : Nat) : Int) + 1 -
        rf.lastIndexInSnapshot).toNat =
        (p + args.entries.length - rf.lastIndexInSnapshot.toNat) + 1 := by omega
    change List.take _ (sentinel :: _) = _
    rw [slotsKept, List.take_succ_cons, List.drop_take]
  · rw [if_neg (mt test.1 cuts), if_neg cuts]
    exact ⟨holds₁.congr rfl rfl, _, rfl⟩

/-! ## The handler -/

/-- The peer with the term of the message and the leadership that goes with it; nothing else
about it matters for the log. -/
theorem observe_frame (rf : Raft α σ) (args : AppendEntryArgs α)
    (current : rf.currentTerm ≤ args.term) :
    ∃ leaderNum waiting persister, (rf.observeTerm args).notify 3 = { rf with
      currentTerm := args.term, leaderNum := leaderNum, aeNotifyChan := waiting
      persister := persister } ∧ persister.snapshot = rf.persister.snapshot := by
  obtain ⟨waiting, notified⟩ := notify_frame (rf.observeTerm args) 3
  rcases observeTerm_frame rf args with ⟨same, le⟩ | ⟨_, moved⟩
  · have term : rf.currentTerm = args.term := le_antisymm current le
    refine ⟨rf.leaderNum, waiting, rf.persister, ?_, rfl⟩
    rw [notified, same, ← term]
  · refine ⟨if rf.leaderNum = rf.me then args.leaderID else rf.leaderNum, waiting,
      { rf.persister with raftstate := some (args.term, rf.log) }, ?_, rfl⟩
    rw [notified, moved]
    rfl

/-- What `AppendEntry` does to a peer that stands for the log `l` and has committed `k` entries
of it: it is behind the times, it rejects the message, it tells that it has committed more than
the message knows, or it follows. -/
theorem appendEntry_spec (holds : rf.Holds l) {k : Nat} (lower : rf.lastIndexInSnapshot ≤ k)
    (committed : rf.commitIndex = k) {args : AppendEntryArgs α} {reply : AppendEntryReply}
    (handled : rf.appendEntry args = some (rf', reply)) :
    args.term < rf.currentTerm ∧ rf' = rf ∧ reply.success = false ∨
    rf.currentTerm ≤ args.term ∧ ∃ leaderNum waiting persister log commitIndex messages,
      persister.snapshot = rf.persister.snapshot ∧
      rf' = { rf with
        currentTerm := args.term, leaderNum := leaderNum, aeNotifyChan := waiting
        persister := persister, log := log, commitIndex := commitIndex
        applyCh := rf.applyCh ++ messages } ∧
      (log = rf.log ∧ commitIndex = rf.commitIndex ∧ messages = [] ∧
          (reply.success = false ∨ reply.success = true ∧ args.prevLogIndex < k ∧
            reply.commitIndex = k) ∨
        ∃ p : Nat, args.prevLogIndex = p ∧ k ≤ p ∧ p ≤ l.length ∧
          termAt l p = args.prevLogTerm ∧ reply.success = true ∧ reply.commitIndex = 0 ∧
          commitIndex = (max k (min p args.leaderCommit.toNat) : Nat) ∧
          messages = deliveries σ l k (max k (min p args.leaderCommit.toNat) - k) ∧
          rf'.Holds (if args.entries = [] then l else appended l p args.entries)) := by
  rcases appendEntry_cases handled with ⟨stale, rfl, denied⟩ | ⟨current, checked⟩
  · exact Or.inl ⟨stale, rfl, denied⟩
  refine Or.inr ⟨current, ?_⟩
  obtain ⟨leaderNum, waiting, persister, observed, snapshot⟩ := observe_frame rf args current
  rw [observed] at checked
  have holds₁ : Holds { rf with
      currentTerm := args.term, leaderNum := leaderNum, aeNotifyChan := waiting
      persister := persister } l := holds.congr rfl rfl
  rcases checkAndAppend_cases checked with
    ⟨rfl, denied⟩ | ⟨rfl, ahead, granted, told⟩ |
      ⟨notBelow, notBeyond, granted, told, ⟨entry, slot, term⟩, rf₁, followed, written⟩
  · exact ⟨leaderNum, waiting, persister, rf.log, rf.commitIndex, [], snapshot, by simp,
      Or.inl ⟨rfl, rfl, rfl, Or.inl denied⟩⟩
  · exact ⟨leaderNum, waiting, persister, rf.log, rf.commitIndex, [], snapshot, by simp,
      Or.inl ⟨rfl, rfl, rfl, Or.inr ⟨granted, committed ▸ ahead, told.trans committed⟩⟩⟩
  · obtain ⟨p, prev⟩ : ∃ p : Nat, args.prevLogIndex = p :=
      ⟨args.prevLogIndex.toNat, by simp only [committed] at notBelow; omega⟩
    have le : k ≤ p := by
      simp only [committed] at notBelow
      omega
    have bound : p ≤ l.length := by
      rw [holds₁.getLastLogIndex] at notBeyond
      omega
    have above : rf.lastIndexInSnapshot ≤ p := by omega
    have term' : termAt l p = args.prevLogTerm := by
      obtain ⟨entry', slot', term', _⟩ := holds₁.slot_at above bound
      rw [prev, slot'] at slot
      obtain rfl := Option.some.inj slot
      rw [← term', term]
    have spec := followCommit_spec holds₁ lower committed prev le bound
    rw [spec] at followed
    obtain rfl := Option.some.inj followed
    rcases written with ⟨heartbeat, rfl⟩ | ⟨nonempty, written⟩
    · refine ⟨leaderNum, waiting, ⟨some (args.term, rf.log), persister.snapshot⟩, rf.log, _, _,
        snapshot, rfl, Or.inr ⟨p, prev, le, bound, term', granted, told, rfl, rfl, ?_⟩⟩
      rw [if_pos heartbeat]
      exact holds.congr rfl rfl
    · have holds₂ : Holds (persist { rf with
          currentTerm := args.term, leaderNum := leaderNum, aeNotifyChan := waiting
          persister := persister
          commitIndex := (max k (min p args.leaderCommit.toNat) : Nat)
          applyCh := rf.applyCh ++
            deliveries σ l k (max k (min p args.leaderCommit.toNat) - k) }) l :=
        holds.congr rfl rfl
      obtain ⟨holds', log, rfl⟩ := writeEntries_spec holds₂ prev
        (by simp only [persist]; omega) above bound nonempty written
      refine ⟨leaderNum, waiting, ⟨some (args.term, log), persister.snapshot⟩, log, _, _,
        snapshot, rfl, Or.inr ⟨p, prev, le, bound, term', granted, told, rfl, rfl, ?_⟩⟩
      rwa [if_neg nonempty]

end Raft

end Mit6824
