import Mathlib.Data.List.Induction
import Mit6824.Raft.Leader

/-!
# The list of terms and the snapshot

`makeTermIndex` goes through the log from its end and notes the slot at which each run of equal
terms begins. On a log in order that is the last slot of each term, later terms first
(`mem_termIndexFrom`). `LeaderProcess` compares what it finds there with absolute indexes, but
the list holds slots: the two are the same only without a snapshot
(`Raft.makeTermIndex_absolute_iff`).
-/

namespace Mit6824

namespace Raft

variable {α σ : Type}

/-- Slot `p` has the last entry of the term. -/
def IsLastSlot (log : List (CommandTerm α)) (term : Int) (p : Nat) : Prop :=
  (∃ entry, log[p]? = some entry ∧ entry.term = term) ∧
    ∀ q entry, p < q → log[q]? = some entry → entry.term ≠ term

theorem IsLastSlot.unique {log : List (CommandTerm α)} {term : Int} {p q : Nat}
    (last : IsLastSlot log term p) (last' : IsLastSlot log term q) : p = q := by
  obtain ⟨⟨entry, found, same⟩, none⟩ := last
  obtain ⟨⟨entry', found', same'⟩, none'⟩ := last'
  rcases lt_trichotomy p q with before | equal | behind
  · exact absurd same' (none q entry' before found')
  · exact equal
  · exact absurd same (none' p entry behind found)

/-- One more entry at the end. -/
theorem isLastSlot_append {log : List (CommandTerm α)} {entry : CommandTerm α} {term : Int}
    {p : Nat} : IsLastSlot (log ++ [entry]) term p ↔
      (entry.term = term ∧ p = log.length) ∨ (entry.term ≠ term ∧ IsLastSlot log term p) := by
  have last : (log ++ [entry])[log.length]? = some entry := by simp
  have before : ∀ {q}, q < log.length → (log ++ [entry])[q]? = log[q]? :=
    fun inside => List.getElem?_append_left inside
  have beyond : ∀ {q}, log.length < q → (log ++ [entry])[q]? = none :=
    fun outside => List.getElem?_eq_none (by simp; omega)
  have inside : ∀ {q entry'}, log[q]? = some entry' → q < log.length :=
    fun found => (List.getElem?_eq_some_iff.1 found).1
  constructor
  · rintro ⟨⟨entry', found, same⟩, none⟩
    rcases lt_trichotomy p log.length with here | rfl | outside
    · refine Or.inr ⟨none _ _ here last, ⟨entry', before here ▸ found, same⟩, ?_⟩
      exact fun q other later found' => none q other later (before (inside found') ▸ found')
    · obtain rfl := Option.some.inj (last.symm.trans found)
      exact Or.inl ⟨same, rfl⟩
    · cases (beyond outside).symm.trans found
  · rintro (⟨same, rfl⟩ | ⟨other, ⟨entry', found, same⟩, none⟩)
    · refine ⟨⟨entry, last, same⟩, fun q _ later found => ?_⟩
      cases (beyond later).symm.trans found
    · refine ⟨⟨entry', before (inside found) ▸ found, same⟩, fun q next later found' => ?_⟩
      rcases lt_trichotomy q log.length with here | rfl | outside
      · exact none q next later (before here ▸ found')
      · obtain rfl := Option.some.inj (last.symm.trans found')
        exact other
      · cases (beyond outside).symm.trans found'

theorem IsLastSlot.exists_entry {log : List (CommandTerm α)} {term : Int} {i p : Nat}
    (last : IsLastSlot (log.take i) term p) :
    p < i ∧ ∃ entry, log[p]? = some entry ∧ entry.term = term := by
  obtain ⟨⟨entry, found, same⟩, _⟩ := last
  rw [List.getElem?_take] at found
  split_ifs at found with below
  exact ⟨below, entry, found, same⟩

theorem exists_isLastSlot {log : List (CommandTerm α)} {entry : CommandTerm α}
    (member : entry ∈ log) : ∃ p, IsLastSlot log entry.term p := by
  induction log using List.reverseRecOn with
  | nil => cases member
  | append_singleton log last ih =>
      simp only [isLastSlot_append]
      by_cases same : last.term = entry.term
      · exact ⟨_, Or.inl ⟨same, rfl⟩⟩
      · have before : entry ∈ log := by
          rcases List.mem_append.1 member with before | here
          · exact before
          · exact absurd (List.mem_singleton.1 here ▸ rfl) same
        obtain ⟨p, slot⟩ := ih before
        exact ⟨p, Or.inr ⟨same, slot⟩⟩

section Loop

variable {log : List (CommandTerm α)}

theorem term_le_of_sorted (sorted : (log.map CommandTerm.term).Pairwise (· ≤ ·)) {p q : Nat}
    {earlier later : CommandTerm α} (before : p < q) (found : log[p]? = some earlier)
    (found' : log[q]? = some later) : earlier.term ≤ later.term := by
  obtain ⟨within, rfl⟩ := List.getElem?_eq_some_iff.1 found
  obtain ⟨within', rfl⟩ := List.getElem?_eq_some_iff.1 found'
  exact List.pairwise_iff_getElem.1 (List.pairwise_map.1 sorted) p q within within' before

/-- What the loop notes when it goes through the slots below `i`: the last of these slots for each
term other than the current one. -/
theorem mem_termIndexFrom (sorted : (log.map CommandTerm.term).Pairwise (· ≤ ·))
    (curLastTerm : Int) (i : Nat)
    (bound : ∀ p < i, ∀ entry, log[p]? = some entry → entry.term ≤ curLastTerm)
    (index : TermIndex) :
    index ∈ termIndexFrom log curLastTerm i ↔
      ∃ p : Nat, index.lastIndexOfTerm = p ∧ index.term ≠ curLastTerm ∧
        IsLastSlot (log.take i) index.term p := by
  induction i generalizing curLastTerm with
  | zero => simp [termIndexFrom, IsLastSlot]
  | succ i ih =>
      have bound' : ∀ p < i, ∀ entry, log[p]? = some entry → entry.term ≤ curLastTerm :=
        fun p below => bound p (Nat.lt_succ_of_lt below)
      rw [termIndexFrom]
      cases found : log[i]? with
      | none =>
          have short : log.length ≤ i := List.getElem?_eq_none_iff.1 found
          dsimp only
          rw [ih curLastTerm bound', List.take_of_length_le short,
            List.take_of_length_le (Nat.le_succ_of_le short)]
      | some entry =>
          have length : (log.take i).length = i := by
            rw [List.length_take]
            exact Nat.min_eq_left (List.getElem?_eq_some_iff.1 found).1.le
          have grown : log.take (i + 1) = log.take i ++ [entry] := by
            rw [List.take_add_one, found]
            rfl
          simp only [grown, isLastSlot_append, length]
          have here := bound i (Nat.lt_succ_self i) entry found
          have earlier : ∀ p < i, ∀ entry', log[p]? = some entry' → entry'.term ≤ entry.term :=
            fun p below entry' found' => term_le_of_sorted sorted below found' found
          split_ifs with new
          · -- The slot is noted, and the terms below it are smaller than the current one.
            rw [List.mem_cons, ih entry.term earlier]
            constructor
            · rintro (rfl | ⟨p, slot, other, last⟩)
              · exact ⟨i, rfl, new, Or.inl ⟨rfl, rfl⟩⟩
              · obtain ⟨below, entry', found', same⟩ := last.exists_entry
                have smaller := earlier p below entry' found'
                exact ⟨p, slot, by omega, Or.inr ⟨Ne.symm other, last⟩⟩
            · rintro ⟨p, slot, _, ⟨same, rfl⟩ | ⟨other, last⟩⟩
              · left
                cases index
                simp_all
              · exact Or.inr ⟨p, slot, Ne.symm other, last⟩
          · rw [not_not] at new
            rw [ih curLastTerm bound']
            refine exists_congr fun p => and_congr_right fun _ => and_congr_right fun other => ?_
            simp [new, Ne.symm other]

/-- The terms come later ones first. -/
theorem pairwise_termIndexFrom (sorted : (log.map CommandTerm.term).Pairwise (· ≤ ·))
    (curLastTerm : Int) (i : Nat)
    (bound : ∀ p < i, ∀ entry, log[p]? = some entry → entry.term ≤ curLastTerm) :
    (termIndexFrom log curLastTerm i).Pairwise fun first second => second.term < first.term := by
  fun_induction termIndexFrom log curLastTerm i with
  | case1 => exact .nil
  | case2 curLastTerm i _ ih => exact ih fun p below => bound p (Nat.lt_succ_of_lt below)
  | case3 curLastTerm i entry found new ih =>
      have earlier : ∀ p < i, ∀ entry', log[p]? = some entry' → entry'.term ≤ entry.term :=
        fun p below entry' found' => term_le_of_sorted sorted below found' found
      refine List.pairwise_cons.2 ⟨fun index member => ?_, ih earlier⟩
      obtain ⟨p, _, other, last⟩ :=
        (mem_termIndexFrom sorted entry.term i earlier index).1 member
      obtain ⟨below, entry', found', same⟩ := last.exists_entry
      have smaller := earlier p below entry' found'
      exact lt_of_le_of_ne (same ▸ smaller) other
  | case4 curLastTerm i _ _ _ ih => exact ih fun p below => bound p (Nat.lt_succ_of_lt below)

end Loop

/-- `makeTermIndex` on a log in order lists each term of the log once, later terms first. What it
lists with a term is the absolute index of its last entry exactly if there is no snapshot. -/
theorem makeTermIndex_absolute_iff (rf : Raft α σ) (nonempty : rf.log ≠ [])
    (sorted : (rf.log.map CommandTerm.term).Pairwise (· ≤ ·)) :
    ∃ termList, rf.makeTermIndex = some termList ∧
      (termList.Pairwise fun first second => second.term < first.term) ∧
      (∀ term, (∃ index ∈ termList, index.term = term) ↔
        ∃ entry ∈ rf.log, entry.term = term) ∧
      ((∀ index ∈ termList, ∃ p : Nat, IsLastSlot rf.log index.term p ∧
          index.lastIndexOfTerm = rf.getNameIndex p) ↔ rf.lastIndexInSnapshot = 0) := by
  have below : ∀ {p : Nat} {entry : CommandTerm α}, rf.log[p]? = some entry →
      entry.term < (rf.log.getLast nonempty).term + 1 := by
    intro p entry found
    have last : rf.log[rf.log.length - 1]? = some (rf.log.getLast nonempty) := by
      rw [← List.getLast?_eq_getElem?, List.getLast?_eq_some_getLast nonempty]
    have inside := (List.getElem?_eq_some_iff.1 found).1
    rcases (Nat.le_sub_one_of_lt inside).eq_or_lt with here | before
    · obtain rfl := Option.some.inj ((here ▸ found).symm.trans last)
      exact Int.lt_succ _
    · exact Int.lt_add_one_of_le (term_le_of_sorted sorted before found last)
  have bound : ∀ p < rf.log.length, ∀ entry, rf.log[p]? = some entry →
      entry.term ≤ (rf.log.getLast nonempty).term + 1 :=
    fun _ _ _ found => (below found).le
  have listed : ∀ index, index ∈ termIndexFrom rf.log ((rf.log.getLast nonempty).term + 1)
      rf.log.length ↔ ∃ p : Nat, index.lastIndexOfTerm = p ∧ IsLastSlot rf.log index.term p := by
    intro index
    rw [mem_termIndexFrom sorted _ _ bound, List.take_length]
    refine exists_congr fun p => and_congr_right fun _ => and_iff_right_of_imp fun last => ?_
    obtain ⟨entry, found, same⟩ := last.1
    exact same ▸ (below found).ne
  refine ⟨_, by rw [makeTermIndex, List.getLast?_eq_some_getLast nonempty, Option.map_some],
    pairwise_termIndexFrom sorted _ _ bound, ?_, ?_⟩
  · intro term
    constructor
    · rintro ⟨index, member, rfl⟩
      obtain ⟨p, _, ⟨entry, found, same⟩, _⟩ := (listed index).1 member
      exact ⟨entry, List.mem_of_getElem? found, same⟩
    · rintro ⟨entry, member, rfl⟩
      obtain ⟨p, last⟩ := exists_isLastSlot member
      exact ⟨⟨entry.term, p⟩, (listed _).2 ⟨p, rfl, last⟩, rfl⟩
  · constructor
    · intro absolute
      obtain ⟨p, last⟩ := exists_isLastSlot (List.getLast_mem nonempty)
      obtain ⟨q, last', index⟩ := absolute ⟨(rf.log.getLast nonempty).term, p⟩
        ((listed _).2 ⟨p, rfl, last⟩)
      obtain rfl := last.unique last'
      dsimp only [getNameIndex] at index
      omega
    · intro noSnapshot index member
      obtain ⟨p, slot, last⟩ := (listed index).1 member
      exact ⟨p, last, by rw [slot, getNameIndex, noSnapshot, Int.add_zero]⟩

/-- A peer whose log starts with the entry at index `base`. -/
def peerAt (base : Int) : Raft Nat Unit :=
  { make 3 0 (makePersister Nat Unit) [] with
    log := [⟨none, 1⟩, ⟨some 7, 1⟩, ⟨some 8, 2⟩], lastIndexInSnapshot := base }

theorem makeTermIndex_absolute_iff_peerAt :
    ∃ termList, (peerAt 0).makeTermIndex = some termList ∧
      ∀ index ∈ termList, ∃ p : Nat, IsLastSlot (peerAt 0).log index.term p ∧
        index.lastIndexOfTerm = (peerAt 0).getNameIndex p := by
  obtain ⟨termList, made, _, _, absolute⟩ :=
    makeTermIndex_absolute_iff (peerAt 0) (by decide) (by decide)
  exact ⟨termList, made, absolute.2 rfl⟩

/-- After a snapshot at index `2` the entry of term `2` has the index `4`; the list says `2`. -/
theorem makeTermIndex_lists_slots :
    (peerAt 2).makeTermIndex = some [⟨2, 2⟩, ⟨1, 1⟩] ∧ IsLastSlot (peerAt 2).log 2 2 ∧
      (peerAt 2).getNameIndex 2 = 4 := by
  refine ⟨by decide, ⟨⟨⟨some 8, 2⟩, rfl, rfl⟩, fun q entry later found => ?_⟩, by decide⟩
  have none : (peerAt 2).log[q]? = none := List.getElem?_eq_none later
  cases none.symm.trans found

end Raft

end Mit6824
