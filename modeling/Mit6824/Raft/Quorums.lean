import Mathlib.Data.Finset.Card
import Mathlib.Data.Fintype.Card
import Mathlib.Data.List.Sort
import Mit6824.Raft.Server

/-!
# Quorums

A candidate wins with the votes of a set of servers, its own included; a leader commits what the
servers whose match index reaches the median have. `wins_iff` says which sets win: those with
`quorum n` members. Two of them meet, and each of them meets the servers that reach the median,
exactly if `n < 2 * quorum n`, which is so for two servers and for an odd number of them.
-/

namespace Mit6824

/-! ## Medians -/

section Median

variable {β : Type} [LinearOrder β] {values : List β} {median value : β} {k : Nat}

/-- The element at a position of the sorted list is reached by itself and all that come after. -/
theorem length_sub_le_countP (picked : (values.insertionSort (· ≤ ·))[k]? = some median) :
    values.length - k ≤ values.countP (median ≤ ·) := by
  set sorted := values.insertionSort (· ≤ ·) with sorted_def
  obtain ⟨inside, found⟩ := List.getElem?_eq_some_iff.1 picked
  have reach : ∀ x ∈ sorted.drop k, decide (median ≤ x) = true := by
    intro x member
    obtain ⟨j, _, equal⟩ := List.mem_drop_iff_getElem.1 member
    rw [← equal, ← found, decide_eq_true_eq]
    exact List.sortedLE_insertionSort.getElem_le_getElem_of_le (Nat.le_add_right k j)
  calc values.length - k = (sorted.drop k).length := by
        rw [List.length_drop, sorted_def, List.length_insertionSort]
    _ = (sorted.drop k).countP (median ≤ ·) := (List.countP_eq_length.2 reach).symm
    _ ≤ sorted.countP (median ≤ ·) := (List.drop_sublist k sorted).countP_le
    _ = values.countP (median ≤ ·) := (List.perm_insertionSort _ values).countP_eq _

/-- Above the element at a position of the sorted list there is at most what comes after it. -/
theorem countP_le_of_lt (picked : (values.insertionSort (· ≤ ·))[k]? = some median)
    (above : median < value) : values.countP (value ≤ ·) ≤ values.length - (k + 1) := by
  set sorted := values.insertionSort (· ≤ ·) with sorted_def
  obtain ⟨inside, found⟩ := List.getElem?_eq_some_iff.1 picked
  have below : (sorted.take (k + 1)).countP (value ≤ ·) = 0 := by
    rw [List.countP_eq_zero]
    intro x member
    obtain ⟨j, bound, equal⟩ := List.mem_take_iff_getElem.1 member
    have low : sorted[j] ≤ sorted[k] :=
      List.sortedLE_insertionSort.getElem_le_getElem_of_le (by omega)
    rw [equal, found] at low
    rw [decide_eq_true_eq, not_le]
    exact lt_of_le_of_lt low above
  calc values.countP (value ≤ ·) = sorted.countP (value ≤ ·) :=
        ((List.perm_insertionSort _ values).countP_eq _).symm
    _ = (sorted.take (k + 1)).countP (value ≤ ·) + (sorted.drop (k + 1)).countP (value ≤ ·) := by
        rw [← List.countP_append, List.take_append_drop]
    _ ≤ (sorted.drop (k + 1)).length := by
        rw [below, Nat.zero_add]
        exact List.countP_le_length
    _ = values.length - (k + 1) := by
        rw [List.length_drop, sorted_def, List.length_insertionSort]

end Median

/-- The servers whose value is at least this one. -/
def reaching {n : Nat} (values : List Int) (value : Int) : Finset (Fin n) :=
  Finset.univ.filter fun j => (values[j.val]?).any (value ≤ ·)

theorem card_reaching {n : Nat} {values : List Int} (size : values.length = n) (value : Int) :
    (reaching values value : Finset (Fin n)).card = values.countP (value ≤ ·) := by
  subst size
  have counted : values.countP (value ≤ ·) =
      (List.finRange values.length).countP fun j => (values[j.val]?).any (value ≤ ·) := by
    conv_lhs => rw [← List.map_getElem_finRange values, List.countP_map]
    congr 1
    funext j
    simp
  rw [counted, List.countP_eq_length_filter,
    ← List.toFinset_card_of_nodup ((List.nodup_finRange _).filter _), List.toFinset_filter,
    List.toFinset_finRange, reaching]

/-! ## The votes that win -/

variable {n : Nat} {α σ : Type}

namespace Server

/-- The candidate takes the replies one after the other and declares victory at one of them. -/
def declares (server : Server n α σ) : List (Fin n × RequestVoteReply) → Bool
  | [] => false
  | (peer, reply) :: rest =>
      match server.voteReply peer reply with
      | none => false
      | some (server', output) => output.won.isSome || server'.declares rest

/-- The votes of these servers make one of them win a round that it starts. -/
def Wins (α σ : Type) (voters : Finset (Fin n)) : Prop :=
  ∃ i ∈ voters, ∃ (server server' : Server n α σ) (output : Output n α σ)
    (replies : List (Fin n × RequestVoteReply)),
    server.startRound i = some (server', output) ∧ (replies.map Prod.fst).Nodup ∧
      (replies.map Prod.fst).toFinset = voters.erase i ∧
      (∀ reply ∈ replies, reply.2.voteGranted = true) ∧ server'.declares replies = true

end Server

/-- The number of votes that win. The count is looked at after a vote of another server only. -/
def quorum (n : Nat) : Nat := max 2 (majority n)

namespace Server

variable {server : Server n α σ} {round : Round n} {peer : Fin n} {reply : RequestVoteReply}
variable {rest replies : List (Fin n × RequestVoteReply)}

theorem declares_of_roundOver (phase : server.phase = .roundOver) (replies) :
    server.declares replies = false := by
  cases replies with
  | nil => rfl
  | cons first rest => simp [declares, voteReply, phase]

/-- What one more vote comes to. -/
theorem declares_cons (phase : server.phase = .candidate round) (new : peer ∉ round.answered)
    (granted : reply.voteGranted = true) :
    server.declares ((peer, reply) :: rest) =
      (decide (majority n ≤ round.granted + 1) ||
        !decide (server.rf.currentTerm < reply.term) &&
        Server.declares { server with
          phase := .candidate { round with
            granted := round.granted + 1, answered := peer :: round.answered } } rest) := by
  by_cases enough : majority n ≤ round.granted + 1
  · simp [declares, voteReply, phase, new, granted, enough]
  · by_cases outdated : server.rf.currentTerm < reply.term
    · simp [declares, voteReply, phase, new, granted, enough, outdated, declares_of_roundOver]
    · simp [declares, voteReply, phase, new, granted, enough, outdated]

theorem le_of_declares (phase : server.phase = .candidate round)
    (granted : ∀ reply ∈ replies, reply.2.voteGranted = true)
    (declares : server.declares replies = true) :
    replies ≠ [] ∧ majority n ≤ round.granted + replies.length := by
  induction replies generalizing server round with
  | nil => cases declares
  | cons first rest ih =>
      obtain ⟨peer, reply⟩ := first
      refine ⟨List.cons_ne_nil _ _, ?_⟩
      by_cases new : peer ∈ round.answered
      · simp [Server.declares, voteReply, phase, new] at declares
      rw [declares_cons phase new (granted _ List.mem_cons_self), Bool.or_eq_true,
        Bool.and_eq_true] at declares
      rw [List.length_cons]
      rcases declares with enough | ⟨_, later⟩
      · have := of_decide_eq_true enough
        omega
      · have := (ih rfl (fun reply member => granted reply (List.mem_cons_of_mem _ member)) later).2
        dsimp only at this
        omega

theorem declares_of_le (phase : server.phase = .candidate round)
    (distinct : (replies.map Prod.fst).Nodup)
    (new : ∀ reply ∈ replies, reply.1 ∉ round.answered)
    (granted : ∀ reply ∈ replies, reply.2.voteGranted = true)
    (old : ∀ reply ∈ replies, reply.2.term ≤ server.rf.currentTerm) (nonempty : replies ≠ [])
    (enough : majority n ≤ round.granted + replies.length) : server.declares replies = true := by
  induction replies generalizing server round with
  | nil => exact absurd rfl nonempty
  | cons first rest ih =>
      obtain ⟨peer, reply⟩ := first
      simp only [List.forall_mem_cons] at new granted old
      rw [List.map_cons, List.nodup_cons] at distinct
      rw [declares_cons phase new.1 granted.1, Bool.or_eq_true, Bool.and_eq_true]
      by_cases now : majority n ≤ round.granted + 1
      · exact Or.inl (decide_eq_true now)
      · right
        refine ⟨by simpa using old.1, ih rfl distinct.2 ?_ granted.2 old.2 ?_ ?_⟩
        · intro later member
          rw [List.mem_cons, not_or]
          refine ⟨fun same => distinct.1 ?_, new.2 later member⟩
          have peerOf := List.mem_map_of_mem (f := Prod.fst) member
          rwa [same] at peerOf
        · rintro rfl
          rw [List.length_singleton] at enough
          exact now enough
        · rw [List.length_cons] at enough
          dsimp only
          omega

/-- The sets that win are those with enough members. -/
theorem wins_iff {voters : Finset (Fin n)} : Wins α σ voters ↔ quorum n ≤ voters.card := by
  constructor
  · rintro ⟨i, member, server, server', output, replies, started, distinct, from', granted, won⟩
    have size : replies.length = voters.card - 1 := by
      rw [← Finset.card_erase_of_mem member, ← from', List.toFinset_card_of_nodup distinct,
        List.length_map]
    obtain ⟨args, phase⟩ : ∃ args, server'.phase = .candidate ⟨args, 1, []⟩ := by
      unfold startRound at started
      split at started
      · obtain ⟨rfl, _⟩ := Prod.mk.inj (Option.some.inj started)
        exact ⟨_, rfl⟩
      · cases started
    obtain ⟨nonempty, enough⟩ := le_of_declares phase granted won
    have := List.length_pos_of_ne_nil nonempty
    have := Finset.card_pos.2 ⟨i, member⟩
    dsimp only at enough
    exact max_le (by omega) (by omega)
  · intro enough
    have two : 2 ≤ voters.card := le_trans (le_max_left _ _) enough
    have most : majority n ≤ voters.card := le_trans (le_max_right _ _) enough
    obtain ⟨i, member⟩ := Finset.card_pos.1 (show 0 < voters.card by omega)
    have size : (voters.erase i).toList.length = voters.card - 1 := by
      rw [Finset.length_toList, Finset.card_erase_of_mem member]
    set replies : List (Fin n × RequestVoteReply) :=
      (voters.erase i).toList.map fun peer => (peer, ⟨0, true⟩) with replies_def
    have peers : replies.map Prod.fst = (voters.erase i).toList := by
      rw [replies_def, List.map_map]
      exact List.map_id _
    have same : ∀ reply ∈ replies, reply.2 = ⟨0, true⟩ := by
      rw [replies_def, List.forall_mem_map]
      exact fun _ _ => rfl
    have distinct : (replies.map Prod.fst).Nodup := peers ▸ Finset.nodup_toList _
    have granted : ∀ reply ∈ replies, reply.2.voteGranted = true :=
      fun reply given => by rw [same reply given]
    have length : replies.length = voters.card - 1 := by
      rw [replies_def, List.length_map, size]
    refine ⟨i, member, boot i (makePersister α σ) [], _, _, replies, rfl, distinct,
      by rw [peers, Finset.toList_toFinset], granted, ?_⟩
    refine declares_of_le rfl distinct (fun _ _ => List.not_mem_nil) granted ?_ ?_ ?_
    · intro reply given
      rw [same reply given]
      exact le_rfl
    · exact List.ne_nil_of_length_pos (by omega)
    · dsimp only
      omega

end Server

/-! ## What meets what -/

/-- Two sets of servers that are together more than there are have a member in common. -/
theorem inter_nonempty {left right : Finset (Fin n)} (many : n < left.card + right.card) :
    (left ∩ right).Nonempty := by
  refine Finset.inter_nonempty_of_card_lt_card_add_card (Finset.subset_univ left)
    (Finset.subset_univ right) ?_
  rwa [Finset.card_univ, Fintype.card_fin]

/-- Two sets of a size without a common member. -/
theorem exists_disjoint (size : Nat) (few : 2 * size ≤ n) :
    ∃ left right : Finset (Fin n), left.card = size ∧ right.card = size ∧ left ∩ right = ∅ := by
  obtain ⟨left, _, leftCard⟩ := Finset.exists_subset_card_eq
    (show size ≤ (Finset.univ : Finset (Fin n)).card by
      rw [Finset.card_univ, Fintype.card_fin]
      omega)
  obtain ⟨right, apart, rightCard⟩ := Finset.exists_subset_card_eq
    (show size ≤ leftᶜ.card by
      rw [Finset.card_compl, Fintype.card_fin]
      omega)
  refine ⟨left, right, leftCard, rightCard, Finset.disjoint_iff_inter_eq_empty.1 ?_⟩
  exact Finset.disjoint_left.2 fun j inLeft inRight =>
    Finset.mem_compl.1 (apart inRight) inLeft

/-- The sizes for which a quorum is more than half. -/
theorem lt_two_mul_quorum_iff (two : 2 ≤ n) (small : n + 1 < 2 ^ 24) :
    n < 2 * quorum n ↔ n = 2 ∨ n % 2 = 1 := by
  rw [quorum, majority_eq small]
  omega

namespace Raft

variable {rf : Raft α σ}

/-- The median is reached by half of the servers at least, and no greater value by more than
half. -/
theorem toBeCommitIndex_spec (size : rf.matchIndex.length = n) (positive : 0 < n) :
    ∃ median, rf.toBeCommitIndex = some median ∧
      n - n / 2 ≤ (reaching rf.matchIndex median : Finset (Fin n)).card ∧
      ∀ value, median < value →
        2 * (reaching rf.matchIndex value : Finset (Fin n)).card ≤ n := by
  have inside : rf.matchIndex.length / 2 <
      (rf.matchIndex.insertionSort (· ≤ ·)).length := by
    rw [List.length_insertionSort, size]
    omega
  have picked := List.getElem?_eq_getElem inside
  refine ⟨_, picked, ?_, fun value above => ?_⟩
  · have := length_sub_le_countP picked
    rwa [card_reaching size, ← size]
  · have := countP_le_of_lt picked above
    rw [size] at this
    rw [card_reaching size]
    omega

end Raft

open Server in
/-- For every number of servers from two on: a winning set and the servers that reach the median
of the match indexes always have a common member, so do two winning sets, and no value above the
median is reached by a strict majority, if and only if two quorums are more than there are servers.
In clusters that a `float32` can count these are the odd ones and the one of two. -/
theorem quorums_meet_iff (n : Nat) (α σ : Type) (two : 2 ≤ n) :
    (((∀ rf : Raft α σ, rf.matchIndex.length = n → ∃ median, rf.toBeCommitIndex = some median ∧
          (∀ voters : Finset (Fin n), Wins α σ voters →
            (voters ∩ reaching rf.matchIndex median).Nonempty) ∧
          ∀ value, median < value →
            ¬n < 2 * (reaching rf.matchIndex value : Finset (Fin n)).card) ∧
        ∀ voters voters' : Finset (Fin n), Wins α σ voters → Wins α σ voters' →
          (voters ∩ voters').Nonempty) ↔ n < 2 * quorum n) ∧
      (n + 1 < 2 ^ 24 → (n < 2 * quorum n ↔ n = 2 ∨ n % 2 = 1)) := by
  refine ⟨⟨fun ⟨_, meet⟩ => ?_, fun most => ⟨fun rf size => ?_, fun voters voters' won won' => ?_⟩⟩,
    lt_two_mul_quorum_iff two⟩
  · by_contra few
    obtain ⟨left, right, leftCard, rightCard, apart⟩ :=
      exists_disjoint (n := n) (quorum n) (by omega)
    have common := meet left right (wins_iff.2 leftCard.ge) (wins_iff.2 rightCard.ge)
    exact common.ne_empty apart
  · obtain ⟨median, picked, half, above⟩ := Raft.toBeCommitIndex_spec size (by omega)
    refine ⟨median, picked, fun voters won => ?_,
      fun value greater => not_lt.2 (above value greater)⟩
    have enough := wins_iff.1 won
    exact inter_nonempty (by omega)
  · have enough := wins_iff.1 won
    have enough' := wins_iff.1 won'
    exact inter_nonempty (by omega)

theorem quorums_meet_iff_five : 5 < 2 * quorum 5 ↔ 5 = 2 ∨ 5 % 2 = 1 :=
  (quorums_meet_iff 5 Nat Unit (by decide)).2 (by decide)

/-- Of four servers two can win without the other two, which can win as well, and which may be
the only ones that have what is committed. -/
theorem four_servers_split :
    (∀ rf : Raft Nat Unit, rf.matchIndex = [0, 0, 7, 7] → rf.toBeCommitIndex = some 7) ∧
      Server.Wins Nat Unit ({0, 1} : Finset (Fin 4)) ∧
      Server.Wins Nat Unit ({2, 3} : Finset (Fin 4)) ∧
      ({0, 1} ∩ {2, 3} : Finset (Fin 4)) = ∅ ∧
      ({0, 1} ∩ reaching [0, 0, 7, 7] 7 : Finset (Fin 4)) = ∅ := by
  refine ⟨fun rf matched => ?_, Server.wins_iff.2 (by decide), Server.wins_iff.2 (by decide),
    by decide, by decide⟩
  rw [Raft.toBeCommitIndex, matched]
  decide

end Mit6824
