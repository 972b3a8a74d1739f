import Mathlib.Data.Finset.Card
import Mathlib.Data.Finset.Range
import Mit6824.Lanes
import Mit6824.Linearizability.Bitset
import Mit6824.Runs

/-!
# Bit sets as finite sets

A bit set for `n` positions stands for a finite set of numbers below `n`: `set` inserts, `clear`
erases, `popcnt` is the cardinality and `equals` the equality of sets. The count adds the bits of
a word in parallel, in lanes of two, four and eight bits, and collects the eight bytes by one
multiplication that wraps around.
-/

namespace Mit6824.Linearizability.Bitset

open Lanes

/-! ## Counting the bits of a word -/

theorem laneSum_twos (v : BitVec 64) :
    laneSum 2 32 ((v &&& 0x5555555555555555) + (v &&& 0xAAAAAAAAAAAAAAAA) >>> 1).toNat =
      laneSum 1 64 v.toNat :=
  laneSum_word (w := 1) (k := 32) (by decide) rfl v _ _ (by decide) (by decide)

theorem laneSum_fours (v : BitVec 64) :
    laneSum 4 16 ((v &&& 0x3333333333333333) + (v &&& 0xCCCCCCCCCCCCCCCC) >>> 2).toNat =
      laneSum 2 32 v.toNat :=
  laneSum_word (w := 2) (k := 16) (by decide) rfl v _ _ (by decide) (by decide)

theorem laneSum_bytes (v : BitVec 64) :
    laneSum 8 8 ((v &&& 0x0F0F0F0F0F0F0F0F) + (v &&& 0xF0F0F0F0F0F0F0F0) >>> 4).toNat =
      laneSum 4 16 v.toNat :=
  laneSum_word (w := 4) (k := 8) (by decide) rfl v _ _ (by decide) (by decide)

theorem toNat_topByte (v : BitVec 64) (room : laneSum 8 8 v.toNat < 2 ^ 8) :
    ((v * 0x0101010101010101) >>> 56 &&& 0xFF).toNat = laneSum 8 8 v.toNat := by
  have top : ((v * 0x0101010101010101) >>> 56).toNat = laneSum 8 8 v.toNat :=
    top_word (w := 8) (k := 7) rfl v _ (by decide) room
  have byte : (0xFF : BitVec 64).toNat = 2 ^ 8 - 1 := by decide
  rw [BitVec.toNat_and, top, byte, Nat.and_two_pow_sub_one_eq_mod, Nat.mod_eq_of_lt room]

theorem toNat_popcntWord (v : BitVec 64) :
    (popcntWord v).toNat = (List.range 64).countP v.getLsbD := by
  have bits : laneSum 1 64 v.toNat = (List.range 64).countP v.getLsbD := laneSum_one 64 v.toNat
  have few : (List.range 64).countP v.getLsbD ≤ 64 :=
    List.countP_le_length.trans_eq List.length_range
  unfold popcntWord
  rw [toNat_topByte]
  · rw [laneSum_bytes, laneSum_fours, laneSum_twos, bits]
  · rw [laneSum_bytes, laneSum_fours, laneSum_twos, bits]
    omega

/-! ## Counting the bits of all words -/

theorem contains_append_left {data rest : List (BitVec 64)} {pos : Nat}
    (bound : pos < 64 * data.length) :
    (⟨data ++ rest⟩ : Bitset).contains pos = (⟨data⟩ : Bitset).contains pos := by
  have major : pos / 64 < data.length := by omega
  simp only [contains, List.getD_eq_getElem?_getD, List.getElem?_append_left major]

theorem contains_last {data : List (BitVec 64)} {word : BitVec 64} {minor : Nat}
    (small : minor < 64) :
    (⟨data ++ [word]⟩ : Bitset).contains (64 * data.length + minor) = word.getLsbD minor := by
  simp [contains, index_of_bit data.length small]

theorem popcnt_eq_countP (data : List (BitVec 64)) :
    (⟨data⟩ : Bitset).popcnt =
      BitVec.ofNat 64 ((List.range (64 * data.length)).countP (⟨data⟩ : Bitset).contains) := by
  induction data using List.reverseRecOn with
  | nil => rfl
  | append_singleton data word ih =>
      have earlier : (List.range (64 * data.length)).countP (⟨data ++ [word]⟩ : Bitset).contains =
          (List.range (64 * data.length)).countP (⟨data⟩ : Bitset).contains :=
        List.countP_congr fun pos mem => by rw [contains_append_left (List.mem_range.1 mem)]
      have later : (List.range 64).countP
          ((⟨data ++ [word]⟩ : Bitset).contains ∘ fun minor => 64 * data.length + minor) =
            (popcntWord word).toNat := by
        rw [toNat_popcntWord]
        exact List.countP_congr fun minor mem => by
          rw [Function.comp_apply, contains_last (List.mem_range.1 mem)]
      calc (⟨data ++ [word]⟩ : Bitset).popcnt
          = (⟨data⟩ : Bitset).popcnt + popcntWord word := by
            rw [popcnt, popcnt, List.foldl_concat]
        _ = BitVec.ofNat 64 ((List.range (64 * data.length)).countP (⟨data⟩ : Bitset).contains +
              (popcntWord word).toNat) := by
            rw [ih, BitVec.ofNat_add, BitVec.ofNat_toNat, BitVec.setWidth_eq]
        _ = BitVec.ofNat 64 ((List.range (64 * (data ++ [word]).length)).countP
              (⟨data ++ [word]⟩ : Bitset).contains) := by
            rw [List.length_append, List.length_singleton, Nat.mul_succ, List.range_add,
              List.countP_append, List.countP_map, earlier, later]

/-! ## The set that the words stand for -/

/-- The words have room for `n` positions and the bits of a set of them. -/
structure Represents (b : Bitset) (n : Nat) (members : Finset Nat) : Prop where
  fits : b.Fits n
  below : ∀ p ∈ members, p < n
  mem : ∀ p, b.contains p = true ↔ p ∈ members

theorem represents_newBitset (n : Nat) : (newBitset n).Represents n ∅ where
  fits := fits_newBitset n
  below := fun _ mem => absurd mem (Finset.notMem_empty _)
  mem := by simp

namespace Represents

variable {b b' : Bitset} {n p : Nat} {members members' : Finset Nat}

theorem exists_set (represents : b.Represents n members) (bound : p < n) :
    ∃ b', b.set p = some b' ∧ b'.Represents n (insert p members) := by
  obtain ⟨b', set, length, contains⟩ := Bitset.exists_set (represents.fits.index_lt bound)
  refine ⟨b', set, length.trans represents.fits, ?_, fun q => ?_⟩
  · rw [Finset.forall_mem_insert]
    exact ⟨bound, represents.below⟩
  · rw [contains, Bool.or_eq_true, decide_eq_true_iff, represents.mem, Finset.mem_insert]

theorem exists_clear (represents : b.Represents n members) (bound : p < n) :
    ∃ b', b.clear p = some b' ∧ b'.Represents n (members.erase p) := by
  obtain ⟨b', clear, length, contains⟩ := Bitset.exists_clear (represents.fits.index_lt bound)
  refine ⟨b', clear, length.trans represents.fits, fun q mem => ?_, fun q => ?_⟩
  · exact represents.below q (Finset.mem_of_mem_erase mem)
  · rw [contains, Bool.and_eq_true, Bool.not_eq_true', decide_eq_false_iff_not, represents.mem,
      Finset.mem_erase]

theorem get_eq (represents : b.Represents n members) (bound : p < n) :
    b.get p = some (decide (p ∈ members)) := by
  rw [Bitset.get_eq (represents.fits.index_lt bound), Option.some.injEq, Bool.eq_iff_iff,
    represents.mem, decide_eq_true_iff]

theorem popcnt_eq (represents : b.Represents n members) :
    b.popcnt = BitVec.ofNat 64 members.card := by
  have listed : members = ((List.range (64 * b.data.length)).filter b.contains).toFinset := by
    ext p
    rw [List.mem_toFinset, List.mem_filter, List.mem_range, represents.mem]
    refine ⟨fun mem => ⟨?_, mem⟩, And.right⟩
    have major := represents.fits.index_lt (represents.below p mem)
    omega
  have count : members.card = (List.range (64 * b.data.length)).countP b.contains := by
    rw [listed, List.toFinset_card_of_nodup (List.nodup_range.filter _),
      List.countP_eq_length_filter]
  rw [count]
  exact popcnt_eq_countP b.data

theorem toNat_popcnt (represents : b.Represents n members) (bound : n < 2 ^ 64) :
    b.popcnt.toNat = members.card := by
  have few : members.card ≤ n := by
    have subset : members ⊆ Finset.range n :=
      fun p mem => Finset.mem_range.2 (represents.below p mem)
    simpa using Finset.card_le_card subset
  rw [represents.popcnt_eq, BitVec.toNat_ofNat, Nat.mod_eq_of_lt (few.trans_lt bound)]

theorem equals_iff (represents : b.Represents n members) (represents' : b'.Represents n members') :
    b.equals b' = true ↔ members = members' := by
  rw [Bitset.equals_iff]
  constructor
  · rintro rfl
    ext p
    rw [← represents.mem, represents'.mem]
  · rintro rfl
    refine represents.fits.ext represents'.fits fun p => ?_
    rw [Bool.eq_iff_iff, represents.mem, represents'.mem]

end Represents

/-! ## Sequences of updates -/

/-- A call that writes to the set. -/
inductive Update where
  | set (pos : Nat)
  | clear (pos : Nat)
deriving DecidableEq, Repr

def Update.pos : Update → Nat
  | .set pos | .clear pos => pos

def update (b : Bitset) : Update → Option Bitset
  | .set pos => b.set pos
  | .clear pos => b.clear pos

/-- The last update at a position. -/
def lastAt (updates : List Update) (p : Nat) : Option Update :=
  (updates.filter fun update => update.pos = p).getLast?

/-- The positions below `n` whose last update was a `set`. -/
def lastSet (n : Nat) (updates : List Update) : Finset Nat :=
  (Finset.range n).filter fun p => lastAt updates p = some (.set p)

theorem lastAt_concat (updates : List Update) (update : Update) (p : Nat) :
    lastAt (updates ++ [update]) p =
      if update.pos = p then some update else lastAt updates p := by
  unfold lastAt
  rw [List.filter_append]
  split
  · next here => simp [here]
  · next elsewhere => simp [elsewhere]

theorem mem_lastSet {n p : Nat} {updates : List Update} :
    p ∈ lastSet n updates ↔ p < n ∧ lastAt updates p = some (.set p) := by
  rw [lastSet, Finset.mem_filter, Finset.mem_range]

theorem lastSet_set {n pos : Nat} (updates : List Update) (bound : pos < n) :
    lastSet n (updates ++ [.set pos]) = insert pos (lastSet n updates) := by
  ext p
  rw [mem_lastSet, Finset.mem_insert, mem_lastSet, lastAt_concat]
  by_cases here : pos = p
  · subst here
    simp [Update.pos, bound]
  · simp [Update.pos, here, Ne.symm here]

theorem lastSet_clear {n pos : Nat} (updates : List Update) :
    lastSet n (updates ++ [.clear pos]) = (lastSet n updates).erase pos := by
  ext p
  rw [mem_lastSet, Finset.mem_erase, mem_lastSet, lastAt_concat]
  by_cases here : pos = p
  · simp [Update.pos, here]
  · simp [Update.pos, here, Ne.symm here]

/-- One update keeps track of the last ones. -/
theorem Represents.exists_update {b : Bitset} {n : Nat} {updates : List Update}
    (represents : b.Represents n (lastSet n updates)) (update : Update) (bound : update.pos < n) :
    ∃ b', b.update update = some b' ∧ b'.Represents n (lastSet n (updates ++ [update])) := by
  cases update with
  | set pos =>
      rw [lastSet_set updates (show pos < n from bound)]
      exact represents.exists_set bound
  | clear pos =>
      rw [lastSet_clear]
      exact represents.exists_clear bound

theorem exists_updates {n : Nat} {updates : List Update}
    (bounds : ∀ update ∈ updates, update.pos < n) :
    ∃ b, updates.foldlM update (newBitset n) = some b ∧ b.Represents n (lastSet n updates) := by
  have start : (newBitset n).Represents n (lastSet n (updates.take 0)) := by
    have none : lastSet n [] = ∅ := by
      ext p
      simp [mem_lastSet, lastAt]
    rw [List.take_zero, none]
    exact represents_newBitset n
  have kept : ∀ i (inRange : i < updates.length) (b : Bitset),
      b.Represents n (lastSet n (updates.take i)) →
        ∃ b', b.update updates[i] = some b' ∧
          b'.Represents n (lastSet n (updates.take (i + 1))) := by
    intro i inRange b represents
    rw [List.take_succ_eq_append_getElem inRange]
    exact represents.exists_update _ (bounds _ (List.getElem_mem inRange))
  obtain ⟨b, run, represents⟩ :=
    exists_foldlM (fun i (b : Bitset) => b.Represents n (lastSet n (updates.take i))) start kept
  rw [List.take_length] at represents
  exact ⟨b, run, represents⟩

/-- After any updates at positions below `n` a bit set is the set of the positions whose last
update was a `set`. No access is out of range, `get` is membership, `popcnt` the number of members,
`equals` the equality of two such sets, and equal sets have the same hash. -/
theorem bitset_represents_set (n : Nat) (updates updates' : List Update)
    (bounds : ∀ update ∈ updates, update.pos < n)
    (bounds' : ∀ update ∈ updates', update.pos < n) :
    ∃ b b', updates.foldlM update (newBitset n) = some b ∧
      updates'.foldlM update (newBitset n) = some b' ∧
      (∀ p < n, b.get p = some (decide (lastAt updates p = some (.set p)))) ∧
      b.popcnt = BitVec.ofNat 64 (lastSet n updates).card ∧
      (n < 2 ^ 64 → b.popcnt.toNat = (lastSet n updates).card) ∧
      (b.equals b' = true ↔ lastSet n updates = lastSet n updates') ∧
      (b.equals b' = true → b.hash = b'.hash) := by
  obtain ⟨b, run, represents⟩ := exists_updates bounds
  obtain ⟨b', run', represents'⟩ := exists_updates bounds'
  refine ⟨b, b', run, run', fun p below => ?_, represents.popcnt_eq, represents.toNat_popcnt,
    represents.equals_iff represents', fun equal => ?_⟩
  · simp only [represents.get_eq below, mem_lastSet, below, true_and]
  · rw [Bitset.equals_iff.1 equal]

theorem bitset_represents_set_twoWords :
    ∃ b b', [.set 3, .set 64, .clear 3].foldlM update (newBitset 65) = some b ∧
      [.set 64].foldlM update (newBitset 65) = some b' ∧ b.get 3 = some false ∧
      b.get 64 = some true ∧ b.popcnt.toNat = 1 ∧ b.equals b' = true ∧ b.hash = b'.hash := by
  obtain ⟨b, b', run, run', get, _, count, equals, hash⟩ :=
    bitset_represents_set 65 [.set 3, .set 64, .clear 3] [.set 64] (by decide) (by decide)
  have same : b.equals b' = true := equals.2 (by decide)
  have one : b.popcnt.toNat = 1 := (count (by decide)).trans (by decide)
  exact ⟨b, b', run, run', get 3 (by decide), get 64 (by decide), one, same, hash same⟩

end Mit6824.Linearizability.Bitset
