import Mathlib.Data.List.Basic
import Mathlib.Order.Lattice

/-!
# Bit sets

The set of the operations that the search has placed, in words of 64 bits. An access out of range
is a panic, which is `none` here; `newBitset` makes room for all positions below its argument.
-/

namespace Mit6824.Linearizability

/-- Bits 0 to 63 are in the first word, the next ones in the second, and so on. -/
structure Bitset where
  data : List (BitVec 64)
  deriving DecidableEq

def newBitset (bits : Nat) : Bitset :=
  let extra := if bits % 64 ≠ 0 then 1 else 0
  let chunks := bits / 64 + extra
  ⟨List.replicate chunks 0⟩

def bitsetIndex (pos : Nat) : Nat × Nat :=
  (pos / 64, pos % 64)

namespace Bitset

def set (b : Bitset) (pos : Nat) : Option Bitset :=
  let (major, minor) := bitsetIndex pos
  (b.data[major]?).map fun word => ⟨b.data.set major (word ||| 1#64 <<< minor)⟩

def clear (b : Bitset) (pos : Nat) : Option Bitset :=
  let (major, minor) := bitsetIndex pos
  (b.data[major]?).map fun word => ⟨b.data.set major (word &&& ~~~(1#64 <<< minor))⟩

def get (b : Bitset) (pos : Nat) : Option Bool :=
  let (major, minor) := bitsetIndex pos
  (b.data[major]?).map fun word => word &&& 1#64 <<< minor != 0

/-- The bits of one word are added up in parallel, in pairs, in fours and in bytes. -/
def popcntWord (v : BitVec 64) : BitVec 64 :=
  let v := (v &&& 0x5555555555555555) + ((v &&& 0xAAAAAAAAAAAAAAAA) >>> 1)
  let v := (v &&& 0x3333333333333333) + ((v &&& 0xCCCCCCCCCCCCCCCC) >>> 2)
  let v := (v &&& 0x0F0F0F0F0F0F0F0F) + ((v &&& 0xF0F0F0F0F0F0F0F0) >>> 4)
  let v := v * 0x0101010101010101
  (v >>> 56) &&& 0xFF

def popcnt (b : Bitset) : BitVec 64 :=
  b.data.foldl (fun total v => total + popcntWord v) 0

def hash (b : Bitset) : BitVec 64 :=
  b.data.foldl (fun hash v => hash ^^^ v) b.popcnt

def equals (b b2 : Bitset) : Bool :=
  if b.data.length ≠ b2.data.length then false
  else (b.data.zip b2.data).all fun pair => pair.1 == pair.2

/-- Membership; there is nothing beyond the last word. -/
def contains (b : Bitset) (pos : Nat) : Bool :=
  (b.data.getD (pos / 64) 0).getLsbD (pos % 64)

/-- The set has room for the positions below `n`. -/
def Fits (b : Bitset) (n : Nat) : Prop :=
  b.data.length = (newBitset n).data.length

variable {b b' b2 : Bitset} {n pos : Nat}

theorem fits_newBitset (n : Nat) : (newBitset n).Fits n :=
  rfl

@[simp] theorem contains_newBitset (n pos : Nat) : (newBitset n).contains pos = false := by
  simp only [contains, newBitset, List.getD_eq_getElem?_getD, List.getElem?_replicate]
  split_ifs <;> simp

theorem Fits.index_lt (fits : b.Fits n) (bound : pos < n) : pos / 64 < b.data.length := by
  rw [fits, newBitset, List.length_replicate]
  split <;> omega

theorem index_of_bit (major : Nat) {minor : Nat} (small : minor < 64) :
    (64 * major + minor) / 64 = major ∧ (64 * major + minor) % 64 = minor := by
  omega

theorem eq_iff_same_index (q pos : Nat) : q = pos ↔ q / 64 = pos / 64 ∧ q % 64 = pos % 64 := by
  omega

/-- Words of one set have the same bits only if they are the same. -/
theorem Fits.ext (fits : b.Fits n) (fits' : b'.Fits n)
    (same : ∀ pos, b.contains pos = b'.contains pos) : b = b' := by
  obtain ⟨data⟩ := b
  obtain ⟨data'⟩ := b'
  have length : data.length = data'.length := fits.trans fits'.symm
  congr 1
  refine List.ext_getElem length fun major bound bound' => ?_
  refine BitVec.eq_of_getLsbD_eq fun minor small => ?_
  have bit := same (64 * major + minor)
  simpa [contains, index_of_bit major small, bound, bound'] using bit

theorem equals_iff : b.equals b2 = true ↔ b = b2 := by
  obtain ⟨data⟩ := b
  obtain ⟨data2⟩ := b2
  simp only [equals, Bitset.mk.injEq]
  induction data generalizing data2 with
  | nil => cases data2 <;> simp
  | cons word data ih =>
      cases data2 with
      | nil => simp
      | cons word2 data2 =>
          have rest := ih data2
          split_ifs at rest ⊢ with short short'
          · simp_all
          · simp_all
          · simp_all
          · simp_all

/-- One word is written. -/
theorem contains_write {word : BitVec 64} {major q : Nat} (bound : major < b.data.length) :
    (⟨b.data.set major word⟩ : Bitset).contains q =
      if q / 64 = major then word.getLsbD (q % 64) else b.contains q := by
  by_cases same : q / 64 = major
  · simp [contains, same, bound]
  · simp [contains, same, List.getElem?_set_ne (Ne.symm same)]

theorem getLsbD_mask {minor q : Nat} (small : minor < 64) :
    (1#64 <<< minor).getLsbD q = decide (q = minor) := by
  rw [BitVec.getLsbD_shiftLeft, BitVec.getLsbD_one]
  by_cases same : q = minor
  · simp [same, small]
  · simp [same]
    omega

theorem getElem?_major (bound : pos / 64 < b.data.length) :
    b.data[pos / 64]? = some (b.data.getD (pos / 64) 0) := by
  simp [bound]

theorem exists_set (bound : pos / 64 < b.data.length) :
    ∃ b', b.set pos = some b' ∧ b'.data.length = b.data.length ∧
      ∀ q, b'.contains q = (decide (q = pos) || b.contains q) := by
  refine ⟨_, by simp only [set, bitsetIndex, getElem?_major bound]; rfl, by simp, fun q => ?_⟩
  rw [contains_write bound, BitVec.getLsbD_or, getLsbD_mask (Nat.mod_lt pos (by decide))]
  by_cases same : q / 64 = pos / 64
  · simp [contains, same, eq_iff_same_index q pos, Bool.or_comm]
  · simp [same, eq_iff_same_index q pos]

theorem exists_clear (bound : pos / 64 < b.data.length) :
    ∃ b', b.clear pos = some b' ∧ b'.data.length = b.data.length ∧
      ∀ q, b'.contains q = (!decide (q = pos) && b.contains q) := by
  refine ⟨_, by simp only [clear, bitsetIndex, getElem?_major bound]; rfl, by simp, fun q => ?_⟩
  have small : q % 64 < 64 := Nat.mod_lt q (by decide)
  rw [contains_write bound, BitVec.getLsbD_and, BitVec.getLsbD_not,
    getLsbD_mask (Nat.mod_lt pos (by decide))]
  by_cases same : q / 64 = pos / 64
  · simp [contains, same, eq_iff_same_index q pos, small, Bool.and_comm]
  · simp [same, eq_iff_same_index q pos]

theorem and_mask_ne_zero {word : BitVec 64} {minor : Nat} (small : minor < 64) :
    (word &&& 1#64 <<< minor != 0) = word.getLsbD minor := by
  have nonzero : 1#64 <<< minor ≠ 0 := by
    intro zero
    have bit := getLsbD_mask (q := minor) small
    simp [zero] at bit
  rw [← BitVec.twoPow_eq] at nonzero ⊢
  rw [BitVec.and_twoPow]
  split
  · next set => rw [set, bne_iff_ne.2 nonzero]
  · next unset => simpa using unset

theorem get_eq (bound : pos / 64 < b.data.length) : b.get pos = some (b.contains pos) := by
  simp only [get, bitsetIndex, getElem?_major bound, Option.map_some,
    and_mask_ne_zero (Nat.mod_lt pos (by decide)), contains]

end Bitset

end Mit6824.Linearizability
