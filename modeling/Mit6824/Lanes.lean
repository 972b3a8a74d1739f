import Mathlib.Algebra.Group.Nat.Defs
import Mathlib.Data.List.Basic
import Mathlib.Tactic.Ring

/-!
# Lanes of a number

A number holds a row of lanes of `w` bits each, the lowest first. `laneSum` adds up the lanes, so
with lanes of one bit it counts the bits. Adding neighbouring lanes in parallel (`addPairs`) gives
half as many lanes of twice the width with the same sum, and a product with a one in every lane
(`ones`) has the sum in its top lane if the lane is wide enough.
-/

namespace Mit6824.Lanes

/-- The sum of the lowest `k` lanes. -/
def laneSum (w : Nat) : Nat → Nat → Nat
  | 0, _ => 0
  | k + 1, x => x % 2 ^ w + laneSum w k (x / 2 ^ w)

/-- All bits of every other lane, of the lowest one first. -/
def evenLanes (w : Nat) : Nat → Nat
  | 0 => 0
  | k + 1 => 2 ^ w - 1 + 2 ^ (2 * w) * evenLanes w k

/-- A one in each of `k` lanes. -/
def ones (w : Nat) : Nat → Nat
  | 0 => 0
  | k + 1 => 1 + 2 ^ w * ones w k

/-- Neighbouring lanes are added, for `k` pairs of them. -/
def addPairs (w k x : Nat) : Nat :=
  (x &&& evenLanes w k) + (x >>> w &&& evenLanes w k)

variable {w k x : Nat}

/-! ## Sums -/

theorem laneSum_succ (w k x : Nat) :
    laneSum w (k + 1) x = x % 2 ^ w + laneSum w k (x / 2 ^ w) :=
  rfl

/-- Only the bits of the lanes matter. -/
theorem laneSum_mod (w k x : Nat) : laneSum w k (x % 2 ^ (w * k)) = laneSum w k x := by
  induction k generalizing x with
  | zero => rfl
  | succ k ih =>
      have width : 2 ^ (w * (k + 1)) = 2 ^ w * 2 ^ (w * k) := by ring
      rw [laneSum_succ, laneSum_succ, width, Nat.mod_mul_right_mod, Nat.mod_mul_right_div_self, ih]

theorem laneSum_one (k x : Nat) : laneSum 1 k x = (List.range k).countP x.testBit := by
  induction k generalizing x with
  | zero => rfl
  | succ k ih =>
      have rest : x.testBit ∘ Nat.succ = (x / 2).testBit := by
        funext i
        exact Nat.testBit_succ x i
      rw [laneSum_succ, Nat.pow_one, ih, List.range_succ_eq_map, List.countP_cons, List.countP_map,
        rest, Nat.testBit_zero, Nat.add_comm]
      rcases Nat.mod_two_eq_zero_or_one x with even | odd
      · simp [even]
      · simp [odd]

/-! ## Adding neighbours -/

theorem two_pow_double (w : Nat) : 2 ^ (2 * w) = 2 ^ w * 2 ^ w := by
  rw [Nat.two_mul, Nat.pow_add]

/-- The lowest pair of lanes and the others. -/
theorem and_evenLanes_succ (w k x : Nat) :
    x &&& evenLanes w (k + 1) = x % 2 ^ w + 2 ^ (2 * w) * (x / 2 ^ (2 * w) &&& evenLanes w k) := by
  have positive : 0 < 2 ^ w := Nat.two_pow_pos w
  have fits : 2 ^ w - 1 < 2 ^ (2 * w) := by
    have wider : 2 ^ w ≤ 2 ^ (2 * w) := Nat.pow_le_pow_right (by decide) (by omega)
    omega
  have low : evenLanes w (k + 1) % 2 ^ (2 * w) = 2 ^ w - 1 := by
    rw [evenLanes, Nat.add_mul_mod_self_left, Nat.mod_eq_of_lt fits]
  have high : evenLanes w (k + 1) / 2 ^ (2 * w) = evenLanes w k := by
    rw [evenLanes, Nat.add_mul_div_left _ _ (Nat.two_pow_pos _), Nat.div_eq_of_lt fits,
      Nat.zero_add]
  have first : x % 2 ^ (2 * w) &&& 2 ^ w - 1 = x % 2 ^ w := by
    rw [Nat.and_two_pow_sub_one_eq_mod, two_pow_double, Nat.mod_mul_right_mod]
  calc x &&& evenLanes w (k + 1)
      = (x &&& evenLanes w (k + 1)) % 2 ^ (2 * w) +
          2 ^ (2 * w) * ((x &&& evenLanes w (k + 1)) / 2 ^ (2 * w)) := (Nat.mod_add_div _ _).symm
    _ = x % 2 ^ w + 2 ^ (2 * w) * (x / 2 ^ (2 * w) &&& evenLanes w k) := by
        rw [Nat.and_mod_two_pow, Nat.and_div_two_pow, low, high, first]

theorem addPairs_succ (w k x : Nat) :
    addPairs w (k + 1) x =
      x % 2 ^ w + x / 2 ^ w % 2 ^ w + 2 ^ (2 * w) * addPairs w k (x / 2 ^ (2 * w)) := by
  have shifted : x / 2 ^ w / 2 ^ (2 * w) = x / 2 ^ (2 * w) / 2 ^ w := by
    rw [Nat.div_div_eq_div_mul, Nat.div_div_eq_div_mul, Nat.mul_comm]
  simp only [addPairs, Nat.shiftRight_eq_div_pow, and_evenLanes_succ, shifted]
  ring

/-- The sum stays when neighbours are added. -/
theorem laneSum_addPairs (positive : 0 < w) (k x : Nat) :
    laneSum (2 * w) k (addPairs w k x) = laneSum w (2 * k) x := by
  induction k generalizing x with
  | zero => rfl
  | succ k ih =>
      have first : x % 2 ^ w < 2 ^ w := Nat.mod_lt _ (Nat.two_pow_pos w)
      have second : x / 2 ^ w % 2 ^ w < 2 ^ w := Nat.mod_lt _ (Nat.two_pow_pos w)
      -- two lanes together need one bit more, and there are at least two for them
      have pair : x % 2 ^ w + x / 2 ^ w % 2 ^ w < 2 ^ (2 * w) := by
        have doubled : 2 * 2 ^ w ≤ 2 ^ (2 * w) := by
          rw [two_pow_double]
          exact Nat.mul_le_mul_right _ (Nat.one_lt_two_pow positive.ne')
        omega
      have lowest : addPairs w (k + 1) x % 2 ^ (2 * w) = x % 2 ^ w + x / 2 ^ w % 2 ^ w := by
        rw [addPairs_succ, Nat.add_mul_mod_self_left, Nat.mod_eq_of_lt pair]
      have others : addPairs w (k + 1) x / 2 ^ (2 * w) = addPairs w k (x / 2 ^ (2 * w)) := by
        rw [addPairs_succ, Nat.add_mul_div_left _ _ (Nat.two_pow_pos _), Nat.div_eq_of_lt pair,
          Nat.zero_add]
      rw [laneSum_succ, lowest, others, ih, Nat.mul_succ, laneSum_succ, laneSum_succ,
        Nat.div_div_eq_div_mul, two_pow_double, Nat.add_assoc]

/-- Neighbours are added in a word that the lanes fill. -/
theorem laneSum_word {n : Nat} (positive : 0 < w) (width : n = 2 * w * k) (v even odd : BitVec n)
    (evens : even.toNat = evenLanes w k) (odds : odd.toNat = evenLanes w k <<< w) :
    laneSum (2 * w) k ((v &&& even) + (v &&& odd) >>> w).toNat = laneSum w (2 * k) v.toNat := by
  have added : (v.toNat &&& evenLanes w k) + (v.toNat &&& evenLanes w k <<< w) >>> w =
      addPairs w k v.toNat := by
    rw [Nat.shiftRight_and_distrib, Nat.shiftLeft_shiftRight, addPairs]
  have wraps := laneSum_mod (2 * w) k (addPairs w k v.toNat)
  rw [← width] at wraps
  rw [BitVec.toNat_add, BitVec.toNat_ushiftRight, BitVec.toNat_and, BitVec.toNat_and, evens, odds,
    added, wraps, laneSum_addPairs positive]

/-! ## Collecting the sum -/

theorem ones_cons (w k : Nat) : ones w (k + 1) = 1 + 2 ^ w * ones w k :=
  rfl

theorem ones_concat (w k : Nat) : ones w (k + 1) = ones w k + 2 ^ (w * k) := by
  induction k with
  | zero => rfl
  | succ k ih =>
      calc ones w (k + 2)
          = 1 + 2 ^ w * (ones w k + 2 ^ (w * k)) := by rw [ones_cons, ih]
        _ = 1 + 2 ^ w * ones w k + 2 ^ (w * (k + 1)) := by ring

/-- With all bits of a lane instead of its lowest one, every bit is set. -/
theorem mul_ones (w k : Nat) : (2 ^ w - 1) * ones w k + 1 = 2 ^ (w * k) := by
  induction k with
  | zero => rfl
  | succ k ih =>
      have positive : 2 ^ w - 1 + 1 = 2 ^ w := Nat.sub_add_cancel (Nat.two_pow_pos w)
      calc (2 ^ w - 1) * ones w (k + 1) + 1
          = 2 ^ w * ((2 ^ w - 1) * ones w k) + (2 ^ w - 1 + 1) := by
            rw [ones_cons]
            ring
        _ = 2 ^ w * ((2 ^ w - 1) * ones w k + 1) := by rw [positive, Nat.mul_succ]
        _ = 2 ^ (w * (k + 1)) := by
            rw [ih]
            ring

/-- The lanes of the product below the top one hold sums of fewer lanes. -/
theorem exists_mul_ones (w k x : Nat) :
    ∃ low high, x * ones w (k + 1) =
        low + 2 ^ (w * k) * (laneSum w (k + 1) x + 2 ^ w * high) ∧
      low ≤ laneSum w (k + 1) x * ones w k := by
  induction k generalizing x with
  | zero =>
      refine ⟨0, x / 2 ^ w, ?_, Nat.zero_le _⟩
      simpa [ones, laneSum] using (Nat.mod_add_div x (2 ^ w)).symm
  | succ k ih =>
      obtain ⟨low, high, product, bound⟩ := ih (x / 2 ^ w)
      -- the lowest lane is added to every lane of the product for the others
      refine ⟨x % 2 ^ w * ones w (k + 1) + 2 ^ w * low, high + x / 2 ^ w, ?_, ?_⟩
      · calc x * ones w (k + 2)
            = (x % 2 ^ w + 2 ^ w * (x / 2 ^ w)) * (ones w (k + 1) + 2 ^ (w * (k + 1))) := by
              rw [Nat.mod_add_div, ones_concat w (k + 1)]
          _ = x % 2 ^ w * (ones w (k + 1) + 2 ^ (w * (k + 1))) +
                2 ^ w * (x / 2 ^ w * ones w (k + 1)) +
                2 ^ (w * (k + 1)) * (2 ^ w * (x / 2 ^ w)) := by ring
          _ = x % 2 ^ w * ones w (k + 1) + 2 ^ w * low +
                2 ^ (w * (k + 1)) * (laneSum w (k + 2) x + 2 ^ w * (high + x / 2 ^ w)) := by
              rw [product, laneSum_succ w (k + 1)]
              ring
      · calc x % 2 ^ w * ones w (k + 1) + 2 ^ w * low
            ≤ x % 2 ^ w * ones w (k + 1) +
                2 ^ w * (laneSum w (k + 1) (x / 2 ^ w) * ones w k) := by gcongr
          _ ≤ x % 2 ^ w * ones w (k + 1) + laneSum w (k + 1) (x / 2 ^ w) * ones w (k + 1) := by
              rw [Nat.mul_left_comm, ones_cons]
              gcongr
              exact Nat.le_add_left _ _
          _ = laneSum w (k + 2) x * ones w (k + 1) := by rw [laneSum_succ w (k + 1), Nat.add_mul]

/-- The top lane of the product is the sum, if a lane has room for it. -/
theorem top_mul_ones (k : Nat) (room : laneSum w (k + 1) x < 2 ^ w) :
    x * ones w (k + 1) / 2 ^ (w * k) % 2 ^ w = laneSum w (k + 1) x := by
  obtain ⟨low, high, product, bound⟩ := exists_mul_ones w k x
  have small : low < 2 ^ (w * k) :=
    calc low ≤ laneSum w (k + 1) x * ones w k := bound
      _ ≤ (2 ^ w - 1) * ones w k := Nat.mul_le_mul_right _ (Nat.le_sub_one_of_lt room)
      _ < 2 ^ (w * k) := (mul_ones w k).subst (Nat.lt_succ_self _)
  rw [product, Nat.add_mul_div_left _ _ (Nat.two_pow_pos _), Nat.div_eq_of_lt small, Nat.zero_add,
    Nat.add_mul_mod_self_left, Nat.mod_eq_of_lt room]

/-- The sum is read from the top of a word that the lanes fill. -/
theorem top_word {n : Nat} (width : n = w * (k + 1)) (v one : BitVec n)
    (lanes : one.toNat = ones w (k + 1)) (room : laneSum w (k + 1) v.toNat < 2 ^ w) :
    ((v * one) >>> (w * k)).toNat = laneSum w (k + 1) v.toNat := by
  have split : 2 ^ n = 2 ^ (w * k) * 2 ^ w := by rw [width, ← Nat.pow_add, Nat.mul_succ]
  rw [BitVec.toNat_ushiftRight, BitVec.toNat_mul, lanes, Nat.shiftRight_eq_div_pow, split,
    Nat.mod_mul_right_div_self, top_mul_ones k room]

end Mit6824.Lanes
