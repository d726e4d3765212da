import Alphabox.Lib.Numerals
import Mathlib.Data.BitVec
import Mathlib.Algebra.BigOperators.Intervals

/-!
# Lanes of a bit vector

A bit vector read as a row of lanes of `w` bits. Bitwise operations act lane by lane; so does a sum
without a carry out of the lanes below, and a difference without a borrow. A masked shift stays in
its lane when the mask clears what comes from the next one.
-/

namespace Lib

variable {N w n i s : Nat} {x y m : BitVec N}

/-- The lane `i` of `w` bits. -/
def lane (w : Nat) (x : BitVec N) (i : Nat) : BitVec w := x.extractLsb' (w * i) w

theorem getLsbD_lane (j : Nat) :
    (lane w x i).getLsbD j = (decide (j < w) && x.getLsbD (w * i + j)) :=
  BitVec.getLsbD_extractLsb' ..

theorem toNat_lane : (lane w x i).toNat = x.toNat / 2 ^ (w * i) % 2 ^ w := by
  rw [lane, BitVec.extractLsb'_toNat, Nat.shiftRight_eq_div_pow]

/-! ## Bitwise -/

@[simp] theorem lane_and : lane w (x &&& y) i = lane w x i &&& lane w y i := by
  refine BitVec.eq_of_getLsbD_eq fun j hj => ?_
  rw [BitVec.getLsbD_and, getLsbD_lane, getLsbD_lane, getLsbD_lane, BitVec.getLsbD_and,
    decide_eq_true hj, Bool.true_and, Bool.true_and, Bool.true_and]

@[simp] theorem lane_or : lane w (x ||| y) i = lane w x i ||| lane w y i := by
  refine BitVec.eq_of_getLsbD_eq fun j hj => ?_
  rw [BitVec.getLsbD_or, getLsbD_lane, getLsbD_lane, getLsbD_lane, BitVec.getLsbD_or,
    decide_eq_true hj, Bool.true_and, Bool.true_and, Bool.true_and]

@[simp] theorem lane_xor : lane w (x ^^^ y) i = lane w x i ^^^ lane w y i := by
  refine BitVec.eq_of_getLsbD_eq fun j hj => ?_
  rw [BitVec.getLsbD_xor, getLsbD_lane, getLsbD_lane, getLsbD_lane, BitVec.getLsbD_xor,
    decide_eq_true hj, Bool.true_and, Bool.true_and, Bool.true_and]

theorem lane_not (hN : w * i + w ≤ N) : lane w (~~~x) i = ~~~lane w x i := by
  refine BitVec.eq_of_getLsbD_eq fun j hj => ?_
  rw [BitVec.getLsbD_not, getLsbD_lane, getLsbD_lane, BitVec.getLsbD_not, decide_eq_true hj,
    decide_eq_true (show w * i + j < N by omega), Bool.true_and, Bool.true_and, Bool.true_and,
    Bool.true_and]

/-- A shift by a whole lane. -/
theorem lane_shift_lane : lane w (x >>> w) i = lane w x (i + 1) := by
  refine BitVec.eq_of_getLsbD_eq fun j hj => ?_
  rw [getLsbD_lane, getLsbD_lane, BitVec.getLsbD_ushiftRight, Nat.mul_succ]
  congr 2
  omega

/-- A shift inside the lanes. -/
theorem lane_shift_and (hm : ∀ j < w, w ≤ j + s → (lane w m i).getLsbD j = false) :
    lane w ((x >>> s) &&& m) i = (lane w x i >>> s) &&& lane w m i := by
  rw [lane_and]
  refine BitVec.eq_of_getLsbD_eq fun j hj => ?_
  rw [BitVec.getLsbD_and, BitVec.getLsbD_and, BitVec.getLsbD_ushiftRight]
  by_cases hs : w ≤ j + s
  · rw [hm j hj hs, Bool.and_false, Bool.and_false]
  · rw [getLsbD_lane, getLsbD_lane (s + j), BitVec.getLsbD_ushiftRight, decide_eq_true hj,
      decide_eq_true (show s + j < w by omega)]
    congr 3
    omega

/-! ## Sums and differences -/

theorem mod_succ_lane : x.toNat % 2 ^ (w * (i + 1)) =
    x.toNat % 2 ^ (w * i) + 2 ^ (w * i) * (lane w x i).toNat := by
  rw [toNat_lane, Nat.mul_succ, Nat.pow_add, Nat.mod_mul]

/-- No carry leaves the lanes below `i`. -/
theorem no_carry (h : ∀ j < i, (lane w x j).toNat + (lane w y j).toNat < 2 ^ w) :
    x.toNat % 2 ^ (w * i) + y.toNat % 2 ^ (w * i) < 2 ^ (w * i) := by
  induction i with
  | zero => simp [Nat.mod_one]
  | succ i ih =>
    have hlow := ih fun j hj => h j (by omega)
    have hi := h i (Nat.lt_succ_self i)
    rw [mod_succ_lane, mod_succ_lane, Nat.mul_succ, Nat.pow_add]
    generalize 2 ^ (w * i) = k at *
    have hle : k * ((lane w x i).toNat + (lane w y i).toNat + 1) ≤ k * 2 ^ w :=
      Nat.mul_le_mul_left k hi
    rw [Nat.mul_add, Nat.mul_add, Nat.mul_one] at hle
    omega

/-- A sum, lane by lane. -/
theorem lane_add (hN : w * i + w ≤ N)
    (h : ∀ j < i, (lane w x j).toNat + (lane w y j).toNat < 2 ^ w) :
    lane w (x + y) i = lane w x i + lane w y i := by
  have hc := no_carry h
  refine BitVec.eq_of_toNat_eq ?_
  have hdvd : 2 ^ (w * i + w) ∣ 2 ^ N := pow_dvd_pow 2 hN
  have hmod (a : Nat) : a % 2 ^ N / 2 ^ (w * i) % 2 ^ w = a / 2 ^ (w * i) % 2 ^ w := by
    rw [← Nat.mod_mul_right_div_self, ← Nat.mod_mul_right_div_self, ← Nat.pow_add,
      Nat.mod_mod_of_dvd _ hdvd]
  rw [BitVec.toNat_add, toNat_lane, toNat_lane, toNat_lane, BitVec.toNat_add, hmod,
    Nat.add_div (Nat.two_pow_pos _), if_neg (by omega), Nat.add_zero, Nat.add_mod]

/-- A difference, lane by lane. -/
theorem lane_sub (hN : w * i + w ≤ N)
    (h : ∀ j < i, (lane w y j).toNat ≤ (lane w x j).toNat) :
    lane w (x - y) i = lane w x i - lane w y i := by
  induction i using Nat.strong_induction_on with
  | _ i ih =>
  have hlow : ∀ j < i, (lane w (x - y) j).toNat + (lane w y j).toNat < 2 ^ w := by
    intro j hj
    have hle : w * j + w ≤ w * i := by
      rw [← Nat.mul_succ]
      exact Nat.mul_le_mul_left w hj
    have hyx := h j hj
    have hx := (lane w x j).isLt
    rw [ih j hj (by omega) fun k hk => h k (by omega),
      BitVec.toNat_sub_of_le (BitVec.le_def.2 hyx)]
    omega
  have hadd := lane_add hN hlow
  rw [BitVec.sub_add_cancel] at hadd
  rw [hadd, BitVec.add_sub_cancel]

/-! ## The whole vector -/

/-- A vector is the sum of its lanes. -/
theorem toNat_eq_sum (n : Nat) (hN : N ≤ w * n) :
    x.toNat = ∑ i ∈ Finset.range n, 2 ^ (w * i) * (lane w x i).toNat := by
  have hpart (k : Nat) :
      x.toNat % 2 ^ (w * k) = ∑ i ∈ Finset.range k, 2 ^ (w * i) * (lane w x i).toNat := by
    induction k with
    | zero => simp [Nat.mod_one]
    | succ k ih => rw [mod_succ_lane, Finset.sum_range_succ, ih]
  rw [← hpart, Nat.mod_eq_of_lt]
  exact lt_of_lt_of_le x.isLt (Nat.pow_le_pow_right (by decide) hN)

end Lib
