import Alphabox.Fp.Spec

/-!
# Fields of a register

The fields as arithmetic on the register's number, and the register `packFpr` makes with its low
bits cleared.
-/

namespace Alphabox.Fp

open Lib

/-! ## Reading -/

theorem fprExp_eq (w : Word) : fprExp w = w.toNat / 2 ^ 52 % 2 ^ 11 := by
  have h := Nat.and_two_pow_sub_one_eq_mod (w.toNat / 2 ^ 52) 11
  simpa [fprExp, Nat.shiftRight_eq_div_pow] using h

theorem fprFrac_toNat (w : Word) : (fprFrac w).toNat = w.toNat % 2 ^ 52 := by
  have h := Nat.and_two_pow_sub_one_eq_mod w.toNat 52
  simpa [fprFrac, fracMask] using h

theorem fprSign_eq (w : Word) : fprSign w = decide (2 ^ 63 ≤ w.toNat) := by
  rw [fprSign, BitVec.msb_eq_decide]

theorem fprFrac_lt (w : Word) : (fprFrac w).toNat < 2 ^ 52 := by
  rw [fprFrac_toNat]
  exact Nat.mod_lt _ (by decide)

/-! ## Putting together -/

/-- The number of a sign bit. -/
def signNat (sign : Bool) : Nat := if sign then 2 ^ 63 else 0

theorem signBit_toNat (sign : Bool) : (signBit sign).toNat = signNat sign := by
  cases sign <;> rfl

theorem packFpr_toNat {sign : Bool} {exp : Int} {frac : Word} (h0 : 0 ≤ exp) (h1 : exp < 2 ^ 11) :
    (packFpr sign exp frac).toNat =
      signNat sign + exp.toNat * 2 ^ 52 + frac.toNat / 2 ^ 11 % 2 ^ 52 := by
  obtain ⟨e, rfl⟩ : ∃ e : Nat, exp = e := ⟨exp.toNat, by omega⟩
  have he : e < 2 ^ 11 := by omega
  have hA : (frac >>> 11 &&& fracMask).toNat = frac.toNat / 2 ^ 11 % 2 ^ 52 := by
    have h := Nat.and_two_pow_sub_one_eq_mod (frac.toNat / 2 ^ 11) 52
    simpa [fracMask, Nat.shiftRight_eq_div_pow] using h
  have hE : (BitVec.ofInt 64 (e : Int) <<< 52).toNat = 2 ^ 52 * e := by
    rw [BitVec.ofInt_natCast, BitVec.toNat_shiftLeft, BitVec.toNat_ofNat, Nat.shiftLeft_eq,
      Nat.mod_eq_of_lt (show e < 2 ^ 64 by omega), Nat.mod_eq_of_lt (by omega), Nat.mul_comm]
  have hlt : frac.toNat / 2 ^ 11 % 2 ^ 52 < 2 ^ 52 := Nat.mod_lt _ (by decide)
  rw [packFpr, BitVec.or_assoc, BitVec.toNat_or, BitVec.toNat_or, hA, hE,
    ← Nat.two_pow_add_eq_or_of_lt hlt, signBit_toNat]
  have hsum : 2 ^ 52 * e + frac.toNat / 2 ^ 11 % 2 ^ 52 < 2 ^ 63 := by omega
  cases sign with
  | false => simp [signNat]; omega
  | true =>
    have h := Nat.two_pow_add_eq_or_of_lt hsum 1
    rw [Nat.mul_one] at h
    simp only [signNat, if_true, Int.toNat_natCast]
    omega

/-- Clearing the low `c` bits. -/
theorem clear_toNat (w : Word) (c : Nat) :
    (w &&& ~~~(BitVec.ofNat 64 (2 ^ c - 1))).toNat = w.toNat / 2 ^ c * 2 ^ c := by
  have h : w &&& ~~~(BitVec.ofNat 64 (2 ^ c - 1)) = w >>> c <<< c := by
    refine BitVec.eq_of_getLsbD_eq fun i hi => ?_
    simp only [BitVec.getLsbD_and, BitVec.getLsbD_not, hi, decide_true, Bool.true_and,
      BitVec.getLsbD_ofNat, Nat.testBit_two_pow_sub_one, BitVec.getLsbD_shiftLeft,
      BitVec.getLsbD_ushiftRight]
    by_cases hic : i < c
    · simp [hic]
    · simp [hic, show c + (i - c) = i by omega]
  have hw : w.toNat < 2 ^ 64 := w.isLt
  have hle : w.toNat / 2 ^ c * 2 ^ c ≤ w.toNat := Nat.div_mul_le_self _ _
  rw [h, BitVec.toNat_shiftLeft, BitVec.toNat_ushiftRight, Nat.shiftRight_eq_div_pow,
    Nat.shiftLeft_eq, Nat.mod_eq_of_lt (by omega)]

end Alphabox.Fp
