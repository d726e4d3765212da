import Alphabox.Cpu.IntArith
import Alphabox.Fp.Proof.MulDiv
import Alphabox.Fp.Proof.Traps
import Alphabox.Lib.Overflow

/-!
# Integer operates with overflow: exact results

Each `/V` form leaves what the exact result in its width leaves (`Delivered`): the residue in the
destination and a trap when the result is not a signed integer of the width. The tests are
compared with the exact arithmetic one by one: the sign tests of sums and differences at the top
bit of a word or, for the longword forms, of its low half; the longword product, which fits in a
quadword; and the quadword product, whose high word is corrected for two signs.
-/

namespace Alphabox.Cpu

open Fp

variable {a b : Word}

/-! ## The product of two words -/

theorem low_toNat (a : Word) : (a &&& x64Long).toNat = a.toNat % 2 ^ 32 := by
  rw [BitVec.toNat_and]
  exact Nat.and_two_pow_sub_one_eq_mod a.toNat 32

theorem high_toNat (a : Word) : ((a >>> 32) &&& x64Long).toNat = a.toNat / 2 ^ 32 := by
  rw [low_toNat, BitVec.toNat_ushiftRight, Nat.shiftRight_eq_div_pow]
  exact Nat.mod_eq_of_lt (by have := a.isLt; omega)

/-- The product of two numbers of 32 bits. -/
theorem half_mul {x y : Word} (hx : x.toNat < 2 ^ 32) (hy : y.toNat < 2 ^ 32) :
    (x * y).toNat = x.toNat * y.toNat ∧ (x * y).toNat ≤ (2 ^ 32 - 1) * (2 ^ 32 - 1) := by
  have h : x.toNat * y.toNat ≤ (2 ^ 32 - 1) * (2 ^ 32 - 1) :=
    Nat.mul_le_mul (by omega) (by omega)
  have he : (x * y).toNat = x.toNat * y.toNat := by
    rw [BitVec.toNat_mul]
    exact Nat.mod_eq_of_lt (by omega)
  exact ⟨he, he ▸ h⟩

theorem shift_toNat (mid : Word) : (mid <<< 32).toNat = mid.toNat % 2 ^ 32 * 2 ^ 32 := by
  rw [BitVec.toNat_shiftLeft, Nat.shiftLeft_eq]
  omega

/-- A middle product added to the low word, and its carry to the high word. -/
theorem carry_toNat {hi lo x : Word} (h : hi.toNat + 1 < 2 ^ 64) :
    (if lo + x < x then hi + 1 else hi).toNat * 2 ^ 64 + (lo + x).toNat =
      hi.toNat * 2 ^ 64 + lo.toNat + x.toNat ∧
    (if lo + x < x then hi + 1 else hi).toNat ≤ hi.toNat + 1 := by
  have hlo := lo.isLt
  have hx := x.isLt
  have hadd : (lo + x).toNat = (lo.toNat + x.toNat) % 2 ^ 64 := BitVec.toNat_add lo x
  have hone : (hi + 1).toNat = hi.toNat + 1 := (BitVec.toNat_add hi 1).trans (Nat.mod_eq_of_lt h)
  split
  · rename_i hc
    rw [BitVec.lt_def] at hc
    omega
  · rename_i hc
    rw [BitVec.lt_def] at hc
    omega

/-- The four products put together, no carry of the low word lost. -/
theorem addMiddle_toNat {rhi rmid1 rmid2 rlo : Word} (h0 : rhi.toNat ≤ (2 ^ 32 - 1) * (2 ^ 32 - 1))
    (h1 : rmid1.toNat ≤ (2 ^ 32 - 1) * (2 ^ 32 - 1))
    (h2 : rmid2.toNat ≤ (2 ^ 32 - 1) * (2 ^ 32 - 1)) :
    (addMiddle rhi rmid1 rmid2 rlo).2.toNat * 2 ^ 64 + (addMiddle rhi rmid1 rmid2 rlo).1.toNat =
      rhi.toNat * 2 ^ 64 + (rmid1.toNat + rmid2.toNat) * 2 ^ 32 + rlo.toNat := by
  have hhi : (rhi + ((rmid1 >>> 32) &&& x64Long) + ((rmid2 >>> 32) &&& x64Long)).toNat =
      rhi.toNat + rmid1.toNat / 2 ^ 32 + rmid2.toNat / 2 ^ 32 := by
    rw [BitVec.toNat_add, BitVec.toNat_add, high_toNat, high_toNat]
    omega
  unfold addMiddle
  dsimp only
  generalize rhi + ((rmid1 >>> 32) &&& x64Long) + ((rmid2 >>> 32) &&& x64Long) = hi at *
  obtain ⟨e1, b1⟩ := @carry_toNat hi rlo (rmid1 <<< 32) (by omega)
  generalize (if rlo + rmid1 <<< 32 < rmid1 <<< 32 then hi + 1 else hi) = hi1 at *
  obtain ⟨e2, -⟩ := @carry_toNat hi1 (rlo + rmid1 <<< 32) (rmid2 <<< 32) (by omega)
  rw [e2, e1, shift_toNat, shift_toNat, hhi]
  clear e1 e2 b1 hhi
  omega

/-- The portable path returns the exact product. -/
theorem uemul64Portable_mul (a b : Word) :
    (uemul64Portable a b).2.toNat * 2 ^ 64 + (uemul64Portable a b).1.toNat =
      a.toNat * b.toNat := by
  have halves (x : Word) :
      ((x >>> 32) &&& x64Long).toNat * 2 ^ 32 + (x &&& x64Long).toNat = x.toNat := by
    rw [high_toNat, low_toNat]
    omega
  have hlt (x : Word) : (x &&& x64Long).toNat < 2 ^ 32 := by
    rw [low_toNat]
    omega
  obtain ⟨hhh, bhh⟩ := half_mul (hlt (a >>> 32)) (hlt (b >>> 32))
  obtain ⟨hhl, bhl⟩ := half_mul (hlt (a >>> 32)) (hlt b)
  obtain ⟨hlh, blh⟩ := half_mul (hlt a) (hlt (b >>> 32))
  obtain ⟨hll, -⟩ := half_mul (hlt a) (hlt b)
  refine (addMiddle_toNat bhh bhl blh).trans ?_
  rw [hhh, hhl, hlh, hll, ← halves a, ← halves b]
  ring

/-- The 128-bit product is exact too. -/
theorem uemul64_mul (a b : Word) :
    (uemul64 a b).2.toNat * 2 ^ 64 + (uemul64 a b).1.toNat = a.toNat * b.toNat := by
  obtain ⟨hlo, hhi⟩ := uemul64_toNat a b
  omega

/-- Both paths return the same words. -/
theorem uemul64Portable_eq : uemul64Portable = uemul64 := by
  funext a b
  have h1 := uemul64_mul a b
  have h2 := uemul64Portable_mul a b
  have hlt1 := (uemul64 a b).1.isLt
  have hlt2 := (uemul64Portable a b).1.isLt
  exact Prod.ext (BitVec.eq_of_toNat_eq (by omega)) (BitVec.eq_of_toNat_eq (by omega))

/-! ## The tests -/

theorem and_qSign {x : Word} : x &&& qSign ≠ 0 ↔ x.msb = true := by
  rw [BitVec.msb_eq_getLsbD_last]
  exact Lib.and_twoPow_ne_zero (i := 63) (by decide)

theorem and_lSign {x : Word} : x &&& lSign ≠ 0 ↔ (x.setWidth 32).msb = true := by
  rw [BitVec.msb_setWidth]
  exact Lib.and_twoPow_ne_zero (i := 31) (by decide)

theorem outside_iff {w : Nat} {x : Int} : Outside w x ↔ ¬(-2 ^ w ≤ x ∧ x < 2 ^ w) := by
  rw [not_and_or, not_le, not_lt]
  rfl

theorem saddOverflow_iff {w : Nat} {a b : BitVec w} :
    a.saddOverflow b = true ↔ Outside (w - 1) (a.toInt + b.toInt) := by
  rw [BitVec.saddOverflow, Outside, Bool.or_eq_true, decide_eq_true_eq, decide_eq_true_eq, or_comm]

theorem ssubOverflow_iff {w : Nat} {a b : BitVec w} :
    a.ssubOverflow b = true ↔ Outside (w - 1) (a.toInt - b.toInt) := by
  rw [BitVec.ssubOverflow, Outside, Bool.or_eq_true, decide_eq_true_eq, decide_eq_true_eq, or_comm]

/-! ### The longword forms -/

theorem setWidth_sextU64L (x : Word) : (sextU64L x).setWidth 32 = x.setWidth 32 := by
  refine BitVec.eq_of_getLsbD_eq fun i hi => ?_
  rw [sextU64L, BitVec.getLsbD_setWidth, BitVec.getLsbD_signExtend, if_pos hi]
  simp [hi, show i < 64 by omega]

theorem toInt_sextU64L (x : Word) : (sextU64L x).toInt = (x.setWidth 32).toInt :=
  BitVec.toInt_signExtend_of_le (by decide)

theorem toInt_low (x : Word) : (x.setWidth 32).toInt = x.toInt.bmod (2 ^ 32) := by
  rw [← BitVec.signExtend_eq_setWidth_of_le x (by decide)]
  exact BitVec.toInt_signExtend_eq_toInt_bmod_of_le x (by decide)

/-- A quadword and its sign-extended low half have one high half when the quadword fits. -/
theorem sextU64L_xor {x : Word} :
    (sextU64L x ^^^ x) &&& 0xffffffff00000000 ≠ 0 ↔ Outside 31 x.toInt := by
  have hmask (i : Nat) (hi : i < 64) :
      (0xffffffff00000000 : Word).getLsbD i = decide (32 ≤ i) := by
    revert i
    decide
  rw [ne_eq, Lib.xor_and_eq_zero]
  have heq : (∀ i, (0xffffffff00000000 : Word).getLsbD i = true →
      (sextU64L x).getLsbD i = x.getLsbD i) ↔ sextU64L x = x := by
    constructor
    · intro h
      refine BitVec.eq_of_getLsbD_eq fun i hi => ?_
      by_cases h32 : 32 ≤ i
      · exact h i (by rw [hmask i hi]; simpa)
      · have := congrArg (·.getLsbD i) (setWidth_sextU64L x)
        simpa [show i < 32 by omega] using this
    · intro h i _
      rw [h]
  rw [heq, ← BitVec.toInt_inj, toInt_sextU64L, toInt_low, Outside, Int.bmod_eq_emod]
  split <;> omega

/-- The product of two longwords fits in a quadword. -/
theorem toInt_mul_sextU64L (a b : Word) : (sextU64L a * sextU64L b).toInt =
    (a.setWidth 32).toInt * (b.setWidth 32).toInt := by
  rw [BitVec.toInt_mul, toInt_sextU64L, toInt_sextU64L]
  obtain ⟨hmin, hmax⟩ := Lib.toInt_mul_bounds (a.setWidth 32) (b.setWidth 32)
  rw [Int.bmod_eq_of_le] <;> omega

/-! ### The quadword product -/

theorem ite_sub (p : Prop) [Decidable p] (x c : Word) :
    (if p then x - c else x) = x - if p then c else 0 := by
  split
  · rfl
  · simp

theorem mulq_test {hi lo : Word} (h : a.toNat * b.toNat = hi.toNat * 2 ^ 64 + lo.toNat) :
    (if lo.msb then (if b.msb then (if a.msb then hi - b else hi) - a else
        if a.msb then hi - b else hi) ≠ 0xffffffffffffffff
      else (if b.msb then (if a.msb then hi - b else hi) - a else
        if a.msb then hi - b else hi) ≠ 0) ↔ Outside 63 (a.toInt * b.toInt) := by
  have hfits := @Lib.fits_iff 64 (hi - (if a.msb then b else 0) - (if b.msb then a else 0)) lo
    (by decide)
  rw [← Lib.toInt_mul_high (by decide) h] at hfits
  rw [ite_sub (b.msb = true), ite_sub (a.msb = true), outside_iff]
  refine Iff.trans ?_ hfits.not.symm
  split <;> rfl

/-! ## The instructions -/

section

variable {s : IntState} {ins : Ins}

theorem arithTrapI_raised (s : IntState) (ins : Ins) :
    Raised { s.toFpState with excSum := 0 } ins (fun i => i = 6 ∨ i = 7)
      (s.arithTrapI ins trapIov).toFpState := by
  refine (arithTrap_raised _ (trapInt ||| trapIov) ins).congr fun i => ?_
  rw [BitVec.getLsbD_or, Bool.or_eq_true, or_comm]
  exact or_congr (Lib.twoPow_bit (j := 6) (by decide)) (Lib.twoPow_bit (j := 7) (by decide))

/-- A result and a test that are those of the exact result. -/
theorem delivered_of {w : Nat} {x : Int} {v : Word} {test : Prop} [Decidable test]
    (hv : v = (BitVec.ofInt w x).signExtend 64) (ht : test ↔ Outside (w - 1) x) :
    Delivered s ins w x ((s.setRcv ins v).trapIf ins test) := by
  have hrc : (s.setRcv ins v).rc ins = s.rc ins := rfl
  unfold IntState.trapIf
  rw [hrc, hv]
  by_cases hc : s.rc ins ≠ 31 ∧ test
  · rw [if_pos hc]
    refine ⟨rfl, fun _ _ => arithTrapI_raised (s.setRcv ins _) ins, fun hq => ?_, rfl, rfl⟩
    exact (hq.elim hc.1 fun h => h (ht.1 hc.2)).elim
  · rw [if_neg hc]
    exact ⟨rfl, fun h1 h2 => absurd ⟨h1, ht.2 h2⟩ hc, fun _ => rfl, rfl, rfl⟩

theorem doAddqV_delivered :
    Delivered s ins 64 ((s.rav ins).toInt + (s.rbv ins).toInt) (doAddqV s ins) := by
  refine delivered_of ?_ ?_
  · rw [BitVec.ofInt_add, BitVec.ofInt_toInt, BitVec.ofInt_toInt, BitVec.signExtend_eq]
  · rw [and_qSign, Lib.add_sign_msb, saddOverflow_iff]

theorem doSubqV_delivered :
    Delivered s ins 64 ((s.rav ins).toInt - (s.rbv ins).toInt) (doSubqV s ins) := by
  refine delivered_of ?_ ?_
  · rw [Lib.ofInt_sub, BitVec.ofInt_toInt, BitVec.ofInt_toInt, BitVec.signExtend_eq]
  · rw [and_qSign, Lib.sub_sign_msb, ssubOverflow_iff]

theorem doAddlV_delivered : Delivered s ins 32
    (((s.rav ins).setWidth 32).toInt + ((s.rbv ins).setWidth 32).toInt) (doAddlV s ins) := by
  refine delivered_of ?_ ?_
  · rw [BitVec.ofInt_add, BitVec.ofInt_toInt, BitVec.ofInt_toInt,
      ← BitVec.setWidth_add _ _ (by decide)]
    rfl
  · rw [and_lSign, BitVec.setWidth_and, BitVec.setWidth_xor, BitVec.setWidth_xor,
      BitVec.setWidth_not (by decide), setWidth_sextU64L, BitVec.setWidth_add _ _ (by decide),
      Lib.add_sign_msb, saddOverflow_iff]

theorem doSublV_delivered : Delivered s ins 32
    (((s.rav ins).setWidth 32).toInt - ((s.rbv ins).setWidth 32).toInt) (doSublV s ins) := by
  refine delivered_of ?_ ?_
  · rw [Lib.ofInt_sub, BitVec.ofInt_toInt, BitVec.ofInt_toInt, ← Lib.setWidth_sub (by decide)]
    rfl
  · rw [and_lSign, BitVec.setWidth_and, BitVec.setWidth_xor, BitVec.setWidth_xor,
      setWidth_sextU64L, Lib.setWidth_sub (by decide), Lib.sub_sign_msb, ssubOverflow_iff]

theorem doMullV_delivered : Delivered s ins 32
    (((s.rav ins).setWidth 32).toInt * ((s.rbv ins).setWidth 32).toInt) (doMullV s ins) := by
  refine delivered_of ?_ ?_
  · rw [BitVec.ofInt_mul, BitVec.ofInt_toInt, BitVec.ofInt_toInt, ← setWidth_sextU64L (s.rav ins),
      ← setWidth_sextU64L (s.rbv ins), ← BitVec.setWidth_mul _ _ (by decide)]
    rfl
  · rw [sextU64L_xor, toInt_mul_sextU64L]

/-- Over any exact product of quadwords. -/
theorem doMulqV_delivered {product : Word → Word → Word × Word} (h : ∀ x y,
    (product x y).2.toNat * 2 ^ 64 + (product x y).1.toNat = x.toNat * y.toNat) :
    Delivered s ins 64 ((s.rav ins).toInt * (s.rbv ins).toInt) (doMulqV s ins product) := by
  have hab := h (s.rav ins) (s.rbv ins)
  unfold doMulqV
  dsimp only
  generalize product (s.rav ins) (s.rbv ins) = p at *
  obtain ⟨lo, hi⟩ := p
  have hlo : lo = s.rav ins * s.rbv ins := by
    refine BitVec.eq_of_toNat_eq ?_
    rw [BitVec.toNat_mul, ← hab]
    have := lo.isLt
    dsimp only
    omega
  refine delivered_of ?_ (mulq_test hab.symm)
  rw [BitVec.ofInt_mul, BitVec.ofInt_toInt, BitVec.ofInt_toInt, BitVec.signExtend_eq, ← hlo]

/-- Over any exact product of quadwords. -/
theorem doUmulh_eq {product : Word → Word → Word × Word} (h : ∀ x y,
    (product x y).2.toNat * 2 ^ 64 + (product x y).1.toNat = x.toNat * y.toNat) :
    doUmulh s ins product = { s with
      r := Function.update s.r (s.rc ins)
        (BitVec.ofNat 64 ((s.rav ins).toNat * (s.rbv ins).toNat / 2 ^ 64)) } := by
  have hlo := (product (s.rav ins) (s.rbv ins)).1.isLt
  rw [doUmulh, ← h, show ((product (s.rav ins) (s.rbv ins)).2.toNat * 2 ^ 64 +
    (product (s.rav ins) (s.rbv ins)).1.toNat) / 2 ^ 64 =
      (product (s.rav ins) (s.rbv ins)).2.toNat by omega, BitVec.ofNat_toNat, BitVec.setWidth_eq]
  rfl

end

/-! ## All of them -/

/-- For every state and instruction, the `/V` forms leave the exact sum, difference and product of
their operands, as signed quadwords or as the signed low halves of these, and trap exactly when it
does not fit, except into R31; the product is exact on either path, and UMULH is its high word. -/
theorem integer_limits (s : IntState) (ins : Ins) :
    let a := s.rav ins
    let b := s.rbv ins
    let al := a.setWidth 32
    let bl := b.setWidth 32
    Delivered s ins 64 (a.toInt + b.toInt) (doAddqV s ins) ∧
    Delivered s ins 64 (a.toInt - b.toInt) (doSubqV s ins) ∧
    Delivered s ins 32 (al.toInt + bl.toInt) (doAddlV s ins) ∧
    Delivered s ins 32 (al.toInt - bl.toInt) (doSublV s ins) ∧
    Delivered s ins 32 (al.toInt * bl.toInt) (doMullV s ins) ∧
    Delivered s ins 64 (a.toInt * b.toInt) (doMulqV s ins uemul64) ∧
    doUmulh s ins uemul64 = { s with
      r := Function.update s.r (s.rc ins)
        (BitVec.ofNat 64 (a.toNat * b.toNat / 2 ^ 64)) } ∧
    (∀ x y, (uemul64Portable x y).2.toNat * 2 ^ 64 + (uemul64Portable x y).1.toNat =
      x.toNat * y.toNat) ∧
    uemul64Portable = uemul64 :=
  ⟨doAddqV_delivered, doSubqV_delivered, doAddlV_delivered, doSublV_delivered, doMullV_delivered,
    doMulqV_delivered uemul64_mul, doUmulh_eq uemul64_mul, uemul64Portable_mul, uemul64Portable_eq⟩

end Alphabox.Cpu
