import Alphabox.Jit.EmitA64
import Alphabox.Cpu.Proof.IntArith

/-!
# What compiled operates compute

Each instruction sequence of the emitter against the interpreter's expression for the same operate.
The variable shifts of the host take their count modulo 64, so the byte position needs no mask; a
constant position makes a shift and a mask one bit field; longwords are computed in 32 bits; the
signed compares read the flags of a subtraction.
-/

namespace Alphabox.Jit

open Fp Cpu

variable {a b : Word} {m sh w : Nat}

/-! ## Bits -/

theorem getLsbD_ones (hm : m ≤ 64) (i : Nat) : (ones m).getLsbD i = decide (i < m) := by
  unfold ones
  rw [BitVec.getLsbD_ofNat, Nat.testBit_two_pow_sub_one]
  by_cases hi : i < m
  · simp [hi, show i < 64 by omega]
  · simp [hi]

theorem and_ones_64 : a &&& ones 64 = a := by
  refine BitVec.eq_of_getLsbD_eq fun i hi => ?_
  rw [BitVec.getLsbD_and, getLsbD_ones le_rfl, decide_eq_true hi, Bool.and_true]

/-- A field of a word that is shifted down. -/
theorem ubfx_min (hm : m ≤ 64) :
    (a >>> sh) &&& ones (min m (64 - sh)) = (a >>> sh) &&& ones m := by
  refine BitVec.eq_of_getLsbD_eq fun i _ => ?_
  rw [BitVec.getLsbD_and, BitVec.getLsbD_and, getLsbD_ones hm, getLsbD_ones (by omega),
    BitVec.getLsbD_ushiftRight]
  by_cases hi : sh + i < 64
  · congr 1
    exact decide_eq_decide.2 (by omega)
  · rw [BitVec.getLsbD_of_ge _ _ (by omega), Bool.false_and, Bool.false_and]

/-- A field that is shifted up. -/
theorem ubfiz_min (hm : m ≤ 64) :
    (a &&& ones (min m (64 - sh))) <<< sh = (a &&& ones m) <<< sh := by
  refine BitVec.eq_of_getLsbD_eq fun i hi => ?_
  rw [BitVec.getLsbD_shiftLeft, BitVec.getLsbD_shiftLeft, BitVec.getLsbD_and, BitVec.getLsbD_and,
    getLsbD_ones hm, getLsbD_ones (by omega)]
  by_cases hs : i < sh
  · simp [hs]
  · congr 2
    exact decide_eq_decide.2 (by omega)

/-- A field that is shifted up, masked after the shift. -/
theorem ubfiz_mask (hm : m ≤ 64) (hs : sh ≤ m) :
    (a &&& ones (m - sh)) <<< sh = (a <<< sh) &&& ones m := by
  refine BitVec.eq_of_getLsbD_eq fun i hi => ?_
  rw [BitVec.getLsbD_shiftLeft, BitVec.getLsbD_and, BitVec.getLsbD_and, BitVec.getLsbD_shiftLeft,
    getLsbD_ones hm, getLsbD_ones (by omega)]
  by_cases hlt : i < sh
  · simp [hlt]
  · rw [show decide (i - sh < m - sh) = decide (i < m) from decide_eq_decide.2 (by omega),
      Bool.and_assoc, Bool.and_assoc, Bool.and_assoc]

/-- A field that is shifted down, masked before the shift. -/
theorem ubfx_mask (hm : m ≤ 64) (hs : sh ≤ m) :
    (a >>> sh) &&& ones (m - sh) = (a &&& ones m) >>> sh := by
  refine BitVec.eq_of_getLsbD_eq fun i hi => ?_
  rw [BitVec.getLsbD_and, BitVec.getLsbD_ushiftRight, BitVec.getLsbD_ushiftRight,
    BitVec.getLsbD_and, getLsbD_ones hm, getLsbD_ones (by omega)]
  congr 1
  exact decide_eq_decide.2 (by omega)

/-- Nothing of the field is left. -/
theorem shl_mask_zero (hm : m ≤ 64) (hs : m ≤ sh) : (a <<< sh) &&& ones m = 0 := by
  refine BitVec.eq_of_getLsbD_eq fun i hi => ?_
  rw [BitVec.getLsbD_and, BitVec.getLsbD_shiftLeft, getLsbD_ones hm]
  by_cases hlt : i < m
  · simp [show i < sh by omega]
  · simp [hlt]

theorem mask_shr_zero (hm : m ≤ 64) (hs : m ≤ sh) : (a &&& ones m) >>> sh = 0 := by
  refine BitVec.eq_of_getLsbD_eq fun i hi => ?_
  rw [BitVec.getLsbD_ushiftRight, BitVec.getLsbD_and, getLsbD_ones hm,
    show decide (sh + i < m) = false from decide_eq_false (by omega), Bool.and_false]
  exact BitVec.getLsbD_zero.symm

/-! ## Byte positions -/

theorem and_7 (b : Word) : (b &&& 7).toNat = b.toNat % 8 := by
  rw [BitVec.toNat_and]
  exact Nat.and_two_pow_sub_one_eq_mod b.toNat 3

theorem bytePos_toNat (b : Word) : (bytePos b).toNat = b.toNat % 8 * 8 := by
  unfold bytePos
  rw [BitVec.toNat_mul, and_7, show (8 : Word).toNat = 8 from rfl]
  exact Nat.mod_eq_of_lt (by omega)

theorem bytePosHigh_toNat (b : Word) : (bytePosHigh b).toNat = (64 - b.toNat % 8 * 8) % 64 := by
  unfold bytePosHigh
  rw [BitVec.toNat_and, show (63 : Word).toNat = 2 ^ 6 - 1 from rfl,
    Nat.and_two_pow_sub_one_eq_mod, BitVec.toNat_sub, bytePos_toNat,
    show (64 : Word).toNat = 64 from rfl]
  omega

/-- The count of a variable shift by the register's eightfold. -/
theorem shl_3_count (b : Word) : (b <<< 3).toNat % 64 = (bytePos b).toNat := by
  rw [bytePos_toNat, BitVec.toNat_shiftLeft, Nat.shiftLeft_eq]
  omega

theorem neg_shl_3_count (b : Word) : (-(b <<< 3)).toNat % 64 = (bytePosHigh b).toNat := by
  rw [bytePosHigh_toNat, BitVec.toNat_neg, BitVec.toNat_shiftLeft, Nat.shiftLeft_eq]
  omega

/-! ## Longwords -/

theorem lo_setWidth (x : BitVec 32) : lo (x.setWidth 64) = x := by
  refine BitVec.eq_of_toNat_eq ?_
  unfold lo
  rw [BitVec.toNat_setWidth, BitVec.toNat_setWidth]
  have := x.isLt
  omega

theorem lo_add (a b : Word) : lo (a + b) = lo a + lo b := BitVec.setWidth_add _ _ (by decide)

theorem lo_sub (a b : Word) : lo (a - b) = lo a - lo b := Lib.setWidth_sub (by decide)

theorem lo_mul (a b : Word) : lo (a * b) = lo a * lo b := BitVec.setWidth_mul _ _ (by decide)

theorem lo_mul_4 (a : Word) : lo (a * 4) = lo a <<< 2 := by
  rw [lo_mul]
  exact (BitVec.shiftLeft_eq_mul_twoPow (lo a) 2).symm

theorem lo_mul_8 (a : Word) : lo (a * 8) = lo a <<< 3 := by
  rw [lo_mul]
  exact (BitVec.shiftLeft_eq_mul_twoPow (lo a) 3).symm

theorem mul_4 (a : Word) : a <<< 2 = a * 4 := BitVec.shiftLeft_eq_mul_twoPow a 2

theorem mul_8 (a : Word) : a <<< 3 = a * 8 := BitVec.shiftLeft_eq_mul_twoPow a 3

/-- A longword result from the low half that gives it. -/
theorem sxtw_eq {x : BitVec 32} {y : Word} (h : x = lo y) :
    UnaryOp.sxtw.eval (x.setWidth 64) = sextU64L y := by
  change (lo (x.setWidth 64)).signExtend 64 = (lo y).signExtend 64
  rw [lo_setWidth, h]

/-- Both operands of MULL count by their low halves. -/
theorem lo_mull (a b : Word) : lo (sextU64L a * sextU64L b) = lo a * lo b := by
  rw [lo_mul]
  exact congrArg₂ _ (setWidth_sextU64L a) (setWidth_sextU64L b)

/-! ## Compares -/

/-- The overflow of a difference. -/
theorem subFlags_v (a b : Word) : (subFlags a b).v = a.ssubOverflow b := by
  rw [BitVec.ssubOverflow_eq]
  unfold subFlags
  dsimp only
  cases a.msb <;> cases b.msb <;> cases (a - b).msb <;> rfl

/-- The sign and the overflow of a difference give the signed order. -/
theorem subFlags_slt (a b : Word) : ((subFlags a b).n != (subFlags a b).v) = a.slt b := by
  rw [subFlags_v, show (subFlags a b).n = (a - b).msb from rfl]
  by_cases ho : a.ssubOverflow b = true
  · rw [ho, Bool.bne_true]
    rw [BitVec.ssubOverflow_eq] at ho
    rw [BitVec.slt_eq_ult, BitVec.ult_eq_msb_of_msb_neq]
    · cases ha : a.msb <;> cases hb : b.msb <;> cases hd : (a - b).msb <;> simp_all
    · cases ha : a.msb <;> cases hb : b.msb <;> cases hd : (a - b).msb <;> simp_all
  · have hsub := BitVec.toInt_sub_of_not_ssubOverflow ho
    rw [Bool.eq_false_of_not_eq_true ho, Bool.bne_false, BitVec.msb_eq_toInt, hsub]
    exact decide_eq_decide.2 (by omega)

theorem cc_eq (a b : Word) : CondCode.holds (subFlags a b) .eq = (a == b) := rfl

theorem cc_lt (a b : Word) : CondCode.holds (subFlags a b) .lt = a.slt b := subFlags_slt a b

theorem cc_le (a b : Word) : CondCode.holds (subFlags a b) .le = a.sle b := by
  have h : ((subFlags a b).n == (subFlags a b).v) = !a.slt b := by
    rw [← subFlags_slt, bne, Bool.not_not]
  unfold CondCode.holds
  rw [h, BitVec.sle_eq_slt_or_eq]
  change (!(!(a == b) && !a.slt b)) = _
  cases a.slt b <;> cases a == b <;> rfl

theorem cc_lo (a b : Word) : CondCode.holds (subFlags a b) .lo = a.ult b := by
  change (!decide (b ≤ a)) = decide (a.toNat < b.toNat)
  rw [← decide_not]
  exact decide_eq_decide.2 (by rw [BitVec.le_def]; omega)

theorem cc_ls (a b : Word) : CondCode.holds (subFlags a b) .ls = a.ule b := by
  change (!(decide (b ≤ a) && !(a == b))) = decide (a.toNat ≤ b.toNat)
  have he : (a == b) = decide (a.toNat = b.toNat) := by
    rw [Bool.eq_iff_iff, beq_iff_eq, decide_eq_true_iff, BitVec.toNat_inj]
  rw [he, ← decide_not, ← Bool.decide_and, ← decide_not]
  exact decide_eq_decide.2 (by rw [BitVec.le_def]; omega)

/-! ## Conditions on one register -/

theorem slt_zero (a : Word) : a.slt 0 = a.msb := by
  rw [BitVec.slt_eq_decide, BitVec.msb_eq_toInt]
  rfl

theorem sle_zero (a : Word) : a.sle 0 = (a.msb || a == 0) := by
  rw [BitVec.sle_eq_slt_or_eq, slt_zero]

/-- The sign and the low bit, as single-bit tests see them. -/
theorem slt_zero_bit (a : Word) : a.slt 0 = a.getLsbD 63 := by
  rw [slt_zero]
  exact BitVec.msb_eq_getLsbD_last a

theorem and_1_bit (a : Word) : (a &&& 1 == 0) = !a.getLsbD 0 := by
  have h1 : (a &&& 1).toNat = a.toNat % 2 := by
    rw [BitVec.toNat_and]
    exact Nat.and_two_pow_sub_one_eq_mod a.toNat 1
  have h0 : (a &&& 1 == 0) = decide (a.toNat % 2 = 0) := by
    rw [Bool.eq_iff_iff, beq_iff_eq, decide_eq_true_iff, ← BitVec.toNat_inj, h1]
    rfl
  rw [h0, BitVec.getLsbD, Nat.testBit_zero, ← decide_not]
  exact decide_eq_decide.2 (by omega)

/-- A condition on the flags of a register with itself, or with 1 for its low bit. -/
theorem cmov_holds (a : Word) :
    CondCode.holds (logicFlags a) .eq = IntCond.holds .eq a ∧
    CondCode.holds (logicFlags a) .ne = IntCond.holds .ne a ∧
    CondCode.holds (logicFlags a) .lt = IntCond.holds .lt a ∧
    CondCode.holds (logicFlags a) .ge = IntCond.holds .ge a ∧
    CondCode.holds (logicFlags a) .le = IntCond.holds .le a ∧
    CondCode.holds (logicFlags a) .gt = IntCond.holds .gt a := by
  refine ⟨rfl, rfl, ?_, ?_, ?_, ?_⟩
  · change (a.msb != false) = a.slt 0
    rw [slt_zero, Bool.bne_false]
  · change (a.msb == false) = !a.slt 0
    rw [slt_zero]
    cases a.msb <;> rfl
  · change (!(!(a == 0) && (a.msb == false))) = a.sle 0
    rw [sle_zero]
    cases a.msb <;> cases a == 0 <;> rfl
  · change (!(a == 0) && (a.msb == false)) = !a.sle 0
    rw [sle_zero]
    cases a.msb <;> cases a == 0 <;> rfl

/-! ## Shifts and counts -/

theorem and_63 (b : Word) : (b &&& 63).toNat = b.toNat % 64 := by
  rw [BitVec.toNat_and]
  exact Nat.and_two_pow_sub_one_eq_mod b.toNat 6

theorem sra_eq (a b : Word) : a.sshiftRight (b.toNat % 64) = sra a b := by
  have hb := and_63 b
  have hz : b &&& 63 ≠ 0 ↔ b.toNat % 64 ≠ 0 := by
    rw [← hb, ne_eq, ne_eq, ← BitVec.toNat_inj]
    rfl
  have hm : a >>> 63 ≠ 0 ↔ a.msb = true := by
    rw [BitVec.msb_eq_decide, decide_eq_true_iff, ne_eq, ← BitVec.toNat_inj,
      BitVec.toNat_ushiftRight, Nat.shiftRight_eq_div_pow]
    have := a.isLt
    change ¬a.toNat / 2 ^ 63 = 0 ↔ 2 ^ 63 ≤ a.toNat
    omega
  unfold sra
  by_cases h0 : b.toNat % 64 = 0
  · rw [if_neg (by rwa [hz, not_not]), h0]
    exact BitVec.sshiftRight_zero
  rw [if_pos (hz.2 h0), BitVec.ushiftRight_eq', hb, BitVec.shiftLeft_eq', BitVec.toNat_sub, hb]
  have hk : b.toNat % 64 < 64 := Nat.mod_lt _ (by decide)
  generalize b.toNat % 64 = k at *
  rw [show (2 ^ 64 - k + (64 : Word).toNat) % 2 ^ 64 = 64 - k by
    change (2 ^ 64 - k + 64) % 2 ^ 64 = 64 - k
    omega]
  refine BitVec.eq_of_getLsbD_eq fun i hi => ?_
  rw [BitVec.getLsbD_sshiftRight, BitVec.getLsbD_or, BitVec.getLsbD_ushiftRight]
  by_cases hs : a.msb = true
  · rw [if_pos (hm.2 hs), hs, BitVec.getLsbD_shiftLeft]
    have hq : ∀ j < 64, x64Quad.getLsbD j = true := by decide
    rw [hq _ (by omega)]
    by_cases hki : k + i < 64
    · simp [hki, hi, show i < 64 - k by omega]
    · rw [BitVec.getLsbD_of_ge _ _ (by omega)]
      simp [hki, hi, show ¬i < 64 - k by omega]
  · rw [if_neg (fun e => hs (hm.1 e)), Bool.eq_false_of_not_eq_true hs]
    by_cases hki : k + i < 64
    · simp [hki, hi]
    · rw [BitVec.getLsbD_of_ge _ _ (by omega)]
      simp [hki]

/-- CLZ finds the first set bit from the top, as the loop does. -/
theorem clz_eq (a : Word) : a.clz = BitVec.ofNat 64 (leadingZeros a 64) := by
  have haux (n : Nat) (hn : n < 64) :
      a.clzAuxRec n = BitVec.ofNat 64 (63 - n + leadingZeros a (n + 1)) := by
    induction n with
    | zero =>
      rw [BitVec.clzAuxRec_zero, leadingZeros, leadingZeros]
      split <;> rfl
    | succ n ih =>
      rw [BitVec.clzAuxRec_succ, leadingZeros]
      split
      · rfl
      · rw [ih (by omega)]
        congr 1
        omega
  exact (haux 63 (by decide)).trans (congrArg _ (Nat.zero_add _))

/-- The first set bit from the bottom is the first from the top of the bits in reverse. -/
theorem ctz_eq (a : Word) : leadingZeros a.reverse 64 = trailingZeros a 0 64 := by
  have haux (n : Nat) (hn : n ≤ 64) :
      leadingZeros a.reverse n = trailingZeros a (64 - n) n := by
    induction n with
    | zero => rfl
    | succ n ih =>
      have hbit : a.reverse.getLsbD n = a.getLsbD (64 - (n + 1)) := by
        rw [BitVec.getLsbD_reverse, BitVec.getMsbD_eq_getLsbD, decide_eq_true (by omega),
          Bool.true_and]
        congr 1
        omega
      rw [leadingZeros, trailingZeros, hbit, ih (by omega),
        show 64 - (n + 1) + 1 = 64 - n by omega]
  exact haux 64 le_rfl

/-! ## Bytes -/

/-- The mask of the bytes that are set, from the bits. -/
def spread (b0 b1 b2 b3 b4 b5 b6 b7 : Bool) : Word :=
  (if b0 then 0xff else 0) ||| (if b1 then 0xff00 else 0) ||| (if b2 then 0xff0000 else 0) |||
    (if b3 then 0xff000000 else 0) ||| (if b4 then 0xff00000000 else 0) |||
    (if b5 then 0xff0000000000 else 0) ||| (if b6 then 0xff000000000000 else 0) |||
    (if b7 then 0xff00000000000000 else 0)

end Alphabox.Jit
