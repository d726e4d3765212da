import Alphabox.Lib.Bits
import Alphabox.System.Llsc

/-!
# Lines and buckets
-/

namespace Alphabox.System

namespace Board

variable {B : Board} {a x y : BitVec 64}

theorem cpuLockMatches_iff : B.cpuLockMatches x y = true ↔ B.line x = B.line y := by
  simp only [cpuLockMatches, line, decide_eq_true_eq, BitVec.and_assoc]
  rw [Lib.xor_and_eq_zero, Lib.and_eq_and]

/-- The bits of an address that make up its bucket are decoded. -/
theorem physMask_getLsbD {i : Nat} (h6 : 6 ≤ i) (h22 : i < 22) : B.physMask.getLsbD i = true := by
  have hb : ∀ i < 22, 6 ≤ i → (0x3fffc0#64).getLsbD i = true := by decide
  have hi := congrArg (·.getLsbD i) B.line_decoded
  simpa [hb i h22 h6] using hi

/-- Addresses of one line have one bucket. -/
theorem bucket_eq_of_line (h : B.line x = B.line y) : bucket x = bucket y := by
  have hm : ∀ i < 64, (0xffff#64).getLsbD i = true → i < 16 := by decide
  have hn : ∀ i < 22, 6 ≤ i → (~~~63#64).getLsbD i = true := by decide
  simp only [line, BitVec.and_assoc] at h
  refine Lib.and_eq_and.mpr fun i hi => ?_
  by_cases h64 : i < 64
  · have h16 := hm i h64 hi
    have hb := Lib.and_eq_and.mp h (6 + i)
    rw [BitVec.getLsbD_and, physMask_getLsbD (by omega) (by omega), hn _ (by omega) (by omega)] at hb
    simpa using hb rfl
  · rw [BitVec.getLsbD_of_ge _ _ (by omega), BitVec.getLsbD_of_ge _ _ (by omega)]

/-- Clearing the low six bits rounds down to a line. -/
theorem toNat_and_not_63 (x : BitVec 64) : (x &&& ~~~63#64).toNat = x.toNat / 64 * 64 := by
  have h : x &&& ~~~63#64 = (x >>> 6) <<< 6 := by
    refine BitVec.eq_of_getLsbD_eq fun i hi => ?_
    have hn : ∀ i < 64, (~~~63#64).getLsbD i = decide (6 ≤ i) := by decide
    rw [BitVec.getLsbD_and, hn i hi, BitVec.getLsbD_shiftLeft, BitVec.getLsbD_ushiftRight]
    by_cases h6 : 6 ≤ i
    · simp [hi, h6]
    · simp [h6]
  have hx := x.isLt
  rw [h, BitVec.toNat_shiftLeft, BitVec.toNat_ushiftRight, Nat.shiftRight_eq_div_pow,
    Nat.shiftLeft_eq]
  omega

theorem line_of_dram (h : a < B.dramSize) : B.line a = a &&& ~~~63#64 := by
  rw [line, B.dram_decoded a h]

/-- The `i`-th byte of a transfer inside DRAM. -/
theorem dram_byte {bytes i : Nat} (h : a.toNat + bytes ≤ B.dramSize.toNat) (hi : i < bytes) :
    (a + BitVec.ofNat 64 i).toNat = a.toNat + i ∧ a + BitVec.ofNat 64 i < B.dramSize := by
  have hd := B.dram_small
  have ht : (a + BitVec.ofNat 64 i).toNat = a.toNat + i := by
    rw [BitVec.toNat_add, BitVec.toNat_ofNat]
    omega
  refine ⟨ht, ?_⟩
  rw [BitVec.lt_def, ht]
  omega

/-- The invalidating probe covers the line of every byte that is then written. -/
theorem lineInRange_of_byte {bytes i : Nat} (h : a.toNat + bytes ≤ B.dramSize.toNat)
    (hi : i < bytes) (hx : B.line x = B.line (a + BitVec.ofNat 64 i)) :
    B.lineInRange a bytes x = true := by
  have hd := B.dram_small
  obtain ⟨hb, hbd⟩ := dram_byte h hi
  have ha : a < B.dramSize := by
    rw [BitVec.lt_def]
    omega
  have hl : (a + BitVec.ofNat 64 bytes - 1).toNat = a.toNat + bytes - 1 := by
    have h1 : (1 : BitVec 64).toNat = 1 := rfl
    rw [BitVec.toNat_sub, BitVec.toNat_add, BitVec.toNat_ofNat, h1]
    omega
  simp only [lineInRange, hx, line_of_dram hbd, B.dram_decoded a ha, Bool.and_eq_true,
    decide_eq_true_eq, BitVec.le_def, toNat_and_not_63, hb, hl]
  omega

/-- DRAM is below the I/O space. -/
theorem dram_not_io (h : a < B.dramSize) : a &&& cpuLockIoMask = 0 := by
  have hd := B.dram_small
  have ha : a.toNat < 2 ^ 43 := by
    rw [BitVec.lt_def] at h
    omega
  refine BitVec.eq_of_getLsbD_eq fun i hi => ?_
  have hm : ∀ i < 64, cpuLockIoMask.getLsbD i = decide (i = 43) := by decide
  rw [BitVec.getLsbD_and, hm i hi]
  by_cases h43 : i = 43
  · subst h43
    simp [BitVec.getLsbD, Nat.testBit_lt_two_pow ha]
  · simp [h43]

end Board

end Alphabox.System
