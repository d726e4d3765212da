import Alphabox.Fp.Proof.Align
import Mathlib.Data.Rat.Floor

/-!
# IEEE addition and subtraction

The sum of two unpacked numbers is near the exact sum (`addAligned_spec`), so `ieee_fadd` rounds
it once (`ieee_fadd_rounded`).
-/

namespace Alphabox.Fp

open Lib

/-! ## Operands -/

/-- A normal number, unpacked. -/
def unpacked (w : Word) : Ufp := ⟨fprSign w, fprExp w, (fprFrac w ||| hiddenBit) <<< 11⟩

theorem ieeeUnpack_zero {w : Word} (hw : ZeroOrNormal w) (h0 : fprExp w = 0) (s : FpState)
    (ins : Ins) : ieeeUnpack s w ins = (.zero, ⟨fprSign w, 0, 0⟩, s) := by
  simp [ieeeUnpack, h0, hw.2 h0]

theorem ieeeUnpack_normal {w : Word} (hw : Normal w) (s : FpState) (ins : Ins) :
    ieeeUnpack s w ins = (.fin, unpacked w, s) := by
  simp [ieeeUnpack, hw.1, hw.2, unpacked]

theorem unpacked_toNat (w : Word) :
    (unpacked w).frac.toNat = (2 ^ 52 + (fprFrac w).toNat) * 2 ^ 11 := by
  have hlt := fprFrac_lt w
  have hor : (fprFrac w ||| hiddenBit).toNat = 2 ^ 52 + (fprFrac w).toNat := by
    have h := Nat.two_pow_add_eq_or_of_lt hlt 1
    rw [Nat.mul_one] at h
    rw [BitVec.or_comm, BitVec.toNat_or, h]
    rfl
  rw [unpacked, shiftLeft_toNat (by rw [hor]; omega), hor]

theorem unpacked_frac (w : Word) : Frac (unpacked w).frac.toNat := by
  have hlt := fprFrac_lt w
  rw [unpacked_toNat]
  exact ⟨by omega, by omega, by omega⟩

theorem ieeeVal_zero {K : Type*} [Field K] {w : Word} (h0 : fprExp w = 0) : (ieeeVal w : K) = 0 :=
  if_pos h0

section

variable {K : Type*} [Field K] [LinearOrder K] [IsStrictOrderedRing K]

/-- The number an unpacked operand stands for. -/
def Ufp.val (r : Ufp) : K := signed r.sign ((r.frac.toNat : K) * 2 ^ (r.exp - 1086))

theorem unpacked_val {w : Word} (hw : Normal w) : (ieeeVal w : K) = (unpacked w).val := by
  have hc : ((unpacked w).frac.toNat : K) = (2 ^ 52 + (fprFrac w).toNat) * 2 ^ 11 := by
    exact_mod_cast unpacked_toNat w
  have e : (fprExp w : ℤ) - 1075 = (11 : ℕ) + ((fprExp w : ℤ) - 1086) := by
    push_cast
    ring
  rw [ieeeVal, if_neg hw.2, Ufp.val, hc]
  simp only [unpacked]
  rw [e, zpow_add₀ two_ne_zero, zpow_natCast, mul_assoc]

omit [IsStrictOrderedRing K] in
/-- An operand as it is. -/
theorem Frac.near {r : Ufp} (h : Frac r.frac.toNat) : Near r (r.frac.toNat : K) r.val :=
  ⟨h.top, .refl _ _, rfl⟩

/-! ## The sum of two normal numbers -/

/-- The second operand at the exponent of the first. -/
theorem val_aligned {a b : Ufp} (h : b.exp ≤ a.exp) : (b.val : K) =
    signed b.sign ((b.frac.toNat : K) / 2 ^ (a.exp - b.exp).toNat * 2 ^ (a.exp - 1086)) := by
  obtain ⟨n, hn⟩ : ∃ n : ℕ, a.exp = b.exp + n := ⟨(a.exp - b.exp).toNat, by omega⟩
  have e : a.exp - 1086 = (n : ℤ) + (b.exp - 1086) := by omega
  rw [Ufp.val, e, zpow_add₀ two_ne_zero, zpow_natCast, show (a.exp - b.exp).toNat = n by omega,
    ← mul_assoc, div_mul_cancel₀ _ (by positivity)]

/-- The exact sum at the exponent of the first operand. -/
theorem sum_aligned {a b : Ufp} (h : b.exp ≤ a.exp) : (a.val + b.val : K) =
    signed a.sign ((if a.sign = b.sign then
        (a.frac.toNat : K) + b.frac.toNat / 2 ^ (a.exp - b.exp).toNat
      else a.frac.toNat - b.frac.toNat / 2 ^ (a.exp - b.exp).toNat) * 2 ^ (a.exp - 1086)) := by
  rw [val_aligned h, Ufp.val]
  cases ha : a.sign <;> cases hb : b.sign <;> simp <;> ring

/-- A carry out of the sum, shifted in with the sticky bit kept. -/
theorem carry_toNat {s : Word} {S : ℕ} (hs : s.toNat = S - 2 ^ 64) (h1 : 2 ^ 64 ≤ S) :
    (ufNm ||| s >>> 1 ||| (s &&& 1)).toNat = shiftJam S 1 := by
  have hlt : s.toNat < 2 ^ 64 := s.isLt
  have h2 : (s >>> 1).toNat = s.toNat / 2 := by
    rw [BitVec.toNat_ushiftRight, Nat.shiftRight_eq_div_pow]
  have hor : (ufNm ||| s >>> 1).toNat = S / 2 := by
    rw [BitVec.or_comm, or_ufNm_toNat (by omega)]
    omega
  have hand : (s &&& 1).toNat = S % 2 := by
    have h : s.toNat &&& 1 = s.toNat % 2 := Nat.and_two_pow_sub_one_eq_mod s.toNat 1
    rw [BitVec.toNat_and]
    change s.toNat &&& 1 = S % 2
    omega
  rw [BitVec.toNat_or, hor, hand, shiftJam, Nat.pow_one]
  split
  · rename_i h
    simp [h]
  · rename_i h
    rw [show S % 2 = 1 by omega]

section

variable {a : Ufp} {bj : Word} {B n : ℕ}

/-- Magnitudes that add up. -/
theorem effAdd_near (ha : Frac a.frac.toNat) (hj : bj.toNat = shiftJam B n) :
    ∃ X, Near (if a.frac + bj < bj then
        { a with frac := ufNm ||| (a.frac + bj) >>> 1 ||| (a.frac + bj &&& 1), exp := a.exp + 1 }
      else { a with frac := a.frac + bj }) X
      (signed a.sign ((a.frac.toNat + B / 2 ^ n) * 2 ^ (a.exp - 1086)) : K) := by
  have hlt : bj.toNat < 2 ^ 64 := bj.isLt
  have ht := ha.top
  have hlt2 := ha.lt
  have hsum := BitVec.toNat_add a.frac bj
  have hdef := BitVec.lt_def (x := a.frac + bj) (y := bj)
  by_cases hc : a.frac + bj < bj
  · have hcN := hdef.1 hc
    have hS : 2 ^ 64 ≤ a.frac.toNat + shiftJam B n := by omega
    have hf := carry_toNat (s := a.frac + bj) (S := a.frac.toNat + shiftJam B n) (by omega) hS
    refine ⟨(a.frac.toNat + B / 2 ^ n) / 2, ?_⟩
    rw [if_pos hc]
    refine ⟨?_, ?_, ?_⟩
    · rw [hf, shiftJam]
      split
      · omega
      · exact Nat.le_trans (by omega) Nat.left_le_or
    · rw [hf]
      exact (ha.add_carry B n).coarsen_pow (by omega)
    · dsimp only
      rw [show a.exp + 1 - 1086 = 1 + (a.exp - 1086) by ring, zpow_add₀ two_ne_zero, zpow_one,
        ← mul_assoc, div_mul_cancel₀ _ two_ne_zero]
  · have hcN := hdef.not.1 hc
    have hf : (a.frac + bj).toNat = a.frac.toNat + shiftJam B n := by omega
    refine ⟨a.frac.toNat + B / 2 ^ n, ?_⟩
    rw [if_neg hc]
    refine ⟨by dsimp only; omega, ?_, rfl⟩
    dsimp only
    rw [hf]
    exact (ha.add_side B n).coarsen_pow (by omega)

/-- Magnitudes that differ. -/
theorem effSub_near (ha : Frac a.frac.toNat) (hB : Frac B) (hle : n = 0 → B ≤ a.frac.toNat)
    (hj : bj.toNat = shiftJam B n) (h0 : a.frac - bj ≠ 0) :
    ∃ X, Near (ieeeNorm { a with frac := a.frac - bj }) X
      (signed a.sign ((a.frac.toNat - B / 2 ^ n) * 2 ^ (a.exp - 1086)) : K) := by
  have hjle := ha.jam_le hB hle
  have hsub : (a.frac - bj).toNat = a.frac.toNat - shiftJam B n := by
    rw [BitVec.toNat_sub_of_le (by rw [BitVec.le_def]; omega), hj]
  obtain ⟨k, hk⟩ := ieeeNorm_spec (r := { a with frac := a.frac - bj }) h0
  have hf := hk.frac
  dsimp only at hf
  rw [hsub] at hf
  refine ⟨(a.frac.toNat - B / 2 ^ n) * 2 ^ k, hk.top, ?_, ?_⟩
  · rw [hf]
    refine ha.sub_norm hB hle ?_
    rw [← hf]
    exact (ieeeNorm _).frac.isLt
  · rw [hk.sign, hk.exp]
    dsimp only
    rw [show a.exp - 1086 = (k : ℤ) + (a.exp - k - 1086) by ring, zpow_add₀ two_ne_zero,
      zpow_natCast, mul_assoc]

end

/-- What the sum of two normal numbers leaves: a zero for numbers that cancel, or a number near
the exact sum. -/
theorem addAligned_spec {a b : Ufp} (mi : Bool) (ha : Frac a.frac.toNat) (hb : Frac b.frac.toNat)
    (hexp : b.exp ≤ a.exp) (hle : a.exp = b.exp → b.frac ≤ a.frac) :
    ((addAligned mi a b).frac = 0 ∧ (addAligned mi a b).sign = mi ∧ a.sign ≠ b.sign ∧
      (a.val + b.val : K) = 0) ∨
    ∃ X, Near (addAligned mi a b) X (a.val + b.val : K) := by
  have hB0 : b.frac ≠ 0 := by
    have := hb.top
    rw [toNat_ne_zero]
    omega
  have hbj := shiftSticky_toNat hB0 (a.exp - b.exp).toNat
  have hle2 : (a.exp - b.exp).toNat = 0 → b.frac.toNat ≤ a.frac.toNat := by
    intro h
    exact hle (by omega)
  have hj := ha.jam_le hb hle2
  rw [sum_aligned hexp]
  unfold addAligned
  dsimp only
  generalize shiftSticky b.frac (a.exp - b.exp).toNat = bj at *
  generalize (a.exp - b.exp).toNat = n at *
  by_cases hs : a.sign = b.sign
  · obtain ⟨X, hX⟩ := effAdd_near (K := K) ha hbj
    rw [if_neg (not_not.2 hs), if_pos hs]
    exact .inr ⟨X, hX⟩
  · rw [if_pos hs, if_neg hs]
    by_cases h0 : a.frac - bj = 0
    · left
      have hz : a.frac.toNat - shiftJam b.frac.toNat n = 0 := by
        have := congrArg BitVec.toNat h0
        rw [BitVec.toNat_sub_of_le (by rw [BitVec.le_def]; omega), hbj] at this
        exact this
      rw [ha.sub_eq_zero (K := K) hb hle2 hz, h0]
      simp [ieeeNorm, hs]
    · obtain ⟨X, hX⟩ := effSub_near (K := K) ha hb hle2 hbj h0
      have hne : (ieeeNorm { a with frac := a.frac - bj }).frac ≠ 0 := by
        have := hX.top
        rw [toNat_ne_zero]
        omega
      rw [if_neg hne]
      exact .inr ⟨X, hX⟩

/-! ## The instruction -/

theorem ieeeRpack_zero {r : Ufp} (h : r.frac = 0) (s : FpState) (ins : Ins) (dp : IeeeDt) :
    ieeeRpack s r ins dp = (signBit r.sign, s) := by
  rw [ieeeRpack, if_pos h]

/-- An operand with its sign changed for a subtraction. -/
def Ufp.flip (sub : Bool) (b : Ufp) : Ufp := if sub then { b with sign := !b.sign } else b

theorem flip_frac (sub : Bool) (b : Ufp) : (b.flip sub).frac = b.frac := by
  cases sub <;> rfl

theorem flip_sign (sub : Bool) (b : Ufp) : (b.flip sub).sign = (b.sign ^^ sub) := by
  cases sub <;> simp [Ufp.flip]

omit [LinearOrder K] [IsStrictOrderedRing K] in
theorem flip_val (sub : Bool) (b : Ufp) : ((b.flip sub).val : K) = signed sub b.val := by
  cases sub with
  | false => rfl
  | true => cases h : b.sign <;> simp [Ufp.flip, Ufp.val, h]

/-- The order of the operands by magnitude. -/
theorem larger_spec (a b : Ufp) : ((larger a b) = (a, b) ∨ (larger a b) = (b, a)) ∧
    (larger a b).2.exp ≤ (larger a b).1.exp ∧
    ((larger a b).1.exp = (larger a b).2.exp → (larger a b).2.frac ≤ (larger a b).1.frac) := by
  unfold larger
  split
  · rename_i h
    refine ⟨.inr rfl, by dsimp only; omega, fun he => ?_⟩
    obtain h | ⟨-, h⟩ := h
    · dsimp only at he
      omega
    · exact BitVec.le_of_lt h
  · rename_i h
    rw [not_or, not_and] at h
    exact ⟨.inl rfl, by dsimp only; omega, fun he => BitVec.not_lt.1 (h.2 he)⟩

/-- The sum of two normal numbers. -/
theorem addLarger_spec {a b : Ufp} (mi : Bool) (ha : Frac a.frac.toNat) (hb : Frac b.frac.toNat) :
    ((addAligned mi (larger a b).1 (larger a b).2).frac = 0 ∧
      (addAligned mi (larger a b).1 (larger a b).2).sign = mi ∧ a.sign ≠ b.sign ∧
      (a.val + b.val : K) = 0) ∨
    ∃ X, Near (addAligned mi (larger a b).1 (larger a b).2) X (a.val + b.val : K) := by
  obtain ⟨hl | hl, hexp, hle⟩ := larger_spec a b
  · rw [hl] at hexp hle ⊢
    exact addAligned_spec mi ha hb hexp hle
  · rw [hl] at hexp hle ⊢
    obtain ⟨h0, hs, hne, hx⟩ | hX := addAligned_spec (K := K) mi hb ha hexp hle
    · exact .inl ⟨h0, hs, hne.symm, by rw [add_comm]; exact hx⟩
    · rw [add_comm]
      exact .inr hX

/-- The exact sum or difference. -/
def exactSum (s1 s2 : Word) (sub : Bool) : K := ieeeVal s1 + signed sub (ieeeVal s2)

/-- The sign of an exactly zero sum: that of the operands when they agree, else plus except when
rounding to minus infinity. -/
def sumZeroSign (s : FpState) (s1 s2 : Word) (ins : Ins) (sub : Bool) : Bool :=
  if fprSign s1 = (fprSign s2 ^^ sub) then fprSign s1 else decide (roundCode s ins = frndM)

/-- The operation on zeros and normal numbers. -/
theorem ieeeFadd_eq {s : FpState} {s1 s2 : Word} {ins : Ins} {ta tb : Uft} {a b : Ufp}
    (h1 : ieeeUnpack s s1 ins = (ta, a, s)) (h2 : ieeeUnpack s s2 ins = (tb, b, s))
    (ha : ta = .zero ∨ ta = .fin) (hb : tb = .zero ∨ tb = .fin) (dp : IeeeDt) (sub : Bool) :
    ieeeFadd s s1 s2 ins dp sub = ieeeRpack s
      (if ta = .zero then
        if tb = .zero ∧ a.sign ≠ (b.flip sub).sign then ⟨decide (roundCode s ins = frndM), 0, 0⟩
        else b.flip sub
      else if tb = .zero then a
      else addAligned (decide (roundCode s ins = frndM)) (larger a (b.flip sub)).1
        (larger a (b.flip sub)).2) ins dp := by
  unfold ieeeFadd
  simp only [h1, h2]
  obtain rfl | rfl := ha <;> obtain rfl | rfl := hb <;> rfl

variable [FloorRing K]

theorem fadd_rounded {s1 s2 : Word} (h1 : ZeroOrNormal s1) (h2 : ZeroOrNormal s2) (s : FpState)
    (ins : Ins) (dp : IeeeDt) (sub : Bool) :
    Rounded dp (roundModeOf (roundCode s ins)) (sumZeroSign s s1 s2 ins sub)
      (exactSum s1 s2 sub : K) s (ieeeFadd s s1 s2 ins dp sub) := by
  unfold exactSum
  by_cases z1 : fprExp s1 = 0
  · have u1 := ieeeUnpack_zero h1 z1 s ins
    rw [ieeeVal_zero z1, zero_add]
    by_cases z2 : fprExp s2 = 0
    · rw [ieeeFadd_eq u1 (ieeeUnpack_zero h2 z2 s ins) (.inl rfl) (.inl rfl), ieeeVal_zero z2,
        if_pos rfl, flip_sign, signed_eq_zero.2 rfl]
      by_cases hs : fprSign s1 = (fprSign s2 ^^ sub)
      · rw [if_neg (by simp [hs]), ieeeRpack_zero (flip_frac _ _), flip_sign, sumZeroSign,
          if_pos hs, hs]
        exact rounded_zero
      · rw [if_pos ⟨rfl, hs⟩, ieeeRpack_zero rfl, sumZeroSign, if_neg hs]
        exact rounded_zero
    · have n2 : Normal s2 := ⟨h2.1, z2⟩
      have hf : Frac ((unpacked s2).flip sub).frac.toNat := by
        rw [flip_frac]
        exact unpacked_frac s2
      rw [ieeeFadd_eq u1 (ieeeUnpack_normal n2 s ins) (.inl rfl) (.inr rfl), if_pos rfl,
        if_neg (by simp), unpacked_val n2, ← flip_val]
      exact ieeeRpack_rounded hf.near s ins dp _
  · have n1 : Normal s1 := ⟨h1.1, z1⟩
    have u1 := ieeeUnpack_normal n1 s ins
    rw [unpacked_val n1]
    by_cases z2 : fprExp s2 = 0
    · rw [ieeeFadd_eq u1 (ieeeUnpack_zero h2 z2 s ins) (.inr rfl) (.inl rfl), ieeeVal_zero z2,
        if_neg (by decide), if_pos rfl, signed_eq_zero.2 rfl, add_zero]
      exact ieeeRpack_rounded (unpacked_frac s1).near s ins dp _
    · have n2 : Normal s2 := ⟨h2.1, z2⟩
      have hf : Frac ((unpacked s2).flip sub).frac.toNat := by
        rw [flip_frac]
        exact unpacked_frac s2
      rw [ieeeFadd_eq u1 (ieeeUnpack_normal n2 s ins) (.inr rfl) (.inr rfl), if_neg (by decide),
        if_neg (by decide), unpacked_val n2, ← flip_val]
      obtain ⟨h0, hsg, hne, hx⟩ | ⟨X, hX⟩ := addLarger_spec (K := K)
        (decide (roundCode s ins = frndM)) (unpacked_frac s1) hf
      · have hz : sumZeroSign s s1 s2 ins sub = decide (roundCode s ins = frndM) := by
          rw [flip_sign] at hne
          rw [sumZeroSign]
          exact if_neg hne
        rw [ieeeRpack_zero h0, hsg, hx, hz]
        exact rounded_zero
      · exact ieeeRpack_rounded hX s ins dp _

end

/-- IEEE addition and subtraction are correctly rounded. -/
theorem ieee_fadd_rounded {s1 s2 : Word} (h1 : ZeroOrNormal s1) (h2 : ZeroOrNormal s2)
    (s : FpState) (ins : Ins) (dp : IeeeDt) (sub : Bool) :
    Rounded dp (roundModeOf (roundCode s ins)) (sumZeroSign s s1 s2 ins sub)
      (exactSum s1 s2 sub : ℚ) s (ieeeFadd s s1 s2 ins dp sub) :=
  fadd_rounded h1 h2 s ins dp sub

/-- One and a half of its last place, to nearest: a tie. -/
theorem ieee_fadd_rounded_tie :
    ZeroOrNormal 0x3ff0000000000000 ∧ ZeroOrNormal 0x3ca0000000000000 ∧
    Rounded .t (roundModeOf (roundCode ⟨0, 0, false, false, false, 0, false⟩ 0x1000))
      (sumZeroSign ⟨0, 0, false, false, false, 0, false⟩ 0x3ff0000000000000 0x3ca0000000000000
        0x1000 false)
      (exactSum 0x3ff0000000000000 0x3ca0000000000000 false : ℚ)
      ⟨0, 0, false, false, false, 0, false⟩
      (ieeeFadd ⟨0, 0, false, false, false, 0, false⟩ 0x3ff0000000000000 0x3ca0000000000000
        0x1000 .t false) := by
  have h1 : ZeroOrNormal 0x3ff0000000000000 := by decide
  have h2 : ZeroOrNormal 0x3ca0000000000000 := by decide
  exact ⟨h1, h2, ieee_fadd_rounded h1 h2 _ _ _ _⟩

end Alphabox.Fp
