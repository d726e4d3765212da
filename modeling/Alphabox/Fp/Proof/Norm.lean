import Alphabox.Fp.Proof.Fields

/-!
# Normalisation, sticky shifts and traps
-/

namespace Alphabox.Fp

open Lib

/-! ## Normalisation -/

/-- A word has none of the bits from `c` on when its number is below `2 ^ c`. -/
theorem and_high_eq_zero (w : Word) (c : Nat) :
    w &&& ~~~(BitVec.ofNat 64 (2 ^ c - 1)) = 0 ↔ w.toNat < 2 ^ c := by
  rw [← BitVec.toNat_inj, clear_toNat]
  have hpos : 0 < 2 ^ c := Nat.two_pow_pos c
  simp only [BitVec.ofNat_eq_ofNat, BitVec.toNat_ofNat, Nat.zero_mod, Nat.mul_eq_zero]
  rw [Nat.div_eq_zero_iff]
  omega

theorem and_ufNm_eq_zero (w : Word) : w &&& ufNm = 0 ↔ w.toNat < 2 ^ 63 :=
  and_high_eq_zero w 63

/-- A round of the normalisation shifts by one place at least and loses no bit. -/
theorem normShift_spec {w : Word} (hw : w.toNat < 2 ^ 63) :
    1 ≤ normShift w ∧ w.toNat * 2 ^ normShift w < 2 ^ 64 := by
  have h1 := and_high_eq_zero w 62
  have h2 := and_high_eq_zero w 60
  have h3 := and_high_eq_zero w 56
  have h4 := and_high_eq_zero w 48
  have h5 := and_high_eq_zero w 32
  unfold normShift
  simp only [bne_iff_ne, ne_eq]
  split
  · omega
  rename_i c1
  rw [not_not] at c1
  have b1 := h1.1 c1
  split
  · omega
  rename_i c2
  rw [not_not] at c2
  have b2 := h2.1 c2
  split
  · omega
  rename_i c3
  rw [not_not] at c3
  have b3 := h3.1 c3
  split
  · omega
  rename_i c4
  rw [not_not] at c4
  have b4 := h4.1 c4
  split
  · omega
  rename_i c5
  rw [not_not] at c5
  have b5 := h5.1 c5
  omega

theorem shiftLeft_toNat {w : Word} {k : Nat} (h : w.toNat * 2 ^ k < 2 ^ 64) :
    (w <<< k).toNat = w.toNat * 2 ^ k := by
  rw [BitVec.toNat_shiftLeft, Nat.shiftLeft_eq, Nat.mod_eq_of_lt h]

/-- `r'` is `r` shifted left by some places, with its top bit set. -/
structure NormOf (r r' : Ufp) (k : Nat) : Prop where
  sign : r'.sign = r.sign
  exp : r'.exp = r.exp - k
  frac : r'.frac.toNat = r.frac.toNat * 2 ^ k
  top : 2 ^ 63 ≤ r'.frac.toNat

theorem normLoop_spec (n : Nat) {r : Ufp} (h : 2 ^ 63 ≤ r.frac.toNat * 2 ^ n) :
    ∃ k, NormOf r (normLoop n r) k := by
  induction n generalizing r with
  | zero => exact ⟨0, rfl, by simp [normLoop], by simp [normLoop], by simpa [normLoop] using h⟩
  | succ n ih =>
    rw [normLoop]
    split
    · rename_i hn
      obtain ⟨h1, h2⟩ := normShift_spec ((and_ufNm_eq_zero _).1 hn)
      have hs := shiftLeft_toNat h2
      obtain ⟨k, hk⟩ := ih (r := { r with
        frac := r.frac <<< normShift r.frac, exp := r.exp - normShift r.frac }) (by
          simp only [hs]
          rw [Nat.mul_assoc, ← Nat.pow_add]
          refine Nat.le_trans h (Nat.mul_le_mul_left _ (Nat.pow_le_pow_right (by decide) ?_))
          omega)
      refine ⟨normShift r.frac + k, hk.sign, ?_, ?_, hk.top⟩
      · rw [hk.exp]
        push_cast
        omega
      · rw [hk.frac, hs, Nat.mul_assoc, ← Nat.pow_add]
    · rename_i hn
      rw [and_ufNm_eq_zero] at hn
      exact ⟨0, rfl, by simp, by simp, by omega⟩

theorem ieeeNorm_spec {r : Ufp} (h : r.frac ≠ 0) : ∃ k, NormOf r (ieeeNorm r) k := by
  have hpos : 0 < r.frac.toNat := by
    rw [← BitVec.toNat_inj.ne] at h
    exact Nat.pos_of_ne_zero h
  rw [ieeeNorm, if_neg h]
  exact normLoop_spec 64 (by omega)

/-! ## Sticky shifts -/

theorem toNat_ne_zero {w : Word} : w ≠ 0 ↔ w.toNat ≠ 0 := by
  rw [← BitVec.toNat_inj.ne]
  rfl

theorem shiftSticky_toNat {w : Word} (h : w ≠ 0) (n : Nat) :
    (shiftSticky w n).toNat = shiftJam w.toNat n := by
  have hw : w.toNat < 2 ^ 64 := w.isLt
  have h0 := toNat_ne_zero.1 h
  unfold shiftSticky shiftJam
  split
  · rename_i hn
    have hlt : w.toNat < 2 ^ n :=
      Nat.lt_of_lt_of_le hw (Nat.pow_le_pow_right (by decide) (by omega))
    rw [Nat.mod_eq_of_lt hlt, if_neg h0, Nat.div_eq_of_lt hlt]
    rfl
  split
  · rename_i hn
    subst hn
    simp [Nat.mod_one]
  · rename_i h1 h2
    have hlost : w <<< (64 - n) = 0 ↔ w.toNat % 2 ^ n = 0 := by
      have e : (2 : Nat) ^ 64 = 2 ^ n * 2 ^ (64 - n) := by
        rw [← Nat.pow_add]
        congr 1
        omega
      rw [← BitVec.toNat_inj, BitVec.toNat_shiftLeft, Nat.shiftLeft_eq, e, Nat.mul_mod_mul_right]
      simp
    rw [BitVec.toNat_or, BitVec.toNat_ushiftRight, Nat.shiftRight_eq_div_pow]
    by_cases hl : w.toNat % 2 ^ n = 0
    · rw [if_pos hl, if_pos (hlost.2 hl)]
      simp
    · rw [if_neg hl, if_neg (hlost.not.2 hl)]
      rfl

/-! ## Traps -/

@[simp] theorem deliverTrap_fpcr (s : FpState) (real : Word) (ins : Ins) :
    (deliverTrap s real ins).fpcr = s.fpcr := by
  unfold deliverTrap
  split
  · rfl
  split <;> rfl

@[simp] theorem deliverTrap_noIne (s : FpState) (real : Word) (ins : Ins) :
    (deliverTrap s real ins).noIne = s.noIne := by
  unfold deliverTrap
  split
  · rfl
  split <;> rfl

/-- A trap sets its sticky bit in the FPCR; an estimate does not set INE. -/
theorem ieeeTrap_fpcr (s : FpState) (trap : Word) (enb : Bool) (dsb : Word) (ins : Ins) :
    (ieeeTrap s trap enb dsb ins).fpcr =
      if trap = trapIne ∧ s.noIne = true then s.fpcr else s.fpcr ||| trap <<< 51 := by
  unfold ieeeTrap
  split
  · rfl
  dsimp only
  rw [deliverTrap_fpcr]
  split
  · rfl
  · rename_i h
    rw [bne_iff_ne, not_not] at h
    refine BitVec.eq_of_getLsbD_eq fun i hi => ?_
    have hb := congrArg (·.getLsbD i) h
    simp only [BitVec.getLsbD_and, BitVec.getLsbD_not, hi, decide_true, Bool.true_and] at hb
    rw [BitVec.getLsbD_or]
    cases h1 : s.fpcr.getLsbD i <;> simp_all

@[simp] theorem ieeeTrap_noIne (s : FpState) (trap : Word) (enb : Bool) (dsb : Word) (ins : Ins) :
    (ieeeTrap s trap enb dsb ins).noIne = s.noIne := by
  unfold ieeeTrap
  split
  · rfl
  dsimp only
  rw [deliverTrap_noIne]
  split <;> rfl

theorem shiftLeft_bit {trap : Word} {k : Nat} (h : trap <<< 51 = BitVec.twoPow 64 k) (hk : k < 64)
    (i : Nat) : (trap <<< 51).getLsbD i = true ↔ i = k := by
  rw [h, BitVec.getLsbD_twoPow]
  simp [hk, eq_comm]

/-- The FPCR bits after an inexact trap. -/
theorem trapIne_bit (s : FpState) (enb : Bool) (dsb : Word) (ins : Ins) (i : Nat) :
    (ieeeTrap s trapIne enb dsb ins).fpcr.getLsbD i = true ↔
      s.fpcr.getLsbD i = true ∨ (i = 56 ∧ s.noIne = false) := by
  have hb := shiftLeft_bit (show trapIne <<< 51 = BitVec.twoPow 64 56 by decide) (by decide) i
  rw [ieeeTrap_fpcr]
  cases s.noIne with
  | false =>
    rw [if_neg (by simp), BitVec.getLsbD_or, Bool.or_eq_true, hb]
    simp
  | true => simp

/-- The FPCR bits after another trap. -/
theorem trap_bit {trap : Word} {k : Nat} (hne : trap ≠ trapIne)
    (h : trap <<< 51 = BitVec.twoPow 64 k) (hk : k < 64) (s : FpState) (enb : Bool) (dsb : Word)
    (ins : Ins) (i : Nat) : (ieeeTrap s trap enb dsb ins).fpcr.getLsbD i = true ↔
      s.fpcr.getLsbD i = true ∨ i = k := by
  have hb := shiftLeft_bit h hk i
  rw [ieeeTrap_fpcr, if_neg (fun hc => hne hc.1), BitVec.getLsbD_or, Bool.or_eq_true, hb]

theorem trapOvf_bit (s : FpState) (enb : Bool) (dsb : Word) (ins : Ins) (i : Nat) :
    (ieeeTrap s trapOvf enb dsb ins).fpcr.getLsbD i = true ↔ s.fpcr.getLsbD i = true ∨ i = 54 :=
  trap_bit (by decide) (by decide) (by decide) s enb dsb ins i

theorem trapUnf_bit (s : FpState) (enb : Bool) (dsb : Word) (ins : Ins) (i : Nat) :
    (ieeeTrap s trapUnf enb dsb ins).fpcr.getLsbD i = true ↔ s.fpcr.getLsbD i = true ∨ i = 55 :=
  trap_bit (by decide) (by decide) (by decide) s enb dsb ins i

end Alphabox.Fp
