import Alphabox.Fp.Proof.MulDiv
import Alphabox.Fp.Proof.Traps

/-!
# VAX arithmetic

`vax_rpack` only asks for the floor of the exact result on the grid above the round bit
(`VaxNear`), so the bits that addition, multiplication and division drop do not matter.
-/

namespace Alphabox.Fp

open Lib

/-- The fraction bits below the last place of a format. -/
def VaxDt.guard : VaxDt → ℕ
  | .f => 40
  | .g => 11

/-! ## Rounding -/

/-- What rounding makes of a fraction: a significand `n`, with the exponent raised by `d` for a
carry. -/
theorem vaxRoundFrac_spec (dp : VaxDt) (ins : Ins) {r : Ufp} (h : 2 ^ 63 ≤ r.frac.toNat) :
    (vaxRoundFrac dp ins r).sign = r.sign ∧ 2 ^ 63 ≤ (vaxRoundFrac dp ins r).frac.toNat ∧
    ∃ n d : ℕ, ((vaxMode ins).snap r.sign).toNat dp.guard r.frac.toNat = n * 2 ^ d ∧
      (vaxRoundFrac dp ins r).exp = r.exp + d ∧ 2 ^ (dp.prec - 1) ≤ n ∧ n < 2 ^ dp.prec ∧
      (vaxRoundFrac dp ins r).frac.toNat / 2 ^ dp.guard = n := by
  have hlt : r.frac.toNat < 2 ^ 64 := r.frac.isLt
  unfold vaxRoundFrac vaxMode
  by_cases hc : getFrnd ins = 0
  · simp only [hc, if_true]
    refine ⟨trivial, h, _, 0, (Nat.mul_one _).symm, (Int.add_zero _).symm, ?_⟩
    simp only [RoundMode.snap, Snap.toNat]
    cases dp <;> simp only [VaxDt.guard, VaxDt.prec] <;> exact ⟨by omega, by omega, trivial⟩
  · simp only [hc, if_false]
    have ha : dp.roundbit.toNat = 2 ^ (dp.guard - 1) := by cases dp <;> rfl
    obtain ⟨d, hexp, hsign, hd⟩ := @roundFrac_eq r false dp.roundbit
      (by rw [ha]; cases dp <;> decide) (by simpa using h)
    rw [ha] at hd
    refine ⟨hsign, ?_⟩
    generalize roundFrac false r dp.roundbit = r2 at *
    generalize r2.frac.toNat = f2 at *
    generalize r.frac.toNat = f at *
    simp only [RoundMode.snap, Snap.toNat]
    obtain ⟨rfl, hf, hS⟩ | ⟨rfl, -, hS, hf⟩ := hd
    · subst hf
      refine ⟨by omega, _, 0, (Nat.mul_one _).symm, hexp, ?_⟩
      cases dp <;> simp only [VaxDt.guard, VaxDt.prec] at * <;> exact ⟨by omega, by omega, trivial⟩
    · subst hf
      refine ⟨by omega, 2 ^ (dp.prec - 1), 1, ?_, hexp, ?_⟩ <;>
      cases dp <;> simp only [VaxDt.guard, VaxDt.prec] at * <;> omega

section

variable {K : Type*} [Field K] [LinearOrder K] [IsStrictOrderedRing K]

/-- The unpacked number stands for `x`: its fraction is normalised and has the floor of the
magnitude `X` on the multiples of `2 ^ 10`. -/
structure VaxNear (r : Ufp) (X x : K) : Prop where
  top : 2 ^ 63 ≤ r.frac.toNat
  floor : SameFloor (2 ^ 10) (r.frac.toNat : K) X
  val : x = signed r.sign (X * 2 ^ (r.exp - 1088))

variable {r : Ufp} {X x : K}

theorem VaxNear.le (h : VaxNear r X x) : 2 ^ 63 ≤ X := by
  have hf : (2 : K) ^ 63 ≤ r.frac.toNat := by exact_mod_cast h.top
  exact (h.floor.pow_le_iff (by omega)).1 hf

theorem VaxNear.lt (h : VaxNear r X x) : X < 2 ^ 64 := by
  have hf : (r.frac.toNat : K) < 2 ^ 64 := by exact_mod_cast r.frac.isLt
  exact lt_of_not_ge fun hx => not_le.2 hf ((h.floor.pow_le_iff (by omega)).2 hx)

theorem VaxNear.pos (h : VaxNear r X x) : 0 < X := lt_of_lt_of_le (by positivity) h.le

theorem VaxNear.abs_eq (h : VaxNear r X x) : |x| = X * 2 ^ (r.exp - 1088) := by
  have := h.pos
  rw [h.val, abs_signed, abs_of_pos (by positivity)]

theorem VaxNear.ne_zero (h : VaxNear r X x) : x ≠ 0 := by
  have := h.pos
  rw [← abs_pos, h.abs_eq]
  positivity

theorem VaxNear.neg_iff (h : VaxNear r X x) : decide (x < 0) = r.sign := by
  have := h.pos
  rw [h.val, decide_signed_neg _ (by positivity)]

/-- The number a packed register holds. -/
theorem vaxPack_spec (dp : VaxDt) {r : Ufp} (h0 : 0 < r.exp) (h1 : r.exp < 2048)
    (hf : 2 ^ 63 ≤ r.frac.toNat) :
    let w := if dp = .f then packFpr r.sign r.exp r.frac &&& ~~~0x1fffffff
      else packFpr r.sign r.exp r.frac
    fprExp w ≠ 0 ∧ (dp = .f → w &&& 0x1fffffff = 0) ∧
      vaxVal w = signed r.sign
        (((r.frac.toNat / 2 ^ dp.guard : ℕ) : K) * 2 ^ (r.exp - 1088 + dp.guard)) := by
  intro w
  have hw : w = packFpr r.sign r.exp r.frac &&& ~~~(BitVec.ofNat 64 (2 ^ (dp.guard - 11) - 1)) := by
    cases dp
    · rfl
    · exact BitVec.and_allOnes.symm
  obtain ⟨hs, he, hm⟩ := packed_fields r.sign (show dp.guard - 11 ≤ 52 by cases dp <;> decide)
    h0 h1 hf
  rw [← hw] at hs he hm
  have hlow : dp = .f → w &&& 0x1fffffff = 0 := by
    rintro rfl
    rw [hw, BitVec.and_assoc]
    exact (congrArg _ (BitVec.not_and_self _)).trans BitVec.and_zero
  have hne : fprExp w ≠ 0 := by omega
  refine ⟨hne, hlow, ?_⟩
  rw [show 11 + (dp.guard - 11) = dp.guard by cases dp <;> rfl] at hm
  have hmK : (2 : K) ^ 52 + (fprFrac w).toNat =
      ((r.frac.toNat / 2 ^ dp.guard : ℕ) : K) * 2 ^ (dp.guard - 11) := by
    exact_mod_cast hm
  have e : r.exp - 1088 + dp.guard = ((dp.guard - 11 : ℕ) : ℤ) + (r.exp - 1077) := by
    cases dp <;> simp only [VaxDt.guard] <;> omega
  rw [vaxVal, if_neg hne, hs, he, hmK, e, zpow_add₀ two_ne_zero, zpow_natCast, mul_assoc]

variable [FloorRing K]

/-- The rounded number and its exponent. -/
theorem VaxNear.round (h : VaxNear r X x) (dp : VaxDt) (ins : Ins) {n d : ℕ}
    (hN : ((vaxMode ins).snap r.sign).toNat dp.guard r.frac.toNat = n * 2 ^ d)
    (hn1 : 2 ^ (dp.prec - 1) ≤ n) (hn2 : n < 2 ^ dp.prec) :
    vaxRound dp (vaxMode ins) x = signed r.sign ((n : K) * 2 ^ (r.exp + d - 1088 + dp.guard)) ∧
    vaxExponent (vaxRound dp (vaxMode ins) x) = r.exp + d := by
  have hmode : vaxMode ins = .chop ∨ vaxMode ins = .half := by
    unfold vaxMode
    split <;> simp
  have hg : 1 ≤ dp.guard := by cases dp <;> decide
  have hp : (dp.prec : ℤ) + dp.guard = 64 := by cases dp <;> rfl
  have hlog : Int.log 2 |x| - (dp.prec - 1) = r.exp - 1088 + dp.guard := by
    rw [h.abs_eq, log_scaled h.le h.lt]
    push_cast
    omega
  have hround : vaxRound dp (vaxMode ins) x =
      signed r.sign ((n : K) * 2 ^ (r.exp + d - 1088 + dp.guard)) := by
    rw [vaxRound, hlog, h.val, roundAt_sameFloor r.sign hmode hg h.pos.le
      (h.floor.coarsen_pow (by cases dp <;> decide)), hN]
    push_cast
    rw [mul_assoc, ← zpow_natCast, ← zpow_add₀ two_ne_zero]
    congr 3
    ring
  refine ⟨hround, ?_⟩
  have h1 : (2 : K) ^ (dp.prec - 1) ≤ n := by exact_mod_cast hn1
  have h2 : (n : K) < 2 ^ (dp.prec - 1 + 1) := by
    rw [show dp.prec - 1 + 1 = dp.prec by cases dp <;> rfl]
    exact_mod_cast hn2
  rw [vaxExponent, hround, abs_signed, abs_of_nonneg (by positivity), log_scaled h1 h2]
  cases dp <;> simp only [VaxDt.guard, VaxDt.prec] <;> push_cast <;> omega

/-- A fraction with the floor of the exact result is delivered as the exact result rounded once. -/
theorem vaxRpack_rounded (h : VaxNear r X x) (s : FpState) (ins : Ins) (dp : VaxDt) :
    VaxRounded dp ins x s (vaxRpack s r ins dp) := by
  have hfrac : r.frac ≠ 0 := by
    have := h.top
    rw [toNat_ne_zero]
    omega
  have hx := h.ne_zero
  obtain ⟨hsg, htop, n, d, hN, hexp, hn1, hn2, hq⟩ := vaxRoundFrac_spec dp ins h.top
  obtain ⟨hround, he⟩ := h.round dp ins hN hn1 hn2
  rw [← hexp] at he hround
  have hrange : dp.expmin < dp.expmax ∧ 0 ≤ dp.expmin ∧ dp.expmax < 2048 := by cases dp <;> decide
  have hneg := h.neg_iff
  unfold vaxRpack
  rw [if_neg hfrac]
  dsimp only
  generalize vaxRoundFrac dp ins r = r2 at *
  by_cases hov : dp.expmax < r2.exp
  · -- the largest number
    obtain ⟨hne, hlow, hval⟩ := vaxPack_spec (K := K) dp
      (r := { r2 with exp := dp.expmax, frac := -1 }) (by dsimp only; omega) hrange.2.2
      (show 2 ^ 63 ≤ (-1 : Word).toNat by decide)
    have hmax : (((-1 : Word).toNat / 2 ^ dp.guard : ℕ) : K) = 2 ^ dp.prec - 1 := by
      have : (-1 : Word).toNat / 2 ^ dp.guard + 1 = 2 ^ dp.prec := by cases dp <;> decide
      rw [eq_sub_iff_add_eq]
      exact_mod_cast this
    have hscale : dp.expmax - 1088 + dp.guard = dp.expmax - 1024 - dp.prec := by
      cases dp <;> rfl
    simp only [hov, if_true]
    rw [if_neg (by omega)]
    have htrap : Raised s ins (VaxCause ins 3) (vaxTrap s trapOvf ins) :=
      vaxTrap_raised s (k := 3) (by decide) ins
    refine ⟨fun h0 => absurd h0 hx, fun _ _ => ⟨hne, htrap, ?_⟩, fun _ hu => ?_, fun _ _ hm => ?_,
      hlow⟩
    · dsimp only at hval
      rw [hval, hmax, hscale, hneg, hsg]
    · omega
    · omega
  · simp only [hov, if_false]
    by_cases hun : r2.exp ≤ dp.expmin
    · rw [if_pos hun]
      have htrap := vaxTrap_enabled s (k := 4) (by decide) ins
      refine ⟨fun h0 => absurd h0 hx, fun _ ho => ?_, fun _ _ => ⟨rfl, htrap⟩, fun _ hm => ?_,
        fun _ => BitVec.zero_and⟩
      · omega
      · omega
    · rw [if_neg hun]
      obtain ⟨hne, hlow, hval⟩ := vaxPack_spec (K := K) dp (r := r2) (by omega) (by omega) htop
      refine ⟨fun h0 => absurd h0 hx, fun _ ho => ?_, fun _ hu => ?_, fun _ _ _ => ⟨hne, ?_, rfl⟩,
        hlow⟩
      · omega
      · omega
      · rw [hval, hq, hround, hsg]

end

/-! ## Operands -/

theorem vaxUnpack_zero {w : Word} (hw : VaxNumber w) (h0 : fprExp w = 0) (s : FpState)
    (ins : Ins) : vaxUnpack s w ins = (⟨false, 0, 0⟩, s) := by
  rw [hw h0]
  rfl

theorem vaxUnpack_number {w : Word} (hw : fprExp w ≠ 0) (s : FpState) (ins : Ins) :
    vaxUnpack s w ins = (unpacked w, s) := by
  simp [vaxUnpack, hw, unpacked]

section

variable {K : Type*} [Field K] [LinearOrder K] [IsStrictOrderedRing K]

/-- The number an unpacked operand stands for. -/
def Ufp.vaxVal (r : Ufp) : K := signed r.sign ((r.frac.toNat : K) * 2 ^ (r.exp - 1088))

theorem signed_scale (sign : Bool) (X : K) (e : ℤ) :
    signed sign (X * 2 ^ (e - 1086)) = signed sign (X * 2 ^ (e - 1088)) * 4 := by
  have he : (2 : K) ^ (e - 1086) = 2 ^ (e - 1088) * 4 := by
    rw [show e - 1086 = e - 1088 + 2 by ring, zpow_add₀ two_ne_zero]
    norm_num
  rw [he, ← mul_assoc, signed_mul]

/-- It is a quarter of what the same fields are to the IEEE routines. -/
theorem val_eq_vaxVal (r : Ufp) : (r.val : K) = r.vaxVal * 4 := signed_scale _ _ _

/-- What the IEEE routines would hold of four times the number. -/
theorem vaxNear_of_scaled {r : Ufp} {X x : K} (h63 : 2 ^ 63 ≤ r.frac.toNat)
    (hf : SameFloor (2 ^ 10) (r.frac.toNat : K) X)
    (hv : x * 4 = signed r.sign (X * 2 ^ (r.exp - 1086))) : VaxNear r X x := by
  rw [signed_scale, mul_left_inj' (by norm_num)] at hv
  exact ⟨h63, hf, hv⟩

theorem Near.vax {r : Ufp} {X x : K} (h : Near r X (x * 4)) : VaxNear r X x :=
  vaxNear_of_scaled h.top h.side.floor h.val

theorem unpacked_vaxVal {w : Word} (hw : fprExp w ≠ 0) :
    (vaxVal w : K) = (unpacked w).vaxVal := by
  have hc : ((unpacked w).frac.toNat : K) = (2 ^ 52 + (fprFrac w).toNat) * 2 ^ 11 := by
    exact_mod_cast unpacked_toNat w
  have e : (fprExp w : ℤ) - 1077 = (11 : ℕ) + ((fprExp w : ℤ) - 1088) := by
    push_cast
    ring
  rw [vaxVal, if_neg hw, Ufp.vaxVal, hc]
  simp only [unpacked]
  rw [e, zpow_add₀ two_ne_zero, zpow_natCast, mul_assoc]

theorem vaxNorm_eq {r : Ufp} (h : r.frac ≠ 0) : vaxNorm r = ieeeNorm r := by
  rw [vaxNorm, ieeeNorm, if_neg h, if_neg h]

/-- A fraction of at least 62 bits, at least `j` of them zero at its end, that is the floor of `Y`
there. -/
theorem vaxNorm_near {r : Ufp} {Y : K} {j : ℕ} (hj : j ≤ 9) (h62 : 2 ^ 62 ≤ r.frac.toNat)
    (hlow : r.frac.toNat % 2 ^ j = 0) (hlo : (r.frac.toNat : K) ≤ Y)
    (hhi : Y < r.frac.toNat + 2 ^ j) :
    ∃ X, VaxNear (vaxNorm r) X (signed r.sign (Y * 2 ^ (r.exp - 1088))) := by
  have h0 : r.frac ≠ 0 := by
    rw [toNat_ne_zero]
    omega
  rw [vaxNorm_eq h0]
  obtain ⟨k, hk⟩ := ieeeNorm_spec h0
  have hk1 := hk.le_one h62
  have hpos : (0 : K) < 2 ^ k := by positivity
  have hq : (ieeeNorm r).frac.toNat % 2 ^ (j + k) = 0 := by
    rw [hk.frac, Nat.pow_add, Nat.mul_mod_mul_right, hlow, Nat.zero_mul]
  have hcast : ((ieeeNorm r).frac.toNat : K) = r.frac.toNat * 2 ^ k := by exact_mod_cast hk.frac
  have hfloor := sameFloor_multiple (K := K) (x := Y * 2 ^ k) hq
    (by rw [hcast]; exact mul_le_mul_of_nonneg_right hlo hpos.le)
    (by
      rw [hcast, pow_add, ← add_mul]
      exact mul_lt_mul_of_pos_right hhi hpos)
  refine ⟨Y * 2 ^ k, hk.top, hfloor.coarsen_pow (by omega), ?_⟩
  rw [hk.sign, hk.exp, show r.exp - 1088 = (k : ℤ) + (r.exp - k - 1088) by ring,
    zpow_add₀ two_ne_zero, zpow_natCast, mul_assoc]

/-! ## The sum of two numbers -/

/-- A carry out of the sum, shifted in. -/
theorem vaxCarry_toNat {s : Word} {S : ℕ} (hs : s.toNat = S - 2 ^ 64) (h1 : 2 ^ 64 ≤ S) :
    (ufNm ||| s >>> 1).toNat = S / 2 := by
  have hlt : s.toNat < 2 ^ 64 := s.isLt
  have h2 : (s >>> 1).toNat = s.toNat / 2 := by
    rw [BitVec.toNat_ushiftRight, Nat.shiftRight_eq_div_pow]
  rw [BitVec.or_comm, or_ufNm_toNat (by omega)]
  omega

/-- Magnitudes that add up: the bits lost of the smaller one are below the floor. -/
theorem vaxEffAdd_near {a : Ufp} {bf : Word} {B n : ℕ} {x : K} (ha : 2 ^ 63 ≤ a.frac.toNat)
    (hb : bf.toNat = B / 2 ^ n)
    (hx : x * 4 = signed a.sign (((a.frac.toNat : K) + B / 2 ^ n) * 2 ^ (a.exp - 1086))) :
    ∃ X, VaxNear (if a.frac + bf < bf then
        { a with frac := ufNm ||| (a.frac + bf) >>> 1, exp := a.exp + 1 }
      else { a with frac := a.frac + bf }) X x := by
  have hlt : bf.toNat < 2 ^ 64 := bf.isLt
  have hlt2 : a.frac.toNat < 2 ^ 64 := a.frac.isLt
  have hsum := BitVec.toNat_add a.frac bf
  have hdef := BitVec.lt_def (x := a.frac + bf) (y := bf)
  have hlo : ((B / 2 ^ n : ℕ) : K) ≤ B / 2 ^ n := by
    rw [le_div_iff₀ (by positivity)]
    exact_mod_cast Nat.div_mul_le_self B (2 ^ n)
  have hhi : (B : K) / 2 ^ n < (B / 2 ^ n : ℕ) + 1 := by
    rw [div_lt_iff₀ (by positivity)]
    exact_mod_cast Nat.lt_mul_of_div_lt (Nat.lt_succ_self (B / 2 ^ n)) (Nat.two_pow_pos n)
  generalize B / 2 ^ n = q at *
  by_cases hc : a.frac + bf < bf
  · have hcN := hdef.1 hc
    have hf := vaxCarry_toNat (s := a.frac + bf) (S := a.frac.toNat + q) (by omega) (by omega)
    refine ⟨(a.frac.toNat + B / 2 ^ n) / 2, ?_⟩
    rw [if_pos hc]
    refine vaxNear_of_scaled ?_ ?_ ?_
    · dsimp only
      omega
    · have h1 : (((a.frac.toNat + q) / 2 : ℕ) : K) * 2 ≤ a.frac.toNat + q := by
        exact_mod_cast Nat.div_mul_le_self (a.frac.toNat + q) 2
      have h2 : (a.frac.toNat + q : K) + 1 ≤ (((a.frac.toNat + q) / 2 : ℕ) : K) * 2 + 2 := by
        exact_mod_cast (show a.frac.toNat + q + 1 ≤ (a.frac.toNat + q) / 2 * 2 + 2 by omega)
      dsimp only
      rw [hf]
      refine (sameFloor_multiple (j := 0) (Nat.mod_one _) ?_ ?_).coarsen_pow (by omega)
      · linarith
      · linarith
    · dsimp only
      rw [hx, show a.exp + 1 - 1086 = 1 + (a.exp - 1086) by ring, zpow_add₀ two_ne_zero, zpow_one,
        ← mul_assoc, div_mul_cancel₀ _ two_ne_zero]
  · have hcN := hdef.not.1 hc
    have hf : (a.frac + bf).toNat = a.frac.toNat + q := by omega
    refine ⟨a.frac.toNat + B / 2 ^ n, ?_⟩
    rw [if_neg hc]
    refine vaxNear_of_scaled (by dsimp only; omega) ?_ hx
    dsimp only
    rw [hf]
    refine (sameFloor_multiple (j := 0) (Nat.mod_one _) ?_ ?_).coarsen_pow (by omega)
    · push_cast
      linarith
    · push_cast
      linarith

/-- What the sum leaves: a true zero for numbers that cancel, or a number with the floor of the
exact sum. -/
theorem vaxAddAligned_spec {a b : Ufp} (ha : Frac a.frac.toNat) (hb : Frac b.frac.toNat)
    (hexp : b.exp ≤ a.exp) (hle : a.exp = b.exp → b.frac ≤ a.frac) :
    ((vaxAddAligned a b).frac = 0 ∧ (a.vaxVal + b.vaxVal : K) = 0) ∨
    ∃ X, VaxNear (vaxAddAligned a b) X (a.vaxVal + b.vaxVal : K) := by
  have hB0 : b.frac ≠ 0 := by
    have := hb.top
    rw [toNat_ne_zero]
    omega
  have hle2 : (a.exp - b.exp).toNat = 0 → b.frac.toNat ≤ a.frac.toNat := by
    intro h
    exact hle (by omega)
  have hval : (a.vaxVal + b.vaxVal : K) * 4 = a.val + b.val := by
    rw [val_eq_vaxVal, val_eq_vaxVal, add_mul]
  rw [sum_aligned hexp] at hval
  unfold vaxAddAligned
  dsimp only
  by_cases hs : a.sign = b.sign
  · right
    rw [if_pos hs] at hval
    rw [if_neg (not_not.2 hs)]
    refine vaxEffAdd_near ha.top ?_ hval
    split
    · rename_i h63
      have hlt : b.frac.toNat < 2 ^ (a.exp - b.exp).toNat :=
        Nat.lt_of_lt_of_le hb.lt (Nat.pow_le_pow_right (by decide) (by omega))
      rw [Nat.div_eq_of_lt hlt]
      rfl
    · rw [BitVec.toNat_ushiftRight, Nat.shiftRight_eq_div_pow]
  · have hbj := shiftSticky_toNat hB0 (a.exp - b.exp).toNat
    have hj := ha.jam_le hb hle2
    rw [if_neg hs] at hval
    rw [if_pos hs]
    generalize shiftSticky b.frac (a.exp - b.exp).toNat = bj at *
    generalize (a.exp - b.exp).toNat = n at *
    by_cases h0 : a.frac - bj = 0
    · left
      have hz : a.frac.toNat - shiftJam b.frac.toNat n = 0 := by
        have := congrArg BitVec.toNat h0
        rw [BitVec.toNat_sub_of_le (by rw [BitVec.le_def]; omega), hbj] at this
        exact this
      rw [ha.sub_eq_zero (K := K) hb hle2 hz, zero_mul, signed_eq_zero.2 rfl] at hval
      rw [h0]
      exact ⟨rfl, by linarith⟩
    · right
      obtain ⟨X, hX⟩ := effSub_near (K := K) ha hb hle2 hbj h0
      rw [← hval] at hX
      rw [vaxNorm_eq h0]
      exact ⟨X, hX.vax⟩

theorem vaxAddLarger_spec {a b : Ufp} (ha : Frac a.frac.toNat) (hb : Frac b.frac.toNat) :
    ((vaxAddAligned (larger a b).1 (larger a b).2).frac = 0 ∧ (a.vaxVal + b.vaxVal : K) = 0) ∨
    ∃ X, VaxNear (vaxAddAligned (larger a b).1 (larger a b).2) X (a.vaxVal + b.vaxVal : K) := by
  obtain ⟨hl | hl, hexp, hle⟩ := larger_spec a b
  · rw [hl] at hexp hle ⊢
    exact vaxAddAligned_spec ha hb hexp hle
  · rw [hl] at hexp hle ⊢
    rw [add_comm]
    exact vaxAddAligned_spec hb ha hexp hle

/-! ## Product and quotient -/

theorem vaxMul_near {a b : Ufp} (ha : Frac a.frac.toNat) (hb : Frac b.frac.toNat) :
    ∃ X, VaxNear (vaxNorm ⟨a.sign ^^ b.sign, a.exp + b.exp - gBias, (uemul64 a.frac b.frac).2⟩) X
      (a.vaxVal * b.vaxVal : K) := by
  obtain ⟨h62, hlo, hhi, -⟩ := uemul64_frac (K := K) ha hb
  have hval : (a.vaxVal * b.vaxVal : K) = signed (a.sign ^^ b.sign)
      ((a.frac.toNat : K) * b.frac.toNat / 2 ^ 64 * 2 ^ (a.exp + b.exp - gBias - 1088)) := by
    have e : a.exp + b.exp - gBias - 1088 = (a.exp - 1088) + (b.exp - 1088) + (64 : ℕ) := by
      simp only [gBias]
      push_cast
      ring
    rw [Ufp.vaxVal, Ufp.vaxVal, signed_mul_signed, e, zpow_add₀ two_ne_zero,
      zpow_add₀ two_ne_zero, zpow_natCast]
    congr 1
    field_simp
  rw [hval]
  exact vaxNorm_near (Nat.zero_le 9) h62 (Nat.mod_one _) hlo hhi

theorem vaxDiv_near {a b : Ufp} (ha : Frac a.frac.toNat) (hb : Frac b.frac.toNat) :
    ∃ X, VaxNear (vaxNorm ⟨a.sign ^^ b.sign, a.exp - b.exp + gBias + 1,
      (ufdiv64 (a.frac >>> 1) (b.frac >>> 1) 55).1⟩) X (a.vaxVal / b.vaxVal : K) := by
  obtain ⟨h62, hlow, hlo, hhi, -⟩ := ufdiv64_frac (K := K) ha hb
  have hval : (a.vaxVal / b.vaxVal : K) = signed (a.sign ^^ b.sign)
      ((a.frac.toNat : K) / b.frac.toNat * 2 ^ 63 *
        2 ^ (a.exp - b.exp + gBias + 1 - 1088)) := by
    have e : a.exp - 1088 = (63 : ℕ) + (a.exp - b.exp + gBias + 1 - 1088) + (b.exp - 1088) := by
      simp only [gBias]
      push_cast
      ring
    rw [Ufp.vaxVal, Ufp.vaxVal, signed_div_signed, e, zpow_add₀ two_ne_zero,
      zpow_add₀ two_ne_zero, zpow_natCast]
    congr 1
    field_simp
  rw [hval]
  exact vaxNorm_near (le_refl 9) h62 hlow hlo hhi

/-! ## The instructions -/

omit [LinearOrder K] [IsStrictOrderedRing K] in
theorem vaxVal_zero {w : Word} (h0 : fprExp w = 0) : (vaxVal w : K) = 0 := if_pos h0

omit [LinearOrder K] [IsStrictOrderedRing K] in
theorem flip_vaxVal (sub : Bool) (b : Ufp) : ((b.flip sub).vaxVal : K) = signed sub b.vaxVal := by
  cases sub with
  | false => rfl
  | true => cases h : b.sign <;> simp [Ufp.flip, Ufp.vaxVal, h]

theorem vaxRpack_zero {r : Ufp} (h : r.frac = 0) (s : FpState) (ins : Ins) (dp : VaxDt) :
    vaxRpack s r ins dp = (0, s) := by
  rw [vaxRpack, if_pos h]

omit [IsStrictOrderedRing K] in
theorem Frac.vaxNear {r : Ufp} (h : Frac r.frac.toNat) :
    VaxNear r (r.frac.toNat : K) r.vaxVal := ⟨h.top, .refl _ _, rfl⟩

/-- The operation on unpacked operands. -/
theorem vaxFadd_eq {s : FpState} {s1 s2 : Word} {ins : Ins} {a b : Ufp}
    (h1 : vaxUnpack s s1 ins = (a, s)) (h2 : vaxUnpack s s2 ins = (b, s)) (dp : VaxDt)
    (sub : Bool) : vaxFadd s s1 s2 ins dp sub = vaxRpack s
      (if a.exp = 0 then b.flip sub
      else if (b.flip sub).exp = 0 then a
      else vaxAddAligned (larger a (b.flip sub)).1 (larger a (b.flip sub)).2) ins dp := by
  unfold vaxFadd
  simp only [h1, h2]
  rfl

variable [FloorRing K]

omit [IsStrictOrderedRing K] in
theorem vaxRounded_zero (dp : VaxDt) (ins : Ins) (s : FpState) :
    VaxRounded dp ins (0 : K) s (0, s) :=
  ⟨fun _ => rfl, fun h => absurd rfl h, fun h => absurd rfl h, fun h => absurd rfl h,
    fun _ => BitVec.zero_and⟩

theorem vaxFadd_rounded {s1 s2 : Word} (h1 : VaxNumber s1) (h2 : VaxNumber s2) (s : FpState)
    (ins : Ins) (dp : VaxDt) (sub : Bool) :
    VaxRounded dp ins (vaxVal s1 + signed sub (vaxVal s2) : K) s
      (vaxFadd s s1 s2 ins dp sub) := by
  have hflip : ∀ b : Ufp, (b.flip sub).exp = b.exp := by
    intro b
    cases sub <;> rfl
  by_cases z1 : fprExp s1 = 0
  · have u1 := vaxUnpack_zero h1 z1 s ins
    rw [vaxVal_zero z1, zero_add]
    by_cases z2 : fprExp s2 = 0
    · rw [vaxFadd_eq u1 (vaxUnpack_zero h2 z2 s ins), if_pos rfl, vaxVal_zero z2,
        signed_eq_zero.2 rfl, vaxRpack_zero (flip_frac _ _)]
      exact vaxRounded_zero dp ins s
    · have hf : Frac ((unpacked s2).flip sub).frac.toNat := by
        rw [flip_frac]
        exact unpacked_frac s2
      rw [vaxFadd_eq u1 (vaxUnpack_number z2 s ins), if_pos rfl, unpacked_vaxVal z2,
        ← flip_vaxVal]
      exact vaxRpack_rounded hf.vaxNear s ins dp
  · have u1 := vaxUnpack_number z1 s ins
    have e1 : (unpacked s1).exp ≠ 0 := Int.natCast_ne_zero.2 z1
    rw [unpacked_vaxVal z1]
    by_cases z2 : fprExp s2 = 0
    · rw [vaxFadd_eq u1 (vaxUnpack_zero h2 z2 s ins), if_neg e1, hflip, if_pos rfl,
        vaxVal_zero z2, signed_eq_zero.2 rfl, add_zero]
      exact vaxRpack_rounded (unpacked_frac s1).vaxNear s ins dp
    · have e2 : (unpacked s2).exp ≠ 0 := Int.natCast_ne_zero.2 z2
      have hf : Frac ((unpacked s2).flip sub).frac.toNat := by
        rw [flip_frac]
        exact unpacked_frac s2
      rw [vaxFadd_eq u1 (vaxUnpack_number z2 s ins), if_neg e1, hflip, if_neg e2,
        unpacked_vaxVal z2, ← flip_vaxVal]
      obtain ⟨h0, hx⟩ | ⟨X, hX⟩ := vaxAddLarger_spec (K := K) (unpacked_frac s1) hf
      · rw [vaxRpack_zero h0, hx]
        exact vaxRounded_zero dp ins s
      · exact vaxRpack_rounded hX s ins dp

theorem vaxFmul_rounded {s1 s2 : Word} (h1 : VaxNumber s1) (h2 : VaxNumber s2) (s : FpState)
    (ins : Ins) (dp : VaxDt) :
    VaxRounded dp ins (vaxVal s1 * vaxVal s2 : K) s (vaxFmul s s1 s2 ins dp) := by
  unfold vaxFmul
  by_cases z1 : fprExp s1 = 0
  · rw [vaxVal_zero z1, zero_mul]
    by_cases z2 : fprExp s2 = 0
    · simp only [vaxUnpack_zero h1 z1, vaxUnpack_zero h2 z2]
      exact vaxRounded_zero dp ins s
    · simp only [vaxUnpack_zero h1 z1, vaxUnpack_number z2]
      exact vaxRounded_zero dp ins s
  · have e1 : (unpacked s1).exp ≠ 0 := Int.natCast_ne_zero.2 z1
    by_cases z2 : fprExp s2 = 0
    · rw [vaxVal_zero z2, mul_zero]
      simp only [vaxUnpack_number z1, vaxUnpack_zero h2 z2, or_true, if_true]
      exact vaxRounded_zero dp ins s
    · have e2 : (unpacked s2).exp ≠ 0 := Int.natCast_ne_zero.2 z2
      obtain ⟨X, hX⟩ := vaxMul_near (K := K) (unpacked_frac s1) (unpacked_frac s2)
      rw [unpacked_vaxVal z1, unpacked_vaxVal z2]
      simp only [vaxUnpack_number z1, vaxUnpack_number z2, e1, e2, or_self, if_false]
      exact vaxRpack_rounded hX s ins dp

theorem vaxFdiv_rounded {s1 s2 : Word} (h1 : VaxNumber s1) (z2 : fprExp s2 ≠ 0) (s : FpState)
    (ins : Ins) (dp : VaxDt) :
    VaxRounded dp ins (vaxVal s1 / vaxVal s2 : K) s (vaxFdiv s s1 s2 ins dp) := by
  have e2 : (unpacked s2).exp ≠ 0 := Int.natCast_ne_zero.2 z2
  unfold vaxFdiv
  by_cases z1 : fprExp s1 = 0
  · rw [vaxVal_zero z1, zero_div]
    simp only [vaxUnpack_zero h1 z1, vaxUnpack_number z2, e2, if_false, if_true]
    exact vaxRounded_zero dp ins s
  · have e1 : (unpacked s1).exp ≠ 0 := Int.natCast_ne_zero.2 z1
    obtain ⟨X, hX⟩ := vaxDiv_near (K := K) (unpacked_frac s1) (unpacked_frac s2)
    rw [unpacked_vaxVal z1, unpacked_vaxVal z2]
    simp only [vaxUnpack_number z1, vaxUnpack_number z2, e1, e2, if_false]
    exact vaxRpack_rounded hX s ins dp

end

/-- VAX addition, subtraction, multiplication and division are correctly rounded. -/
theorem vax_arith_rounded {s1 s2 : Word} (h1 : VaxNumber s1) (h2 : VaxNumber s2) (s : FpState)
    (ins : Ins) (dp : VaxDt) (sub : Bool) :
    VaxRounded dp ins (vaxVal s1 + signed sub (vaxVal s2) : ℚ) s
      (vaxFadd s s1 s2 ins dp sub) ∧
    VaxRounded dp ins (vaxVal s1 * vaxVal s2 : ℚ) s (vaxFmul s s1 s2 ins dp) ∧
    (vaxVal s2 ≠ (0 : ℚ) →
      VaxRounded dp ins (vaxVal s1 / vaxVal s2 : ℚ) s (vaxFdiv s s1 s2 ins dp)) :=
  ⟨vaxFadd_rounded h1 h2 s ins dp sub, vaxFmul_rounded h1 h2 s ins dp,
    fun hne => vaxFdiv_rounded h1 (fun h0 => hne (vaxVal_zero h0)) s ins dp⟩

/-- The G numbers one and three. -/
def gOne : Word := 0x4010000000000000

def gThree : Word := 0x4028000000000000

/-- One third in the F format. -/
theorem vax_arith_rounded_third :
    VaxNumber gOne ∧ VaxNumber gThree ∧
    VaxRounded .f 0x1000 (vaxVal gOne / vaxVal gThree : ℚ)
      ⟨0, 0, false, false, false, 0, false⟩
      (vaxFdiv ⟨0, 0, false, false, false, 0, false⟩ gOne gThree 0x1000 .f) := by
  have h1 : VaxNumber gOne := by decide
  have h2 : VaxNumber gThree := by decide
  have h3 : (vaxVal gThree : ℚ) ≠ 0 := by
    rw [vaxVal, if_neg (by decide), Ne, signed_eq_zero]
    positivity
  exact ⟨h1, h2, (vax_arith_rounded h1 h2 _ 0x1000 .f false).2.2 h3⟩

end Alphabox.Fp
