import Alphabox.Fp.Proof.Norm

/-!
# Rounding and packing

`ieee_rpack` delivers a normalised fraction that compares with the grid of the format as the exact
result does (`Near`) as the exact result rounded once (`ieeeRpack_rounded`). The integer part of
the argument is about the sum of fraction and rounding (`roundFrac_spec`), the rest scales it.
-/

namespace Alphabox.Fp

open Lib

/-- The fraction bits below the last place of a format. -/
def IeeeDt.guard : IeeeDt → Nat
  | .s => 40
  | .t => 11

theorem stdrnd_toNat (dp : IeeeDt) : dp.stdrnd.toNat = 2 ^ (dp.guard - 1) := by
  cases dp <;> rfl

theorem infrnd_toNat (dp : IeeeDt) : dp.infrnd.toNat = 2 ^ dp.guard - 1 := by
  cases dp <;> rfl

theorem and_infrnd (dp : IeeeDt) (w : Word) :
    (w &&& dp.infrnd).toNat = w.toNat % 2 ^ dp.guard := by
  rw [BitVec.toNat_and, infrnd_toNat, Nat.and_two_pow_sub_one_eq_mod]

/-! ## The packed register -/

/-- The low bits `ieeePack` clears. -/
def lowBits (dp : IeeeDt) (tie : Bool) : Nat := dp.guard - 11 + if tie then 1 else 0

theorem ieeePack_eq (dp : IeeeDt) (rndm : BitVec 2) (rb : Word) (r : Ufp) :
    ieeePack dp rndm rb r = packFpr r.sign r.exp r.frac &&&
      ~~~(BitVec.ofNat 64 (2 ^ lowBits dp (decide (rndm = frndN ∧ rb = dp.stdrnd)) - 1)) := by
  have hall : ∀ w : Word, w = w &&& ~~~(BitVec.ofNat 64 (2 ^ 0 - 1)) := by
    intro w
    exact BitVec.and_allOnes.symm
  unfold ieeePack
  by_cases h : rndm = frndN ∧ rb = dp.stdrnd
  · cases dp <;> simp only [h, and_self, if_true, decide_true, reduceCtorEq, if_false] <;>
      (try rw [BitVec.and_assoc]) <;> rfl
  · cases dp <;> simp only [h, if_true, decide_false, reduceCtorEq, if_false]
    · rfl
    · exact hall _

/-- The fields of a packed number with its low bits cleared. -/
theorem packed_fields (sign : Bool) {exp : Int} {frac : Word} {c : Nat} (hc : c ≤ 52)
    (h0 : 0 < exp) (h1 : exp < 2048) (hf : 2 ^ 63 ≤ frac.toNat) :
    let w := packFpr sign exp frac &&& ~~~(BitVec.ofNat 64 (2 ^ c - 1))
    fprSign w = sign ∧ (fprExp w : Int) = exp ∧
      2 ^ 52 + (fprFrac w).toNat = frac.toNat / 2 ^ (11 + c) * 2 ^ c := by
  intro w
  have hlt : frac.toNat < 2 ^ 64 := frac.isLt
  have hw : w.toNat = _ := clear_toNat (packFpr sign exp frac) c
  rw [packFpr_toNat (by omega) (by omega)] at hw
  -- clearing does not reach the fields above
  have hclear : ∀ H A : Nat, (H * 2 ^ 52 + A) / 2 ^ c * 2 ^ c = H * 2 ^ 52 + A / 2 ^ c * 2 ^ c := by
    intro H A
    have e : 2 ^ 52 = 2 ^ (52 - c) * 2 ^ c := by
      rw [← Nat.pow_add]
      congr 1
      omega
    rw [e, ← Nat.mul_assoc, Nat.add_comm, Nat.add_mul_div_right _ _ (Nat.two_pow_pos c),
      Nat.add_mul, Nat.add_comm]
  obtain ⟨e, rfl⟩ : ∃ e : Nat, exp = e := ⟨exp.toNat, by omega⟩
  rw [Int.toNat_natCast] at hw
  have hsn : signNat sign = (if sign then 2 ^ 11 else 0) * 2 ^ 52 := by cases sign <;> rfl
  have hA := Nat.div_mul_le_self (frac.toNat / 2 ^ 11 % 2 ^ 52) (2 ^ c)
  have hm := hclear 1 (frac.toNat / 2 ^ 11 % 2 ^ 52)
  rw [hsn, ← Nat.add_mul, hclear] at hw
  rw [fprSign_eq, fprExp_eq, fprFrac_toNat, hw, Nat.pow_add, ← Nat.div_div_eq_div_mul]
  have hq : 1 * 2 ^ 52 + frac.toNat / 2 ^ 11 % 2 ^ 52 = frac.toNat / 2 ^ 11 := by omega
  rw [hq] at hm
  rw [hm]
  generalize frac.toNat / 2 ^ 11 % 2 ^ 52 / 2 ^ c * 2 ^ c = A at *
  cases sign with
  | false =>
    simp only [Bool.false_eq_true, if_false, decide_eq_false_iff_not]
    omega
  | true =>
    simp only [if_true, decide_eq_true_eq]
    omega

/-- The largest number of a format. -/
theorem fpmax_spec {K : Type*} [Field K] (dp : IeeeDt) (sign : Bool) : Normal (signBit sign ||| dp.fpmax) ∧
    ieeeVal (signBit sign ||| dp.fpmax) = signed sign
      ((2 ^ dp.format.prec - 1) * 2 ^ (dp.format.emax - (dp.format.prec - 1)) : K) := by
  have hn : Normal (signBit sign ||| dp.fpmax) := by
    revert sign
    cases dp <;> decide
  refine ⟨hn, ?_⟩
  have hs : fprSign (signBit sign ||| dp.fpmax) = sign := by cases dp <;> cases sign <;> decide
  rw [ieeeVal, if_neg hn.2, hs]
  congr 1
  cases dp with
  | s =>
    have he : fprExp (signBit sign ||| IeeeDt.s.fpmax) = 1150 := by cases sign <;> decide
    have hf : (fprFrac (signBit sign ||| IeeeDt.s.fpmax)).toNat = 0xfffffe0000000 := by
      cases sign <;> decide
    rw [he, hf]
    norm_num [IeeeDt.format]
  | t =>
    have he : fprExp (signBit sign ||| IeeeDt.t.fpmax) = 2046 := by cases sign <;> decide
    have hf : (fprFrac (signBit sign ||| IeeeDt.t.fpmax)).toNat = 0xfffffffffffff := by
      cases sign <;> decide
    rw [he, hf]
    norm_num [IeeeDt.format]

/-- The largest number is the largest significand at the largest exponent. -/
theorem max_eq {K : Type*} [Field K] (dp : IeeeDt) :
    (2 ^ dp.format.prec - 1 : K) * 2 ^ (dp.format.emax - (dp.format.prec - 1)) =
      (2 ^ dp.format.prec - 1) * 2 ^ (dp.expmax - 1086 + dp.guard) := by
  cases dp <;> rfl

theorem infinity_not (sign : Bool) : ¬ZeroOrNormal (infinity sign) := by
  cases sign <;> decide

/-! ## The sum of fraction and rounding -/

/-- The rounding a code adds is that of its mode for the sign. -/
theorem rndAdd_cases (dp : IeeeDt) (rndm : BitVec 2) (sign : Bool) :
    ((roundModeOf rndm).snap sign = .halfEven ∧ rndm = frndN ∧ rndAdd dp rndm sign = dp.stdrnd) ∨
    ((roundModeOf rndm).snap sign = .away ∧ rndm ≠ frndN ∧ rndAdd dp rndm sign = dp.infrnd) ∨
    ((roundModeOf rndm).snap sign = .trunc ∧ rndm ≠ frndN ∧ rndAdd dp rndm sign = 0) := by
  cases dp <;> cases sign <;> revert rndm <;> decide

theorem rndAdd_eq_zero (dp : IeeeDt) (rndm : BitVec 2) (sign : Bool) :
    rndAdd dp rndm sign = 0 ↔ (roundModeOf rndm).snap sign = .trunc := by
  cases dp <;> cases sign <;> revert rndm <;> decide

theorem or_ufNm_toNat {w : Word} (h : w.toNat < 2 ^ 63) : (w ||| ufNm).toNat = 2 ^ 63 + w.toNat := by
  have h2 := Nat.two_pow_add_eq_or_of_lt h 1
  rw [Nat.mul_one] at h2
  rw [BitVec.or_comm, BitVec.toNat_or, h2]
  rfl

/-- The rounded fraction and exponent, with the place `d` a carry moves them. -/
theorem roundFrac_eq {r : Ufp} {tiny : Bool} {add : Word} (ha : add.toNat < 2 ^ 40)
    (h : if tiny then r.frac.toNat < 2 ^ 63 else 2 ^ 63 ≤ r.frac.toNat) :
    ∃ d : Nat, (roundFrac tiny r add).exp = r.exp + d ∧ (roundFrac tiny r add).sign = r.sign ∧
      ((d = 0 ∧ (roundFrac tiny r add).frac.toNat = r.frac.toNat + add.toNat ∧
        r.frac.toNat + add.toNat < 2 ^ 64) ∨
      (d = 1 ∧ tiny = false ∧ 2 ^ 64 ≤ r.frac.toNat + add.toNat ∧
        (roundFrac tiny r add).frac.toNat = 2 ^ 63 + (r.frac.toNat + add.toNat - 2 ^ 64) / 2)) := by
  have hlt : r.frac.toNat < 2 ^ 64 := r.frac.isLt
  have hsum := BitVec.toNat_add r.frac add
  unfold roundFrac
  dsimp only
  split
  · rename_i hc
    obtain ⟨rfl, hc⟩ := hc
    rw [and_ufNm_eq_zero] at hc
    simp only [Bool.false_eq_true, if_false] at h
    have hs : ((r.frac + add) >>> 1).toNat = (r.frac + add).toNat / 2 := by
      rw [BitVec.toNat_ushiftRight, Nat.shiftRight_eq_div_pow]
    refine ⟨1, rfl, rfl, .inr ⟨rfl, rfl, by omega, ?_⟩⟩
    rw [or_ufNm_toNat (by omega), hs]
    omega
  · rename_i hc
    rw [and_ufNm_eq_zero] at hc
    refine ⟨0, by simp, rfl, .inl ⟨rfl, ?_⟩⟩
    dsimp only
    cases tiny with
    | true =>
      simp only [if_true] at h
      omega
    | false =>
      simp only [Bool.false_eq_true, if_false] at h
      simp only [true_and] at hc
      omega

/-- The rounded fraction on naturals is the sum without its low bits. -/
theorem snap_toNat_eq (dp : IeeeDt) (rndm : BitVec 2) (r : Ufp) :
    let tie := decide (rndm = frndN ∧ r.frac &&& dp.infrnd = dp.stdrnd)
    ((roundModeOf rndm).snap r.sign).toNat dp.guard r.frac.toNat =
      (r.frac.toNat + (rndAdd dp rndm r.sign).toNat) /
        2 ^ (dp.guard + if tie then 1 else 0) * 2 ^ (if tie then 1 else 0) := by
  intro tie
  have htie : r.frac &&& dp.infrnd = dp.stdrnd ↔
      r.frac.toNat % 2 ^ dp.guard = 2 ^ (dp.guard - 1) := by
    rw [← BitVec.toNat_inj, and_infrnd, stdrnd_toNat]
  rcases rndAdd_cases dp rndm r.sign with ⟨hs, hn, ha⟩ | ⟨hs, hn, ha⟩ | ⟨hs, hn, ha⟩
  · rw [hs, ha, stdrnd_toNat]
    simp only [tie, hn, htie, true_and, Snap.toNat, decide_eq_true_eq]
    split
    · rw [Nat.pow_succ, ← Nat.div_div_eq_div_mul, Nat.pow_one]
      omega
    · simp
  · rw [hs, ha, infrnd_toNat]
    simp [tie, hn, Snap.toNat]
  · rw [hs, ha]
    simp [tie, hn, Snap.toNat]

theorem rndAdd_lt (dp : IeeeDt) (rndm : BitVec 2) (sign : Bool) :
    (rndAdd dp rndm sign).toNat < 2 ^ dp.guard := by
  cases dp <;> cases sign <;> revert rndm <;> decide

/-- What rounding makes of a fraction: a significand `n`, with the exponent raised by `d` for a
carry, that has fewer bits only for a number below the smallest normal one. -/
theorem roundFrac_spec (dp : IeeeDt) (rndm : BitVec 2) {r : Ufp} {tiny : Bool}
    (h : if tiny then r.frac.toNat < 2 ^ 63 else 2 ^ 63 ≤ r.frac.toNat) :
    let r2 := roundFrac tiny r (rndAdd dp rndm r.sign)
    let low := lowBits dp (decide (rndm = frndN ∧ r.frac &&& dp.infrnd = dp.stdrnd))
    r2.sign = r.sign ∧ ∃ n d : Nat,
      ((roundModeOf rndm).snap r.sign).toNat dp.guard r.frac.toNat = n * 2 ^ d ∧
      r2.exp = r.exp + d ∧ n < 2 ^ dp.format.prec ∧
      (r2.frac.toNat < 2 ^ 63 ↔ n < 2 ^ (dp.format.prec - 1)) ∧
      (n < 2 ^ (dp.format.prec - 1) → tiny = true ∧ d = 0) ∧
      r2.frac.toNat / 2 ^ (11 + low) * 2 ^ low = n * 2 ^ (dp.guard - 11) := by
  intro r2 low
  have ha := rndAdd_lt dp rndm r.sign
  have ha2 : (rndAdd dp rndm r.sign).toNat < 2 ^ 40 := by
    cases dp <;> simp only [IeeeDt.guard] at ha <;> omega
  have hN := snap_toNat_eq dp rndm r
  obtain ⟨d, hexp, hsign, hd⟩ := roundFrac_eq ha2 h
  refine ⟨hsign, ?_⟩
  dsimp only at hN
  rw [hN]
  have hlt : r.frac.toNat < 2 ^ 64 := r.frac.isLt
  have hr2 : (roundFrac tiny r (rndAdd dp rndm r.sign)).frac.toNat = r2.frac.toNat := rfl
  rw [hr2] at hd
  change r2.exp = r.exp + d at hexp
  clear_value r2
  subst low
  generalize decide (rndm = frndN ∧ r.frac &&& dp.infrnd = dp.stdrnd) = tie at *
  generalize (rndAdd dp rndm r.sign).toNat = a at *
  generalize r2.frac.toNat = f2 at *
  generalize r.frac.toNat = f at *
  obtain ⟨rfl, hf, hS⟩ | ⟨rfl, rfl, hS, hf⟩ := hd
  · -- no carry
    subst hf
    refine ⟨_, 0, (Nat.mul_one _).symm, hexp, ?_⟩
    have htiny : f + a < 2 ^ 63 → tiny = true := by
      intro hf
      cases tiny with
      | true => rfl
      | false =>
        simp only [Bool.false_eq_true, if_false] at h
        omega
    simp only [and_true]
    cases dp <;> cases tie <;>
      simp only [IeeeDt.guard, IeeeDt.format, lowBits, Bool.false_eq_true, if_false, if_true] <;>
      refine ⟨by omega, by omega, fun hn => htiny (by omega), by omega⟩
  · -- a carry: all ones have become the next power of two
    subst hf
    refine ⟨2 ^ (dp.format.prec - 1), 1, ?_, hexp, ?_, ?_, fun hn => absurd hn (Nat.lt_irrefl _), ?_⟩ <;>
    cases dp <;> cases tie <;>
      simp only [IeeeDt.guard, IeeeDt.format, lowBits, Bool.false_eq_true, if_false, if_true] at * <;>
      omega

/-! ## A result below the smallest normal number -/

section

variable {K : Type*} [Field K] [LinearOrder K] [IsStrictOrderedRing K]

/-- The unpacked number stands for `x`: its fraction is normalised and compares with the multiples
of `2 ^ 10` as the magnitude `X` does. -/
structure Near (r : Ufp) (X x : K) : Prop where
  top : 2 ^ 63 ≤ r.frac.toNat
  side : SameSide (2 ^ 10) (r.frac.toNat : K) X
  val : x = signed r.sign (X * 2 ^ (r.exp - 1086))

theorem Near.pos {r : Ufp} {X x : K} (h : Near r X x) : 0 < X := by
  have hf : (2 : K) ^ 63 ≤ r.frac.toNat := by exact_mod_cast h.top
  have hX := (h.side.floor.pow_le_iff (n := 63) (by omega)).1 hf
  exact lt_of_lt_of_le (by positivity) hX

theorem Near.lt {r : Ufp} {X x : K} (h : Near r X x) : X < 2 ^ 64 := by
  have hf : (r.frac.toNat : K) < 2 ^ 64 := by exact_mod_cast r.frac.isLt
  exact lt_of_not_ge fun hx => not_le.2 hf ((h.side.floor.pow_le_iff (by omega)).2 hx)

/-- The first step: the number at MIN's exponent when it is below, with its magnitude there. -/
theorem tinyShift_spec {r : Ufp} {X x : K} (h : Near r X x) (dp : IeeeDt) :
    ∃ X1 : K, 0 < X1 ∧ SameSide (2 ^ (dp.guard - 1)) ((tinyShift dp r).frac.toNat : K) X1 ∧
      x = signed r.sign (X1 * 2 ^ ((tinyShift dp r).exp - 1086)) ∧
      (tinyShift dp r).sign = r.sign ∧
      (tinyShift dp r).exp = max r.exp (dp.expmin + 1) ∧
      (if decide (r.exp ≤ dp.expmin) then (tinyShift dp r).frac.toNat < 2 ^ 63
        else 2 ^ 63 ≤ (tinyShift dp r).frac.toNat) := by
  have htop := h.top
  have hside := h.side.coarsen_pow (show 10 ≤ dp.guard - 1 by cases dp <;> decide)
  unfold tinyShift
  by_cases ht : r.exp ≤ dp.expmin
  · have hne : r.frac ≠ 0 := by
      rw [toNat_ne_zero]
      omega
    have hlt : r.frac.toNat < 2 ^ 64 := r.frac.isLt
    obtain ⟨n, hn⟩ : ∃ n : ℕ, dp.expmin + 1 - r.exp = n + 1 :=
      ⟨(dp.expmin - r.exp).toNat, by omega⟩
    simp only [ht, if_true, decide_true]
    rw [hn, show ((n : ℤ) + 1).toNat = n + 1 by omega, shiftSticky_toNat hne]
    refine ⟨X / 2 ^ (n + 1), by have := h.pos; positivity, ?_, ?_, trivial, by omega, ?_⟩
    · -- the jammed fraction, the shifted one and the exact one
      have hjam := shiftJam_sameSide_pow (K := K) r.frac.toNat (n + 1)
        (show 1 ≤ dp.guard - 1 by cases dp <;> decide)
      exact hjam.trans (hside.coarsen_pow (by omega)).div_pow
    · have e : dp.expmin + 1 - 1086 = ((n + 1 : ℕ) : ℤ) + (r.exp - 1086) := by
        push_cast
        omega
      rw [h.val, e, zpow_add₀ two_ne_zero, zpow_natCast, ← mul_assoc,
        div_mul_cancel₀ X (by positivity)]
    · refine shiftJam_lt (Nat.lt_of_lt_of_le hlt ?_) (by omega)
      exact Nat.pow_le_pow_right (by decide) (by omega)
  · simp only [ht, if_false, decide_false, Bool.false_eq_true]
    exact ⟨X, h.pos, hside, h.val, trivial, by omega, htop⟩

/-! ## The result -/

theorem Near.abs_eq {r : Ufp} {X x : K} (h : Near r X x) : |x| = X * 2 ^ (r.exp - 1086) := by
  have := h.pos
  rw [h.val, abs_signed, abs_of_pos (by positivity)]

theorem Near.ne_zero {r : Ufp} {X x : K} (h : Near r X x) : x ≠ 0 := by
  have := h.pos
  rw [← abs_pos, h.abs_eq]
  positivity

theorem Near.neg_iff {r : Ufp} {X x : K} (h : Near r X x) : decide (x < 0) = r.sign := by
  have := h.pos
  rw [h.val, decide_signed_neg _ (by positivity)]

variable [FloorRing K]

theorem Near.ulpExp {r : Ufp} {X x : K} (h : Near r X x) (dp : IeeeDt) :
    dp.format.ulpExp x = max r.exp (dp.expmin + 1) - 1086 + dp.guard := by
  have hf : (2 : K) ^ 63 ≤ r.frac.toNat := by exact_mod_cast h.top
  have hX := (h.side.floor.pow_le_iff (n := 63) (by omega)).1 hf
  rw [Format.ulpExp, h.abs_eq, log_scaled hX h.lt]
  cases dp <;> simp only [IeeeDt.format, IeeeDt.guard, IeeeDt.expmin] <;> push_cast <;> omega

theorem lt_of_over (dp : IeeeDt) {n : ℕ} {e : ℤ} (hn : n < 2 ^ dp.format.prec)
    (h : (2 ^ dp.format.prec - 1) * 2 ^ (dp.format.emax - (dp.format.prec - 1)) <
      (n : K) * 2 ^ (e - 1086 + dp.guard)) : dp.expmax < e := by
  rw [max_eq] at h
  by_contra hle
  have hpow : (2 : K) ^ (e - 1086 + dp.guard) ≤ 2 ^ (dp.expmax - 1086 + dp.guard) :=
    zpow_le_zpow_right₀ (by norm_num) (by omega)
  have hn : (n : K) ≤ 2 ^ dp.format.prec - 1 := by
    rw [le_sub_iff_add_le]
    exact_mod_cast hn
  have hmul : (n : K) * 2 ^ (e - 1086 + dp.guard) ≤
      (2 ^ dp.format.prec - 1) * 2 ^ (dp.expmax - 1086 + dp.guard) :=
    mul_le_mul hn hpow (by positivity) (le_trans (by positivity) hn)
  exact absurd h (not_lt.2 hmul)

/-- A significand at an exponent above the largest is an overflow. -/
theorem over_of_lt (dp : IeeeDt) {n : ℕ} {e : ℤ} (hn : 2 ^ (dp.format.prec - 1) ≤ n)
    (h : dp.expmax < e) : (2 ^ dp.format.prec - 1) * 2 ^ (dp.format.emax - (dp.format.prec - 1)) <
      (n : K) * 2 ^ (e - 1086 + dp.guard) := by
  have hp : dp.format.prec = dp.format.prec - 1 + 1 := by cases dp <;> rfl
  have hpow : (2 : K) ^ (dp.expmax - 1086 + dp.guard) * 2 ≤ 2 ^ (e - 1086 + dp.guard) := by
    rw [← zpow_add_one₀ two_ne_zero]
    exact zpow_le_zpow_right₀ (by norm_num) (by omega)
  have hn : (2 : K) ^ (dp.format.prec - 1) ≤ n := by exact_mod_cast hn
  have h2 : (2 : K) ^ dp.format.prec = 2 ^ (dp.format.prec - 1) * 2 := by
    rw [← pow_succ, ← hp]
  rw [max_eq]
  calc (2 ^ dp.format.prec - 1 : K) * 2 ^ (dp.expmax - 1086 + dp.guard)
      < 2 ^ dp.format.prec * 2 ^ (dp.expmax - 1086 + dp.guard) :=
        mul_lt_mul_of_pos_right (by linarith) (by positivity)
    _ = 2 ^ (dp.format.prec - 1) * (2 ^ (dp.expmax - 1086 + dp.guard) * 2) := by
        rw [h2]
        ring
    _ ≤ n * 2 ^ (e - 1086 + dp.guard) := mul_le_mul hn hpow (by positivity) (by positivity)

/-- A multiple of the last place of MIN is below MIN when it has fewer bits than a significand. -/
theorem under_iff (dp : IeeeDt) (n : ℕ) :
    (n : K) * 2 ^ (dp.expmin + 1 - 1086 + dp.guard) < 2 ^ dp.format.emin ↔
      n < 2 ^ (dp.format.prec - 1) := by
  have e : (2 : K) ^ dp.format.emin =
      ((2 ^ (dp.format.prec - 1) : ℕ) : K) * 2 ^ (dp.expmin + 1 - 1086 + dp.guard) := by
    push_cast
    rw [← zpow_natCast, ← zpow_add₀ two_ne_zero]
    congr 1
    cases dp <;> rfl
  rw [e, mul_lt_mul_iff_left₀ (by positivity)]
  exact_mod_cast Iff.rfl

omit [IsStrictOrderedRing K] in
/-- The number a packed register holds. -/
theorem ieeePack_val (dp : IeeeDt) (rndm : BitVec 2) (rb : Word) {r : Ufp} (h0 : 0 < r.exp)
    (h1 : r.exp < 2047) (hf : 2 ^ 63 ≤ r.frac.toNat) {n : ℕ}
    (hn : r.frac.toNat / 2 ^ (11 + lowBits dp (decide (rndm = frndN ∧ rb = dp.stdrnd))) *
      2 ^ lowBits dp (decide (rndm = frndN ∧ rb = dp.stdrnd)) = n * 2 ^ (dp.guard - 11)) :
    Normal (ieeePack dp rndm rb r) ∧
      ieeeVal (ieeePack dp rndm rb r) =
        signed r.sign ((n : K) * 2 ^ (r.exp - 1086 + dp.guard)) := by
  have hc : lowBits dp (decide (rndm = frndN ∧ rb = dp.stdrnd)) ≤ 52 := by
    unfold lowBits
    cases dp <;> simp only [IeeeDt.guard] <;> split <;> omega
  obtain ⟨hs, he, hm⟩ := packed_fields r.sign hc h0 (by omega) hf
  rw [← ieeePack_eq] at hs he hm
  rw [hn] at hm
  have hN : Normal (ieeePack dp rndm rb r) := ⟨by omega, by omega⟩
  refine ⟨hN, ?_⟩
  have hmK : (2 : K) ^ 52 + (fprFrac (ieeePack dp rndm rb r)).toNat = n * 2 ^ (dp.guard - 11) := by
    exact_mod_cast hm
  have e : r.exp - 1086 + dp.guard = ((dp.guard - 11 : ℕ) : ℤ) + (r.exp - 1075) := by
    cases dp <;> simp only [IeeeDt.guard] <;> omega
  rw [ieeeVal, if_neg hN.2, hs, he, hmK, e, zpow_add₀ two_ne_zero, zpow_natCast, mul_assoc]

/-- What a result rounds to, and when it leaves the format: `n` is the significand and `e` the
exponent before range checks. -/
structure Outcome (dp : IeeeDt) (m : RoundMode) (r : Ufp) (f1 n : ℕ) (e : ℤ) (x : K) : Prop where
  round : dp.format.round m x = signed r.sign ((n : K) * 2 ^ (e - 1086 + dp.guard))
  overflow : Overflows dp.format m x ↔ dp.expmax < e
  under : Underflows dp.format m x ↔ n < 2 ^ (dp.format.prec - 1)
  not_both : n < 2 ^ (dp.format.prec - 1) → e ≤ dp.expmax
  exact_iff : dp.format.round m x = x ↔ f1 % 2 ^ dp.guard = 0
  trunc_le : m.snap r.sign = .trunc → |dp.format.round m x| ≤ |x|

theorem Near.outcome {r : Ufp} {X x : K} (h : Near r X x) (dp : IeeeDt) (m : RoundMode) {n d : ℕ}
    (hN : (m.snap r.sign).toNat dp.guard (tinyShift dp r).frac.toNat = n * 2 ^ d)
    (hn : n < 2 ^ dp.format.prec)
    (hsmall : n < 2 ^ (dp.format.prec - 1) → r.exp ≤ dp.expmin ∧ d = 0) :
    Outcome dp m r (tinyShift dp r).frac.toNat n ((tinyShift dp r).exp + d) x := by
  obtain ⟨X1, hX1, hside, hval, hsg, hexp, htop⟩ := tinyShift_spec h dp
  generalize hE : (tinyShift dp r).exp = e1 at *
  generalize hf : (tinyShift dp r).frac.toNat = f1 at *
  have hg : 1 ≤ dp.guard := by cases dp <;> decide
  have hg2 : (2 : K) ^ dp.guard = 2 * 2 ^ (dp.guard - 1) := by
    rw [← pow_succ', Nat.sub_add_cancel hg]
  have hNround : dp.format.round m x =
      signed r.sign (((m.snap r.sign).toNat dp.guard f1 : K) * 2 ^ (e1 - 1086 + dp.guard)) := by
    rw [Format.round, h.ulpExp dp, ← hexp, hval]
    exact roundAt_sameSide r.sign m hg hX1.le hside _
  have hround : dp.format.round m x =
      signed r.sign ((n : K) * 2 ^ (e1 + d - 1086 + dp.guard)) := by
    rw [hNround, hN]
    push_cast
    rw [mul_assoc, ← zpow_natCast, ← zpow_add₀ two_ne_zero]
    congr 3
    ring
  have habs : |dp.format.round m x| = n * 2 ^ (e1 + d - 1086 + dp.guard) := by
    rw [hround, abs_signed, abs_of_nonneg (by positivity)]
  -- the grid below the number in units of the fraction
  have hscale : ∀ k : ℕ, (k : K) * 2 ^ (e1 - 1086 + dp.guard) =
      ((2 * k : ℕ) : ℤ) * 2 ^ (dp.guard - 1) * 2 ^ (e1 - 1086) := by
    intro k
    rw [zpow_add₀ two_ne_zero, zpow_natCast, hg2]
    push_cast
    ring
  have hnat : ∀ k : ℕ, 2 * k * 2 ^ (dp.guard - 1) = k * 2 ^ dp.guard := by
    intro k
    rw [Nat.mul_comm 2 k, Nat.mul_assoc, ← Nat.pow_succ', Nat.succ_eq_add_one,
      Nat.sub_add_cancel hg]
  have hpow : (0 : K) < 2 ^ (e1 - 1086) := by positivity
  refine ⟨hround, ?_, ?_, ?_, ?_, ?_⟩
  · rw [Overflows, habs]
    refine ⟨lt_of_over dp hn, fun he => over_of_lt dp (not_lt.1 fun hs => ?_) he⟩
    obtain ⟨h1, rfl⟩ := hsmall hs
    cases dp <;> simp only [IeeeDt.expmin, IeeeDt.expmax] at * <;> omega
  · rw [Underflows, habs]
    constructor
    · rintro ⟨-, hlt⟩
      refine (under_iff dp n).1 (lt_of_le_of_lt ?_ hlt)
      refine mul_le_mul_of_nonneg_left (zpow_le_zpow_right₀ (by norm_num) ?_) (by positivity)
      omega
    · intro hs
      obtain ⟨h1, rfl⟩ := hsmall hs
      refine ⟨h.ne_zero, ?_⟩
      have hu := (under_iff (K := K) dp n).2 hs
      rw [hexp, max_eq_right (by omega)]
      simpa using hu
  · intro hs
    obtain ⟨h1, rfl⟩ := hsmall hs
    cases dp <;> simp only [IeeeDt.expmin, IeeeDt.expmax] at * <;> omega
  · have hN2 := hnat ((m.snap r.sign).toNat dp.guard f1)
    rw [hNround, hval, signed_inj, hscale, mul_left_inj' hpow.ne', eq_comm, ← hside.eq_iff,
      ← Snap.toNat_exact (m.snap r.sign) hg, ← hN2]
    exact_mod_cast Iff.rfl
  · intro htr
    have hle : ((2 * ((m.snap r.sign).toNat dp.guard f1) : ℕ) : ℤ) * (2 : K) ^ (dp.guard - 1) ≤
        f1 := by
      have hf : (m.snap r.sign).toNat dp.guard f1 * 2 ^ dp.guard ≤ f1 := by
        rw [htr]
        exact Nat.div_mul_le_self _ _
      rw [← hnat] at hf
      exact_mod_cast hf
    rw [hNround, hval, abs_signed, abs_signed, hscale, abs_of_nonneg (by positivity),
      abs_of_nonneg (by positivity)]
    exact mul_le_mul_of_nonneg_right ((hside.floor _).1 hle) hpow.le

theorem Normal.zeroOrNormal {w : Word} (h : Normal w) : ZeroOrNormal w :=
  ⟨h.1, fun h0 => absurd h0 h.2⟩

section

variable {dp : IeeeDt} {m : RoundMode} {z : Bool} {x : K} {s s' : FpState} {w : Word}

/-- An exact zero. -/
theorem rounded_zero : Rounded dp m z (0 : K) s (signBit z, s) := by
  have ho : ¬Overflows dp.format m (0 : K) := by
    have hmax : (0 : K) ≤ 2 ^ dp.format.prec - 1 := sub_nonneg.2 (one_le_pow₀ one_le_two)
    rw [Overflows, Format.round_zero, abs_zero, not_lt]
    positivity
  have hu : ¬Underflows dp.format m (0 : K) := fun h => h.1 rfl
  have hz : ZeroOrNormal (signBit z) ∧ fprExp (signBit z) = 0 := by cases z <;> decide
  refine ⟨fun _ => rfl, fun h => absurd h ho, fun h => absurd h ho, fun h => absurd h hu,
    fun h => absurd rfl h, fun i => ?_⟩
  simp [ho, hu, hz.1, ieeeVal, hz.2]

/-- The result of an overflow. -/
theorem rounded_over {sign : Bool} (hx : x ≠ 0) (hneg : decide (x < 0) = sign)
    (ho : Overflows dp.format m x) (hu : ¬Underflows dp.format m x)
    (hle : m.snap sign = .trunc → |dp.format.round m x| ≤ |x|)
    (hw : w = if m.snap sign = .trunc then signBit sign ||| dp.fpmax else infinity sign)
    (hbits : ∀ i, s'.fpcr.getLsbD i = true ↔
      s.fpcr.getLsbD i = true ∨ i = 54 ∨ (i = 56 ∧ s.noIne = false)) :
    Rounded dp m z x s (w, s') := by
  obtain ⟨hmn, hmv⟩ := fpmax_spec (K := K) dp sign
  have hne : ¬(ZeroOrNormal w ∧ ieeeVal w = x) := by
    rintro ⟨hz, hv⟩
    by_cases htr : m.snap sign = .trunc
    · rw [if_pos htr] at hw
      have habs := lt_of_lt_of_le ho (hle htr)
      have hmax : (0 : K) ≤ 2 ^ dp.format.prec - 1 := sub_nonneg.2 (one_le_pow₀ one_le_two)
      rw [← hv, hw, hmv, abs_signed, abs_of_nonneg (by positivity)] at habs
      exact lt_irrefl _ habs
    · rw [if_neg htr] at hw
      exact infinity_not sign (hw ▸ hz)
  subst hneg
  refine ⟨fun h0 => absurd h0 hx, fun _ htr => ?_, fun _ htr => ?_, fun h => absurd h hu,
    fun _ h => absurd ho h, fun i => ?_⟩
  · rw [hw, if_neg htr]
  · rw [hw, if_pos htr]
    exact ⟨hmn, hmv⟩
  · simp only [hbits, ho, hu, hne, and_true, and_false, false_or, not_false_eq_true]

omit [IsStrictOrderedRing K] in
/-- The result of an underflow. -/
theorem rounded_flush (hx : x ≠ 0) (ho : ¬Overflows dp.format m x)
    (hu : Underflows dp.format m x)
    (hbits : ∀ i, s'.fpcr.getLsbD i = true ↔
      s.fpcr.getLsbD i = true ∨ i = 55 ∨ (i = 56 ∧ s.noIne = false)) :
    Rounded dp m z x s (0, s') := by
  have hv : ieeeVal (0 : Word) = (0 : K) := if_pos (by decide)
  have hne : ¬(ZeroOrNormal (0 : Word) ∧ ieeeVal (0 : Word) = x) := by
    rw [hv]
    exact fun hc => hx hc.2.symm
  refine ⟨fun h0 => absurd h0 hx, fun h => absurd h ho, fun h => absurd h ho, fun _ => rfl,
    fun _ _ h => absurd hu h, fun i => ?_⟩
  simp only [hbits, ho, hu, hne, and_true, and_false, false_or, not_false_eq_true]

omit [IsStrictOrderedRing K] in
/-- The result in the format's range. -/
theorem rounded_normal (hx : x ≠ 0) (ho : ¬Overflows dp.format m x)
    (hu : ¬Underflows dp.format m x) (hn : Normal w) (hv : ieeeVal w = dp.format.round m x)
    (hbits : ∀ i, s'.fpcr.getLsbD i = true ↔
      s.fpcr.getLsbD i = true ∨ (i = 56 ∧ s.noIne = false ∧ ¬dp.format.round m x = x)) :
    Rounded dp m z x s (w, s') := by
  refine ⟨fun h0 => absurd h0 hx, fun h => absurd h ho, fun h => absurd h ho,
    fun h => absurd h hu, fun _ _ _ => ⟨hn, hv⟩, fun i => ?_⟩
  simp only [hbits, ho, hu, hv, hn.zeroOrNormal, true_and, and_false, false_or]

end

/-- A normalised fraction on the same side of the grid as the exact result is delivered as the
exact result rounded once. -/
theorem ieeeRpack_rounded {r : Ufp} {X x : K} (h : Near r X x) (s : FpState) (ins : Ins)
    (dp : IeeeDt) (z : Bool) :
    Rounded dp (roundModeOf (roundCode s ins)) z x s (ieeeRpack s r ins dp) := by
  have hx0 := h.ne_zero
  have hfrac : r.frac ≠ 0 := by
    have := h.top
    rw [toNat_ne_zero]
    omega
  unfold ieeeRpack
  rw [if_neg hfrac]
  dsimp only
  obtain ⟨X1, hX1, hside, hval, hsg, hexp, htop⟩ := tinyShift_spec h dp
  obtain ⟨hs2, n, d, hN, he2, hn, hf2, hsmall, hfields⟩ := roundFrac_spec dp (roundCode s ins) htop
  rw [hsg] at hN hs2 he2 hf2 hfields
  have ho := h.outcome dp (roundModeOf (roundCode s ins)) hN hn (by simpa using hsmall)
  rw [← he2] at ho
  have hrb : (tinyShift dp r).frac &&& dp.infrnd = 0 ↔
      dp.format.round (roundModeOf (roundCode s ins)) x = x := by
    rw [ho.exact_iff, ← BitVec.toNat_inj, and_infrnd]
    rfl
  have hadd := rndAdd_eq_zero dp (roundCode s ins) r.sign
  rw [hsg]
  -- the state after the inexact trap of the rounding bits
  have hs1 : ∀ i, (if (tinyShift dp r).frac &&& dp.infrnd = 0 then s
      else ieeeTrap s trapIne (qSui ins) fpcrIned ins).fpcr.getLsbD i = true ↔
        s.fpcr.getLsbD i = true ∨ (i = 56 ∧ s.noIne = false ∧
          ¬dp.format.round (roundModeOf (roundCode s ins)) x = x) := by
    intro i
    by_cases hz : (tinyShift dp r).frac &&& dp.infrnd = 0
    · simp [hz, hrb.1 hz]
    · rw [if_neg hz, trapIne_bit]
      simp [hrb.not.1 hz]
  have hs1n : (if (tinyShift dp r).frac &&& dp.infrnd = 0 then s
      else ieeeTrap s trapIne (qSui ins) fpcrIned ins).noIne = s.noIne := by
    split <;> simp
  generalize (if (tinyShift dp r).frac &&& dp.infrnd = 0 then s
      else ieeeTrap s trapIne (qSui ins) fpcrIned ins) = s1 at *
  generalize hr2 : roundFrac (decide (r.exp ≤ dp.expmin)) (tinyShift dp r)
    (rndAdd dp (roundCode s ins) r.sign) = r2 at *
  by_cases hov : dp.expmax < r2.exp
  · have hover := ho.overflow.2 hov
    have hunder : ¬Underflows dp.format (roundModeOf (roundCode s ins)) x := by
      intro hu
      have := ho.not_both (ho.under.1 hu)
      omega
    have hbits : ∀ i, (ieeeTrap (ieeeTrap s1 trapOvf true fpcrOvfd ins) trapIne (qSui ins)
        fpcrIned ins).fpcr.getLsbD i = true ↔
          s.fpcr.getLsbD i = true ∨ i = 54 ∨ (i = 56 ∧ s.noIne = false) := by
      intro i
      rw [trapIne_bit, trapOvf_bit, hs1, ieeeTrap_noIne, hs1n]
      clear * -
      tauto
    rw [if_pos hov, hs2]
    have hw := rounded_over (z := z) hx0 h.neg_iff hover hunder ho.trunc_le rfl hbits
    simp only [← hadd] at hw
    split
    · rename_i hz
      rwa [if_pos hz] at hw
    · rename_i hz
      rwa [if_neg hz] at hw
  · have hover := ho.overflow.not.2 hov
    rw [if_neg hov]
    by_cases hund : n < 2 ^ (dp.format.prec - 1)
    · have ht : (decide (r.exp ≤ dp.expmin) && r2.frac &&& ufNm == 0) = true := by
        rw [Bool.and_eq_true, beq_iff_eq, and_ufNm_eq_zero]
        exact ⟨(hsmall hund).1, hf2.2 hund⟩
      rw [if_pos ht]
      refine rounded_flush hx0 hover (ho.under.2 hund) fun i => ?_
      rw [trapIne_bit, trapUnf_bit, hs1, ieeeTrap_noIne, hs1n]
      clear * -
      tauto
    · have hf : ¬r2.frac.toNat < 2 ^ 63 := hf2.not.2 hund
      have ht : ¬(decide (r.exp ≤ dp.expmin) && r2.frac &&& ufNm == 0) = true := by
        rw [Bool.and_eq_true, beq_iff_eq, and_ufNm_eq_zero]
        exact fun hc => hf hc.2
      have he : 0 < r2.exp ∧ r2.exp < 2047 := by
        cases dp <;> simp only [IeeeDt.expmin, IeeeDt.expmax] at * <;> omega
      rw [if_neg ht]
      obtain ⟨hnorm, hv⟩ := ieeePack_val (K := K) dp (roundCode s ins)
        ((tinyShift dp r).frac &&& dp.infrnd) he.1 he.2 (not_lt.1 hf) hfields
      rw [hs2, ← ho.round] at hv
      exact rounded_normal hx0 hover (ho.under.not.2 hund) hnorm hv hs1

end

end Alphabox.Fp
