import Alphabox.Fp.Proof.Add

/-!
# IEEE multiplication and division

The high product word with a sticky bit for the low one, and the 55 bits of the shift-subtract
quotient with a sticky bit for the remainder, are near the exact results.
-/

namespace Alphabox.Fp

open Lib

/-! ## The quotient -/

/-- What the divide loop keeps of the dividend `d` after `i` rounds. -/
structure DivInv (d dvr : ℕ) (i quo dvd : ℕ) : Prop where
  eq : d * 2 ^ i = 2 * quo * dvr + dvd
  lt : dvd < 2 * dvr

theorem DivInv.quo_lt {d dvr i quo dvd : ℕ} (h : DivInv d dvr i quo dvd) (hd : d < 2 * dvr) :
    quo < 2 ^ i := by
  by_contra hn
  have h1 : 2 ^ i * (2 * dvr) ≤ quo * (2 * dvr) := Nat.mul_le_mul_right _ (by omega)
  have h2 : d * 2 ^ i < 2 * dvr * 2 ^ i := Nat.mul_lt_mul_of_pos_right hd (Nat.two_pow_pos i)
  have h3 : 2 * quo * dvr = quo * (2 * dvr) := by ring
  have h4 : 2 * dvr * 2 ^ i = 2 ^ i * (2 * dvr) := by ring
  have := h.eq
  omega

theorem DivInv.step {d dvr i quo dvd : ℕ} (h : DivInv d dvr i quo dvd) :
    DivInv d dvr (i + 1) (2 * quo + if dvr ≤ dvd then 1 else 0)
      (2 * (dvd - if dvr ≤ dvd then dvr else 0)) := by
  have h1 := h.eq
  have h2 := h.lt
  have e : d * 2 ^ (i + 1) = 2 * (d * 2 ^ i) := by ring
  split
  · refine ⟨?_, by omega⟩
    rw [e, h1]
    have : 2 * (2 * quo + 1) * dvr = 2 * (2 * quo * dvr) + 2 * dvr := by ring
    omega
  · refine ⟨?_, by omega⟩
    rw [e, h1]
    have : 2 * (2 * quo + 0) * dvr = 2 * (2 * quo * dvr) := by ring
    omega

/-- The loop keeps its invariant, and stops early only on a zero remainder. -/
theorem ufdivLoop_spec {d : ℕ} {dvr : Word} (hdvr : dvr.toNat < 2 ^ 63) (hd : d < 2 * dvr.toNat)
    (n : ℕ) {i : ℕ} (quo dvd : Word) (hi : i + n ≤ 63)
    (h : DivInv d dvr.toNat i quo.toNat dvd.toNat) :
    let res := ufdivLoop dvr n i quo dvd
    DivInv d dvr.toNat res.1 res.2.1.toNat res.2.2.toNat ∧
      (res.1 = i + n ∨ (res.1 ≤ i + n ∧ res.2.2 = 0)) := by
  induction n generalizing i quo dvd with
  | zero => exact ⟨h, .inl rfl⟩
  | succ n ih =>
    have hstep := h.step
    have hq := h.quo_lt hd
    have hlt := h.lt
    have hp : 2 ^ (i + 1) ≤ 2 ^ 63 := Nat.pow_le_pow_right (by decide) (by omega)
    rw [Nat.pow_succ] at hp
    have hq2 : (quo <<< 1).toNat = 2 * quo.toNat := by
      rw [shiftLeft_toNat (by omega)]
      omega
    have hq3 : (quo <<< 1 + 1).toNat = 2 * quo.toNat + 1 := by
      have h1 : (1 : Word).toNat = 1 := rfl
      rw [BitVec.toNat_add, hq2, h1]
      exact Nat.mod_eq_of_lt (by omega)
    unfold ufdivLoop
    split
    · rename_i h0
      exact ⟨h, .inr ⟨by omega, h0⟩⟩
    split
    · rename_i hle
      have hleN : dvr.toNat ≤ dvd.toNat := hle
      rw [if_pos hleN, if_pos hleN] at hstep
      have hs : (dvd - dvr).toNat = dvd.toNat - dvr.toNat := BitVec.toNat_sub_of_le hle
      have hd2 : ((dvd - dvr) <<< 1).toNat = 2 * (dvd.toNat - dvr.toNat) := by
        rw [shiftLeft_toNat (by omega), hs]
        omega
      rw [← hq3, ← hd2] at hstep
      have := ih _ _ (by omega) hstep
      rwa [show i + 1 + n = i + (n + 1) by omega] at this
    · rename_i hle
      have hleN : ¬dvr.toNat ≤ dvd.toNat := hle
      rw [if_neg hleN, if_neg hleN] at hstep
      have hd2 : (dvd <<< 1).toNat = 2 * (dvd.toNat - 0) := by
        rw [shiftLeft_toNat (by omega)]
        omega
      rw [Nat.add_zero, ← hq2, ← hd2] at hstep
      have := ih _ _ (by omega) hstep
      rwa [show i + 1 + n = i + (n + 1) by omega] at this

/-- `ufdiv64` gives `prec` bits of the quotient, left justified, and whether a remainder is left. -/
theorem ufdiv64_spec (dvd dvr : Word) (hdvr : dvr.toNat < 2 ^ 63) (hd : dvd.toNat < 2 * dvr.toNat)
    {p : ℕ} (hp : p + 1 ≤ 63) :
    (ufdiv64 dvd dvr (p + 1)).1.toNat = dvd.toNat * 2 ^ p / dvr.toNat * 2 ^ (63 - p) ∧
    (ufdiv64 dvd dvr (p + 1)).2 = if dvd.toNat * 2 ^ p % dvr.toNat = 0 then 0 else 1 := by
  have hpos : 0 < dvr.toNat := by omega
  obtain ⟨hinv, hend⟩ := ufdivLoop_spec hdvr hd (p + 1) (i := 0) 0 dvd (by omega) ⟨by simp, hd⟩
  unfold ufdiv64
  generalize ufdivLoop dvr (p + 1) 0 0 dvd = res at *
  obtain ⟨i, quo, rem⟩ := res
  dsimp only at *
  have hq := hinv.quo_lt hd
  have heq := hinv.eq
  have hlt := hinv.lt
  have hi : i ≤ p + 1 := by omega
  -- the invariant, with the rounds an early end has left out
  have hQ : dvd.toNat * 2 ^ p / dvr.toNat = quo.toNat * 2 ^ (p + 1 - i) ∧
      (dvd.toNat * 2 ^ p % dvr.toNat = 0 ↔ rem = 0) := by
    by_cases hip : i = p + 1
    · subst hip
      have h2 : dvd.toNat * 2 ^ (p + 1) = 2 * (dvd.toNat * 2 ^ p) := by ring
      have h3 : 2 * quo.toNat * dvr.toNat = 2 * (dvr.toNat * quo.toNat) := by ring
      obtain ⟨hdiv, hmod⟩ := (Nat.div_mod_unique hpos).2
        (⟨by omega, by omega⟩ : rem.toNat / 2 + dvr.toNat * quo.toNat = dvd.toNat * 2 ^ p ∧ _)
      rw [hdiv, hmod, ← BitVec.toNat_inj]
      change _ ∧ (_ ↔ rem.toNat = 0)
      simp only [Nat.sub_self, Nat.pow_zero, Nat.mul_one, true_and]
      omega
    · obtain rfl : rem = 0 := by
        obtain h | ⟨-, h⟩ := hend
        · omega
        · exact h
      obtain ⟨k, rfl⟩ : ∃ k, p = i + k := ⟨p - i, by omega⟩
      have h2 : dvd.toNat * 2 ^ (i + k) = quo.toNat * 2 ^ (i + k + 1 - i) * dvr.toNat := by
        have h0 : dvd.toNat * 2 ^ i = 2 * quo.toNat * dvr.toNat := by simpa using heq
        rw [show i + k + 1 - i = k + 1 by omega, Nat.pow_add, ← Nat.mul_assoc, h0]
        ring
      rw [h2, Nat.mul_div_cancel _ hpos, Nat.mul_mod_left]
      simp
  rw [hQ.1]
  refine ⟨?_, by simp only [hQ.2]⟩
  rw [Nat.mul_assoc, ← Nat.pow_add]
  have he : p + 1 - i + (63 - p) = 63 - i + 1 := by omega
  rw [he]
  refine shiftLeft_toNat ?_
  have h64 : 2 ^ i * 2 ^ (63 - i + 1) = 2 ^ 64 := by
    rw [← Nat.pow_add]
    congr 1
    omega
  rw [← h64]
  exact Nat.mul_lt_mul_of_pos_right hq (Nat.two_pow_pos _)

/-! ## The product -/

theorem uemul64_toNat (a b : Word) : (uemul64 a b).1.toNat = a.toNat * b.toNat % 2 ^ 64 ∧
    (uemul64 a b).2.toNat = a.toNat * b.toNat / 2 ^ 64 := by
  have ha : a.toNat < 2 ^ 64 := a.isLt
  have hb : b.toNat < 2 ^ 64 := b.isLt
  have hlt : a.toNat * b.toNat < 2 ^ 64 * 2 ^ 64 := Nat.mul_lt_mul'' ha hb
  have hp : (a.setWidth 128 * b.setWidth 128).toNat = a.toNat * b.toNat := by
    rw [BitVec.toNat_mul, BitVec.toNat_setWidth, BitVec.toNat_setWidth,
      Nat.mod_eq_of_lt (show a.toNat < 2 ^ 128 by omega),
      Nat.mod_eq_of_lt (show b.toNat < 2 ^ 128 by omega), Nat.mod_eq_of_lt (by omega)]
  unfold uemul64
  dsimp only
  rw [BitVec.toNat_setWidth, BitVec.toNat_setWidth, BitVec.toNat_ushiftRight, hp,
    Nat.shiftRight_eq_div_pow]
  exact ⟨rfl, Nat.mod_eq_of_lt (by omega)⟩

/-- A normalised number is shifted by the places its fraction lacks. -/
theorem NormOf.le_one {r r' : Ufp} {k : Nat} (h : NormOf r r' k) (h62 : 2 ^ 62 ≤ r.frac.toNat) :
    k ≤ 1 := by
  by_contra hk
  have h1 := h.frac
  have h2 : r'.frac.toNat < 2 ^ 64 := r'.frac.isLt
  have h3 : 2 ^ 2 ≤ 2 ^ k := Nat.pow_le_pow_right (by decide) (by omega)
  have := Nat.mul_le_mul h62 h3
  omega

section

variable {K : Type*} [Field K] [LinearOrder K] [IsStrictOrderedRing K]

/-- A fraction of at least 62 bits, at least `j` of them zero at its end, normalised and then given
a sticky bit for the rest of `Y`. -/
theorem sticky_near {r : Ufp} {Y : K} {st : Word} {j : ℕ} (hj : j ≤ 9)
    (h62 : 2 ^ 62 ≤ r.frac.toNat) (hlow : r.frac.toNat % 2 ^ j = 0)
    (hlo : (r.frac.toNat : K) ≤ Y) (hhi : Y < r.frac.toNat + 2 ^ j)
    (hst : st = if Y = (r.frac.toNat : K) then 0 else 1) :
    ∃ X, Near { ieeeNorm r with frac := (ieeeNorm r).frac ||| st } X
      (signed r.sign (Y * 2 ^ (r.exp - 1086))) := by
  have h0 : r.frac ≠ 0 := by
    rw [toNat_ne_zero]
    omega
  obtain ⟨k, hk⟩ := ieeeNorm_spec h0
  have hk1 := hk.le_one h62
  have hpos : (0 : K) < 2 ^ k := by positivity
  have hq : (ieeeNorm r).frac.toNat % 2 ^ (j + k) = 0 := by
    rw [hk.frac, Nat.pow_add, Nat.mul_mod_mul_right, hlow, Nat.zero_mul]
  have hcast : ((ieeeNorm r).frac.toNat : K) = r.frac.toNat * 2 ^ k := by exact_mod_cast hk.frac
  have hside := sticky_sameSide (K := K) st.toNat (x := Y * 2 ^ k) hq
    (by rw [hcast]; exact mul_le_mul_of_nonneg_right hlo hpos.le)
    (by
      rw [hcast, pow_add, ← add_mul]
      exact mul_lt_mul_of_pos_right hhi hpos)
    (by
      rw [hst, hcast]
      simp only [mul_left_inj' hpos.ne']
      split <;> rfl)
  refine ⟨Y * 2 ^ k, ?_, ?_, ?_⟩
  · dsimp only
    rw [BitVec.toNat_or]
    exact Nat.le_trans hk.top Nat.left_le_or
  · dsimp only
    rw [BitVec.toNat_or]
    exact hside.coarsen_pow (by omega)
  · dsimp only
    rw [hk.sign, hk.exp, show r.exp - 1086 = (k : ℤ) + (r.exp - k - 1086) by ring,
      zpow_add₀ two_ne_zero, zpow_natCast, mul_assoc]

/-- The high word of a product of fractions, and what the low word says. -/
theorem uemul64_frac {a b : Word} (ha : Frac a.toNat) (hb : Frac b.toNat) :
    2 ^ 62 ≤ (uemul64 a b).2.toNat ∧
    ((uemul64 a b).2.toNat : K) ≤ (a.toNat : K) * b.toNat / 2 ^ 64 ∧
    (a.toNat : K) * b.toNat / 2 ^ 64 < (uemul64 a b).2.toNat + 2 ^ 0 ∧
    ((a.toNat : K) * b.toNat / 2 ^ 64 = (uemul64 a b).2.toNat ↔ (uemul64 a b).1 = 0) := by
  obtain ⟨hlo, hhi⟩ := uemul64_toNat a b
  have h126 : 2 ^ 63 * 2 ^ 63 ≤ a.toNat * b.toNat := Nat.mul_le_mul ha.top hb.top
  have hdm := Nat.div_add_mod' (a.toNat * b.toNat) (2 ^ 64)
  have hK : (a.toNat : K) * b.toNat =
      (uemul64 a b).2.toNat * 2 ^ 64 + (uemul64 a b).1.toNat := by
    rw [← hlo, ← hhi] at hdm
    exact_mod_cast hdm.symm
  have hlt : ((uemul64 a b).1.toNat : K) < 2 ^ 64 := by exact_mod_cast (uemul64 a b).1.isLt
  have hnn : (0 : K) ≤ (uemul64 a b).1.toNat := Nat.cast_nonneg _
  refine ⟨by rw [hhi]; omega, ?_, ?_, ?_⟩
  · rw [le_div_iff₀ (by positivity), hK]
    linarith
  · rw [div_lt_iff₀ (by positivity), hK, pow_zero]
    linarith
  · rw [div_eq_iff (by positivity), hK, add_eq_left, Nat.cast_eq_zero, ← BitVec.toNat_inj]
    rfl

/-- The product of two normal numbers. -/
theorem mul_near {a b : Ufp} (ha : Frac a.frac.toNat) (hb : Frac b.frac.toNat) :
    let r := ieeeNorm ⟨a.sign ^^ b.sign, a.exp + b.exp + 1 - tBias, (uemul64 a.frac b.frac).2⟩
    ∃ X, Near { r with
        frac := r.frac ||| (if (uemul64 a.frac b.frac).1 = 0 then 0 else 1) } X
      (a.val * b.val : K) := by
  intro r
  obtain ⟨h62, hlo, hhi, hex⟩ := uemul64_frac (K := K) ha hb
  have hval : (a.val * b.val : K) = signed (a.sign ^^ b.sign)
      ((a.frac.toNat : K) * b.frac.toNat / 2 ^ 64 *
        2 ^ (a.exp + b.exp + 1 - tBias - 1086)) := by
    rw [Ufp.val, Ufp.val, signed_mul_signed]
    congr 1
    have e : a.exp + b.exp + 1 - tBias - 1086 = (a.exp - 1086) + (b.exp - 1086) + (64 : ℕ) := by
      simp only [tBias]
      push_cast
      ring
    rw [e, zpow_add₀ two_ne_zero, zpow_add₀ two_ne_zero, zpow_natCast]
    field_simp
  rw [hval]
  exact sticky_near (by omega) h62 (Nat.mod_one _) hlo hhi (by simp only [hex])

/-- The bits of a quotient of fractions, and what the remainder says. -/
theorem ufdiv64_frac {a b : Word} (ha : Frac a.toNat) (hb : Frac b.toNat) :
    let q := ufdiv64 (a >>> 1) (b >>> 1) 55
    2 ^ 62 ≤ q.1.toNat ∧ q.1.toNat % 2 ^ 9 = 0 ∧
    (q.1.toNat : K) ≤ (a.toNat : K) / b.toNat * 2 ^ 63 ∧
    (a.toNat : K) / b.toNat * 2 ^ 63 < q.1.toNat + 2 ^ 9 ∧
    q.2 = if (a.toNat : K) / b.toNat * 2 ^ 63 = q.1.toNat then 0 else 1 := by
  intro q
  obtain ⟨A, hA⟩ : ∃ A, a.toNat = 2 * A := ⟨a.toNat / 2, by have := ha.low; omega⟩
  obtain ⟨B, hB⟩ : ∃ B, b.toNat = 2 * B := ⟨b.toNat / 2, by have := hb.low; omega⟩
  have hA1 : (a >>> 1).toNat = A := by
    rw [BitVec.toNat_ushiftRight, Nat.shiftRight_eq_div_pow]
    omega
  have hB1 : (b >>> 1).toNat = B := by
    rw [BitVec.toNat_ushiftRight, Nat.shiftRight_eq_div_pow]
    omega
  have hat := ha.top
  have hal := ha.lt
  have hbt := hb.top
  have hbl := hb.lt
  obtain ⟨hq1, hq2⟩ := ufdiv64_spec (a >>> 1) (b >>> 1) (by omega) (by omega) (p := 54) (by omega)
  rw [hA1, hB1] at hq1 hq2
  change q.1.toNat = _ at hq1
  change q.2 = _ at hq2
  have hBpos : 0 < B := by omega
  have hBK : (0 : K) < B := by exact_mod_cast hBpos
  have hlo : A * 2 ^ 54 / B * B ≤ A * 2 ^ 54 := Nat.div_mul_le_self _ _
  have hhi : A * 2 ^ 54 < (A * 2 ^ 54 / B + 1) * B := by
    rw [Nat.add_mul, Nat.one_mul]
    exact Nat.lt_div_mul_add hBpos
  have hsize : 2 ^ 53 ≤ A * 2 ^ 54 / B := by
    rw [Nat.le_div_iff_mul_le hBpos]
    omega
  have hmod : A * 2 ^ 54 = A * 2 ^ 54 / B * B ↔ A * 2 ^ 54 % B = 0 := by
    have := Nat.div_add_mod' (A * 2 ^ 54) B
    omega
  generalize A * 2 ^ 54 / B = Q at *
  have hcast : (q.1.toNat : K) = Q * 2 ^ 9 := by exact_mod_cast hq1
  have hloK : (Q : K) * B ≤ A * 2 ^ 54 := by exact_mod_cast hlo
  have hhiK : (A : K) * 2 ^ 54 < (Q + 1) * B := by exact_mod_cast hhi
  have hY : (a.toNat : K) / b.toNat * 2 ^ 63 = (A : K) * 2 ^ 54 / B * 2 ^ 9 := by
    rw [hA, hB]
    push_cast
    field_simp
  rw [hY, hcast]
  refine ⟨by omega, by omega, ?_, ?_, ?_⟩
  · refine mul_le_mul_of_nonneg_right ?_ (by positivity)
    rwa [le_div_iff₀ hBK]
  · rw [← add_one_mul]
    refine mul_lt_mul_of_pos_right ?_ (by positivity)
    rwa [div_lt_iff₀ hBK]
  · have hiff : (A : K) * 2 ^ 54 / B * 2 ^ 9 = Q * 2 ^ 9 ↔ A * 2 ^ 54 % B = 0 := by
      rw [mul_left_inj' (by positivity), div_eq_iff hBK.ne', ← hmod]
      exact_mod_cast Iff.rfl
    rw [hq2]
    simp only [hiff]

/-- The quotient of two normal numbers. -/
theorem div_near {a b : Ufp} (ha : Frac a.frac.toNat) (hb : Frac b.frac.toNat) :
    let q := ufdiv64 (a.frac >>> 1) (b.frac >>> 1) 55
    let r := ieeeNorm ⟨a.sign ^^ b.sign, a.exp - b.exp + tBias, q.1⟩
    ∃ X, Near { r with frac := r.frac ||| q.2 } X (a.val / b.val : K) := by
  intro q r
  obtain ⟨h62, hlow, hlo, hhi, hst⟩ := ufdiv64_frac (K := K) ha hb
  have hval : (a.val / b.val : K) = signed (a.sign ^^ b.sign)
      ((a.frac.toNat : K) / b.frac.toNat * 2 ^ 63 * 2 ^ (a.exp - b.exp + tBias - 1086)) := by
    have e : a.exp - 1086 = (63 : ℕ) + (a.exp - b.exp + tBias - 1086) + (b.exp - 1086) := by
      simp only [tBias]
      push_cast
      ring
    rw [Ufp.val, Ufp.val, signed_div_signed, e, zpow_add₀ two_ne_zero, zpow_add₀ two_ne_zero,
      zpow_natCast]
    congr 1
    field_simp
  rw [hval]
  exact sticky_near (le_refl 9) h62 hlow hlo hhi hst

/-! ## The instructions -/

variable [FloorRing K]

theorem fmul_rounded {s1 s2 : Word} (h1 : ZeroOrNormal s1) (h2 : ZeroOrNormal s2) (s : FpState)
    (ins : Ins) (dp : IeeeDt) :
    Rounded dp (roundModeOf (roundCode s ins)) (fprSign s1 ^^ fprSign s2)
      (ieeeVal s1 * ieeeVal s2 : K) s (ieeeFmul s s1 s2 ins dp) := by
  unfold ieeeFmul
  by_cases z1 : fprExp s1 = 0
  · have hx : (ieeeVal s1 * ieeeVal s2 : K) = 0 := by rw [ieeeVal_zero z1, zero_mul]
    rw [hx]
    by_cases z2 : fprExp s2 = 0
    · simp only [ieeeUnpack_zero h1 z1, ieeeUnpack_zero h2 z2]
      exact rounded_zero
    · simp only [ieeeUnpack_zero h1 z1, ieeeUnpack_normal ⟨h2.1, z2⟩]
      exact rounded_zero
  · have n1 : Normal s1 := ⟨h1.1, z1⟩
    by_cases z2 : fprExp s2 = 0
    · have hx : (ieeeVal s1 * ieeeVal s2 : K) = 0 := by rw [ieeeVal_zero z2, mul_zero]
      rw [hx]
      simp only [ieeeUnpack_normal n1, ieeeUnpack_zero h2 z2]
      exact rounded_zero
    · have n2 : Normal s2 := ⟨h2.1, z2⟩
      obtain ⟨X, hX⟩ := mul_near (K := K) (unpacked_frac s1) (unpacked_frac s2)
      rw [unpacked_val n1, unpacked_val n2]
      simp only [ieeeUnpack_normal n1, ieeeUnpack_normal n2]
      exact ieeeRpack_rounded hX s ins dp _

theorem fdiv_rounded {s1 s2 : Word} (h1 : ZeroOrNormal s1) (h2 : Normal s2) (s : FpState)
    (ins : Ins) (dp : IeeeDt) :
    Rounded dp (roundModeOf (roundCode s ins)) (fprSign s1 ^^ fprSign s2)
      (ieeeVal s1 / ieeeVal s2 : K) s (ieeeFdiv s s1 s2 ins dp) := by
  unfold ieeeFdiv
  by_cases z1 : fprExp s1 = 0
  · have hx : (ieeeVal s1 / ieeeVal s2 : K) = 0 := by rw [ieeeVal_zero z1, zero_div]
    rw [hx]
    simp only [ieeeUnpack_zero h1 z1, ieeeUnpack_normal h2]
    exact rounded_zero
  · have n1 : Normal s1 := ⟨h1.1, z1⟩
    obtain ⟨X, hX⟩ := div_near (K := K) (unpacked_frac s1) (unpacked_frac s2)
    rw [unpacked_val n1, unpacked_val h2]
    simp only [ieeeUnpack_normal n1, ieeeUnpack_normal h2]
    exact ieeeRpack_rounded hX s ins dp _

end

/-- IEEE multiplication and division are correctly rounded. -/
theorem ieee_fmul_fdiv_rounded {s1 s2 : Word} (h1 : ZeroOrNormal s1) (h2 : ZeroOrNormal s2)
    (s : FpState) (ins : Ins) (dp : IeeeDt) :
    Rounded dp (roundModeOf (roundCode s ins)) (fprSign s1 ^^ fprSign s2)
      (ieeeVal s1 * ieeeVal s2 : ℚ) s (ieeeFmul s s1 s2 ins dp) ∧
    (ieeeVal s2 ≠ (0 : ℚ) → Rounded dp (roundModeOf (roundCode s ins)) (fprSign s1 ^^ fprSign s2)
      (ieeeVal s1 / ieeeVal s2 : ℚ) s (ieeeFdiv s s1 s2 ins dp)) :=
  ⟨fmul_rounded h1 h2 s ins dp,
    fun hne => fdiv_rounded h1 ⟨h2.1, fun h0 => hne (ieeeVal_zero h0)⟩ s ins dp⟩

/-- The operands one and three. -/
def one : Word := 0x3ff0000000000000

def three : Word := 0x4008000000000000

theorem ieeeVal_one : (ieeeVal one : ℚ) = 1 := by
  have he : fprExp one = 1023 := by decide
  have hf : (fprFrac one).toNat = 0 := by decide
  have hs : fprSign one = false := by decide
  rw [ieeeVal, he, hf, hs]
  norm_num

theorem ieeeVal_three : (ieeeVal three : ℚ) = 3 := by
  have he : fprExp three = 1024 := by decide
  have hf : (fprFrac three).toNat = 2 ^ 51 := by decide
  have hs : fprSign three = false := by decide
  rw [ieeeVal, he, hf, hs]
  norm_num

/-- One third in the S format. -/
theorem ieee_fmul_fdiv_rounded_third :
    ZeroOrNormal one ∧ ZeroOrNormal three ∧
    Rounded .s .near false (ieeeVal one / ieeeVal three : ℚ) ⟨0, 0, false, false, false, 0, false⟩
      (ieeeFdiv ⟨0, 0, false, false, false, 0, false⟩ one three 0x1000 .s) := by
  have h1 : ZeroOrNormal one := by decide
  have h2 : ZeroOrNormal three := by decide
  have h3 : (ieeeVal three : ℚ) ≠ 0 := by
    rw [ieeeVal_three]
    norm_num
  exact ⟨h1, h2, (ieee_fmul_fdiv_rounded h1 h2 _ 0x1000 .s).2 h3⟩

/-- The divide of a paired-single estimate, of one by three, rounds without setting INE. -/
theorem fdiv_estimate_no_ine :
    ZeroOrNormal one ∧ ZeroOrNormal three ∧ (ieeeVal three : ℚ) ≠ 0 ∧
    (ieeeVal (ieeeFdiv ⟨0, 0, false, true, false, 0, false⟩ one three 0 .s).1 : ℚ) ≠
      ieeeVal one / ieeeVal three ∧
    (ieeeFdiv ⟨0, 0, false, true, false, 0, false⟩ one three 0 .s).2.fpcr.getLsbD 56 = false := by
  have hres : ieeeFdiv ⟨0, 0, false, true, false, 0, false⟩ one three 0 .s =
      (0x3fd5555540000000, ⟨0, 0, false, true, false, 0, false⟩) := by decide +kernel
  have he : fprExp 0x3fd5555540000000 = 1021 := by decide
  have hf : (fprFrac 0x3fd5555540000000).toNat = 0x5555540000000 := by decide
  have hs : fprSign 0x3fd5555540000000 = false := by decide
  rw [hres, ieeeVal_one, ieeeVal_three]
  refine ⟨by decide, by decide, by norm_num, ?_, by decide⟩
  dsimp only
  rw [ieeeVal, he, hf, hs]
  norm_num

end Alphabox.Fp
