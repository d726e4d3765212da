import Alphabox.Fp.Proof.Vax

/-!
# Conversions to and from integers

`ieee_cvtfi_n` splits a number into its integer part and a word of the lost bits (`intPart_spec`),
from which `roundInt` rounds; `vax_cvtfi` keeps the round bit and adds one.
-/

namespace Alphabox.Fp

open Lib

/-! ## The integer part -/

theorem ushiftRight_toNat (w : Word) (n : Nat) : (w >>> n).toNat = w.toNat / 2 ^ n := by
  rw [BitVec.toNat_ushiftRight, Nat.shiftRight_eq_div_pow]

/-- The bits a right shift loses, at the top of a word. -/
theorem lostBits_toNat (w : Word) {n : Nat} (hn : n ≤ 64) :
    (w <<< (64 - n)).toNat = w.toNat % 2 ^ n * 2 ^ (64 - n) := by
  have e : (2 : Nat) ^ 64 = 2 ^ n * 2 ^ (64 - n) := by
    rw [← Nat.pow_add]
    congr 1
    omega
  rw [BitVec.toNat_shiftLeft, Nat.shiftLeft_eq, e, Nat.mul_mod_mul_right]

section

variable {K : Type*} [Field K] [LinearOrder K] [IsStrictOrderedRing K]

/-- A fraction shifted right by `n` places. -/
theorem shifted_parts {F n : ℕ} {st : ℕ} (hst : st * 2 ^ n = F % 2 ^ n * 2 ^ 64)
    (hlt : st < 2 ^ 64) : Parts (2 ^ 63) ((F : K) / 2 ^ n) (F / 2 ^ n) st := by
  refine Parts.of_eq (by decide) hlt ?_
  have hF : ((F / 2 ^ n : ℕ) : K) * 2 ^ n + (F % 2 ^ n : ℕ) = F := by
    exact_mod_cast Nat.div_add_mod' F (2 ^ n)
  have hS : (st : K) * 2 ^ n = (F % 2 ^ n : ℕ) * 2 ^ 64 := by exact_mod_cast hst
  have hst2 : (st : K) / (2 * (2 ^ 63 : ℕ)) = (F % 2 ^ n : ℕ) / 2 ^ n := by
    rw [div_eq_div_iff (by positivity) (by positivity), hS]
    push_cast
    ring
  rw [hst2, div_eq_iff (by positivity), add_mul, div_mul_cancel₀ _ (by positivity), hF]

/-- A number below one half has no integer part. -/
theorem small_parts {F : ℕ} {u : ℤ} (hlt : F < 2 ^ 64) (h0 : 0 < F) (hu : u < -1) :
    Parts (2 ^ 63) ((F : K) * 2 ^ (u - 63)) (BitVec.toNat (0 : Word)) (BitVec.toNat (1 : Word)) := by
  have hF : (0 : K) < F := by exact_mod_cast h0
  have hF2 : (F : K) < 2 ^ 64 := by exact_mod_cast hlt
  have hE : (2 : K) ^ (u - 63) ≤ 2 ^ (-(65 : ℕ) : ℤ) :=
    zpow_le_zpow_right₀ (by norm_num) (by push_cast; omega)
  have hq : (F : K) * 2 ^ (u - 63) < 1 / 2 := by
    calc (F : K) * 2 ^ (u - 63) ≤ F * 2 ^ (-(65 : ℕ) : ℤ) := mul_le_mul_of_nonneg_left hE hF.le
      _ < 2 ^ 64 * 2 ^ (-(65 : ℕ) : ℤ) := mul_lt_mul_of_pos_right hF2 (by positivity)
      _ = 1 / 2 := by
        rw [zpow_neg, zpow_natCast]
        norm_num
  have hq0 : (0 : K) < F * 2 ^ (u - 63) := by positivity
  have hz : ((BitVec.toNat (0 : Word) : ℕ) : K) = 0 := Nat.cast_zero
  generalize (F : K) * 2 ^ (u - 63) = q at *
  refine ⟨?_, ?_, ?_, ?_, ?_⟩ <;> rw [hz]
  · exact hq0.le
  · linarith
  · exact ⟨fun h => absurd h (by decide), fun h => absurd h hq0.ne'⟩
  · exact ⟨fun h => absurd h (by decide), fun h => by linarith⟩
  · exact ⟨fun h => absurd h (by decide), fun h => by linarith⟩

/-- The integer part in range with the lost bits, or the low word of an integer too large. -/
theorem intPart_spec {a : Ufp} (ha : 2 ^ 63 ≤ a.frac.toNat) :
    ((intPart a).2.2 = false ∧
      Parts (2 ^ 63) ((a.frac.toNat : K) * 2 ^ (a.exp - 1086)) (intPart a).1.toNat
        (intPart a).2.1.toNat ∧ ((intPart a).2.1 = 0 ∨ (intPart a).1.toNat < 2 ^ 63)) ∨
    ((intPart a).2.2 = true ∧ (intPart a).2.1 = 0 ∧
      ∃ N : ℕ, (a.frac.toNat : K) * 2 ^ (a.exp - 1086) = N ∧ 2 ^ 64 ≤ N ∧
        (intPart a).1.toNat = N % 2 ^ 64) := by
  have hlt : a.frac.toNat < 2 ^ 64 := a.frac.isLt
  obtain ⟨u, hu⟩ : ∃ u : ℤ, a.exp = u + 1023 := ⟨a.exp - 1023, by omega⟩
  have hb : a.exp - tBias = u := by rw [hu, tBias]; omega
  rw [show a.exp - 1086 = u - 63 by omega]
  unfold intPart
  simp only [hb]
  by_cases h0 : u < 0
  · left
    simp only [h0, if_true]
    refine ⟨trivial, ?_, .inr (by decide)⟩
    -- from one half on the lost bits are the fraction itself
    by_cases h1 : u = -1
    · subst h1
      have hst : a.frac.toNat * 2 ^ 64 = a.frac.toNat % 2 ^ 64 * 2 ^ 64 := by
        rw [Nat.mod_eq_of_lt hlt]
      have hp := shifted_parts (K := K) hst hlt
      rw [Nat.div_eq_of_lt hlt] at hp
      rw [if_pos rfl, show (-1 - 63 : ℤ) = -(64 : ℕ) by norm_num, zpow_neg, zpow_natCast,
        ← div_eq_mul_inv]
      exact hp
    · rw [if_neg h1]
      exact small_parts hlt (by omega) (by omega)
  · simp only [h0, if_false]
    -- in range the fraction is split, above it the low bits are what is left
    by_cases h1 : u ≤ 63
    · left
      simp only [h1, if_true]
      obtain ⟨n, rfl⟩ : ∃ n : ℕ, u = 63 - n := ⟨(63 - u).toNat, by omega⟩
      have hn : (63 - (63 - (n : ℤ))).toNat = n := by omega
      simp only [hn]
      rw [show (63 - n - 63 : ℤ) = -(n : ℕ) by omega, zpow_neg, zpow_natCast, ← div_eq_mul_inv,
        ushiftRight_toNat]
      refine ⟨trivial, shifted_parts ?_ (BitVec.isLt _), ?_⟩
      · split
        · rename_i h
          subst h
          simp [Nat.mod_one]
        · rw [lostBits_toNat _ (by omega), Nat.mul_assoc, ← Nat.pow_add, Nat.sub_add_cancel (by omega)]
      · by_cases h : n = 0
        · exact .inl (if_pos h)
        · right
          have : a.frac.toNat / 2 ^ n ≤ a.frac.toNat / 2 ^ 1 :=
            Nat.div_le_div_left (Nat.pow_le_pow_right (by decide) (by omega)) (by decide)
          omega
    · right
      simp only [h1, if_false]
      obtain ⟨n, rfl⟩ : ∃ n : ℕ, u = 63 + n := ⟨(u - 63).toNat, by omega⟩
      have hn : 63 + (n : ℤ) - 63 = n := by omega
      have h2 : 2 ^ 1 ≤ 2 ^ n := Nat.pow_le_pow_right (by decide) (by omega)
      simp only [hn, Int.toNat_natCast]
      refine ⟨trivial, trivial, a.frac.toNat * 2 ^ n, ?_, ?_, ?_⟩
      · rw [zpow_natCast]
        push_cast
        rfl
      · have := Nat.mul_le_mul ha h2
        omega
      · split
        · have hd : 2 ^ 64 ∣ a.frac.toNat * 2 ^ n :=
            Dvd.dvd.mul_left (pow_dvd_pow 2 (by omega)) _
          exact (Nat.mod_eq_zero_of_dvd hd).symm
        · rw [BitVec.toNat_shiftLeft, Nat.shiftLeft_eq]

variable [FloorRing K]

/-- Rounding by the lost bits. -/
theorem roundInt_spec {q : K} {i st : Word} (rndm : BitVec 2) (sign : Bool)
    (hp : Parts (2 ^ 63) q i.toNat st.toNat) (hroom : st = 0 ∨ i.toNat < 2 ^ 63) :
    (roundInt rndm sign i st).2 = false ∧
      ((roundInt rndm sign i st).1.toNat : ℤ) = ((roundModeOf rndm).snap sign).toInt q := by
  have h0 : st = 0 ↔ st.toNat = 0 := by
    rw [← BitVec.toNat_inj]
    rfl
  have htop : st &&& 0x8000000000000000 ≠ 0 ↔ 2 ^ 63 ≤ st.toNat := by
    rw [Ne, show (0x8000000000000000 : Word) = ufNm from rfl, and_ufNm_eq_zero, not_lt]
  have htie : st = 0x8000000000000000 ↔ st.toNat = 2 ^ 63 := by
    rw [← BitVec.toNat_inj]
    rfl
  have hinc : st ≠ 0 → (i + 1).toNat = i.toNat + 1 := by
    intro hs
    have h1 : (i + 1).toNat = (i.toNat + 1) % 2 ^ 64 := BitVec.toNat_add i 1
    have := hroom.resolve_left hs
    omega
  have hcl : ∀ w : Word, (w &&& ~~~1).toNat = w.toNat / 2 * 2 := fun w => clear_toNat w 1
  have hcarry : st ≠ 0 → (i + 1 == 0) = false := by
    intro hs
    rw [beq_eq_false_iff_ne, toNat_ne_zero, hinc hs]
    omega
  have hfl := hp.floor
  have hce := hp.ceil
  have hev := hp.even
  simp only [← h0] at hce
  simp only [← htie] at hev
  unfold roundInt
  -- away from zero: half or more to nearest, or anything towards the mode's infinity
  split
  · rename_i hup
    have hs : st ≠ 0 := by
      obtain ⟨-, h⟩ | ⟨-, -, h⟩ | ⟨-, -, h⟩ := hup
      · rintro rfl
        exact h (by decide)
      · exact h
      · exact h
    have hi := hinc hs
    refine ⟨hcarry hs, ?_⟩
    dsimp only
    obtain ⟨rfl, h⟩ | ⟨rfl, rfl, -⟩ | ⟨rfl, rfl, -⟩ := hup
    · have hm : roundModeOf frndN = .near := by decide
      rw [hm, RoundMode.snap, Snap.toInt, hev]
      by_cases ht : st = 0x8000000000000000
      · have hc : frndN = frndN ∧ st = 0x8000000000000000 := ⟨rfl, ht⟩
        rw [if_pos hc, if_pos ht, hcl, hi]
        push_cast
        omega
      · have hc : ¬(frndN = frndN ∧ st = 0x8000000000000000) := fun h => ht h.2
        rw [if_neg hc, if_neg ht, if_pos (htop.1 h), hi]
        push_cast
        rfl
    · have hm : (roundModeOf frndP).snap false = .away := by decide
      rw [hm, Snap.toInt, hce, if_neg hs, if_neg (fun h => absurd h.1 (by decide)), hi]
      push_cast
      rfl
    · have hm : (roundModeOf frndM).snap true = .away := by decide
      rw [hm, Snap.toInt, hce, if_neg hs, if_neg (fun h => absurd h.1 (by decide)), hi]
      push_cast
      rfl
  · rename_i hup
    -- cut off: every mode has its reason
    rw [not_or, not_or] at hup
    obtain ⟨hN, hP, hM⟩ := hup
    refine ⟨rfl, ?_⟩
    dsimp only
    unfold roundModeOf
    split
    · rename_i h
      have hh : ¬2 ^ 63 ≤ st.toNat := fun hc => hN ⟨h, htop.2 hc⟩
      rw [RoundMode.snap, Snap.toInt, hev, if_neg (fun ht => hh (htie.1 ht).ge), if_neg hh]
    split
    · rename_i h
      cases sign with
      | false =>
        have hs : st = 0 := by_contra fun hc => hP ⟨h, rfl, hc⟩
        simp only [RoundMode.snap, Bool.false_eq_true, if_false, Snap.toInt, hce, hs, if_true]
      | true => simp only [RoundMode.snap, if_true, Snap.toInt, hfl]
    split
    · rename_i h
      cases sign with
      | false => simp only [RoundMode.snap, Bool.false_eq_true, if_false, Snap.toInt, hfl]
      | true =>
        have hs : st = 0 := by_contra fun hc => hM ⟨h, rfl, hc⟩
        simp only [RoundMode.snap, Snap.toInt, hce, hs, if_true]
    · simp only [RoundMode.snap, Snap.toInt, hfl]

/-! ## `ieee_cvtfi_n` -/

/-- The largest exponent of two's complement a conversion is checked against. -/
def intWidth (l32 : Bool) : ℕ := if l32 then 31 else 63

omit [IsStrictOrderedRing K] in
theorem intRounded_of {w : ℕ} {r : RoundMode} {ins : Ins} {x : K} {s s1 s2 : FpState} {v : Word}
    (hv : v = BitVec.ofInt 64 (r.toInt x))
    (h1 : s1 = if Outside w (r.toInt x) then reportOverflow s ins else s)
    (h2 : s2 = if x = (r.toInt x : K) then s1 else ieeeTrap s1 trapIne (qSui ins) fpcrIned ins) :
    IntRounded w r ins x s (v, s2) := by
  refine ⟨hv, ⟨s1, h1, h2⟩, fun i => ?_⟩
  have hinv : ∀ s, (ieeeTrap s trapInv true fpcrInvd ins).fpcr.getLsbD i = true ↔
      s.fpcr.getLsbD i = true ∨ i = 52 :=
    fun s => trap_bit (by decide) (by decide) (by decide) s _ _ ins i
  have hiov : ∀ s, (ieeeTrap s trapIov (hasFtrp ins ftrpV) 0 ins).fpcr.getLsbD i = true ↔
      s.fpcr.getLsbD i = true ∨ i = 57 :=
    fun s => trap_bit (by decide) (by decide) (by decide) s _ _ ins i
  have hbit : s1.fpcr.getLsbD i = true ↔ s.fpcr.getLsbD i = true ∨
      (i = 57 ∧ Outside w (r.toInt x)) ∨
      (i = 52 ∧ hasFtrp ins ftrpS = true ∧ Outside w (r.toInt x)) := by
    rw [h1]
    by_cases ho : Outside w (r.toInt x)
    · rw [if_pos ho, reportOverflow]
      by_cases hS : hasFtrp ins ftrpS = true
      · simp only [hS, if_true, hinv, hiov, ho, and_true, or_assoc]
      · simp only [hS, Bool.false_eq_true, if_false, hiov, ho, and_true, and_false, or_false]
    · simp only [ho, if_false, and_false, or_false]
  have hno : s1.noIne = s.noIne := by
    rw [h1, reportOverflow]
    split
    · split <;> simp
    · rfl
  dsimp only
  rw [h2]
  by_cases hx : x = (r.toInt x : K)
  · rw [if_pos hx, hbit]
    simp only [← hx, ne_eq, not_true_eq_false, and_false, or_false]
  · rw [if_neg hx, trapIne_bit, hbit, hno]
    simp only [ne_eq, hx, not_false_eq_true, and_true, or_assoc]

/-- A magnitude against the largest one of its sign. -/
theorem intMax_lt_iff (sign l32 : Bool) (f : Word) : intMax sign l32 < f ↔
    Outside (intWidth l32) (if sign then -(f.toNat : ℤ) else f.toNat) := by
  rw [BitVec.lt_def]
  unfold Outside
  have hf : f.toNat < 2 ^ 64 := f.isLt
  cases sign <;> cases l32 <;>
    simp only [intMax, intWidth, Bool.false_eq_true, if_false, if_true] <;>
    simp only [BitVec.reduceToNat, BitVec.ofNat_eq_ofNat] <;> omega

theorem ofInt_magnitude {N : ℕ} {f : Word} (sign : Bool) (h : f.toNat = N % 2 ^ 64) :
    (if sign then -f else f) = BitVec.ofInt 64 (if sign then -(N : ℤ) else N) := by
  have hf : f = BitVec.ofNat 64 N := by
    rw [← BitVec.toNat_inj, BitVec.toNat_ofNat, h]
  cases sign with
  | false => simp only [Bool.false_eq_true, if_false, hf, BitVec.ofInt_natCast]
  | true => simp only [if_true, hf, BitVec.ofInt_neg, BitVec.ofInt_natCast]

omit [LinearOrder K] [IsStrictOrderedRing K] [FloorRing K] in
theorem signed_natCast (sign : Bool) (n : ℕ) :
    signed sign (n : K) = ((if sign then -(n : ℤ) else n : ℤ) : K) := by
  cases sign <;> simp

/-- A number rounds to itself when its magnitude is its integer part. -/
theorem signed_eq_toInt_iff (r : RoundMode) (sign : Bool) {q : K} {i : ℕ} (hlo : (i : K) ≤ q)
    (hhi : q < i + 1) : signed sign q = ((r.toInt (signed sign q) : ℤ) : K) ↔ q = i := by
  constructor
  · intro h
    obtain ⟨m, hm⟩ : ∃ m : ℤ, q = m := by
      cases sign with
      | false => exact ⟨_, h⟩
      | true =>
        refine ⟨-r.toInt (signed true q), ?_⟩
        rw [Int.cast_neg, ← h, signed_true, neg_neg]
    rw [hm] at hlo hhi ⊢
    have h1 : (i : ℤ) ≤ m := by exact_mod_cast hlo
    have h2 : m < i + 1 := by exact_mod_cast hhi
    exact_mod_cast (show m = i by omega)
  · intro h
    rw [h, signed_natCast, r.toInt_intCast]

/-- Conversion of a zero or normal number to an integer. -/
theorem cvtfi_rounded {op : Word} (h : ZeroOrNormal op) (s : FpState) (ins : Ins) (l32 : Bool) :
    IntRounded (intWidth l32) (roundModeOf (roundCode s ins)) ins (ieeeVal op : K) s
      (ieeeCvtfiN s op ins l32) := by
  unfold ieeeCvtfiN
  by_cases z : fprExp op = 0
  · have hz : ¬Outside (intWidth l32) 0 := by cases l32 <;> decide
    simp only [ieeeUnpack_zero h z, ieeeVal_zero z]
    refine intRounded_of ?_ rfl ?_
    · rw [RoundMode.toInt_zero]
      rfl
    · rw [RoundMode.toInt_zero, Int.cast_zero, if_pos rfl, if_neg hz]
  · have hN : Normal op := ⟨h.1, z⟩
    have htop := (unpacked_frac op).top
    simp only [ieeeUnpack_normal hN, unpacked_val hN]
    have hr := @roundInt_spec K _ _ _ _
      (((unpacked op).frac.toNat : K) * 2 ^ ((unpacked op).exp - 1086)) (intPart (unpacked op)).1
      (intPart (unpacked op)).2.1 (roundCode s ins) (unpacked op).sign
    have hi := intPart_spec (K := K) htop
    have hq : (0 : K) ≤ ((unpacked op).frac.toNat : K) * 2 ^ ((unpacked op).exp - 1086) := by
      positivity
    have hn := RoundMode.toInt_signed (roundModeOf (roundCode s ins)) (unpacked op).sign hq
    rw [Ufp.val]
    generalize ((unpacked op).frac.toNat : K) * 2 ^ ((unpacked op).exp - 1086) = q at *
    generalize (unpacked op).sign = sign at *
    generalize intPart (unpacked op) = ip at *
    obtain ⟨i, st, high⟩ := ip
    dsimp only at *
    obtain ⟨rfl, hp, hroom⟩ | ⟨rfl, rfl, N, rfl, hN64, hiN⟩ := hi
    · obtain ⟨hcarry, hval⟩ := hr hp hroom
      rw [← hval] at hn
      have hex : signed sign q = (((roundModeOf (roundCode s ins)).toInt (signed sign q) : ℤ) : K) ↔
          st = 0 := by
        rw [signed_eq_toInt_iff _ sign hp.lo hp.hi, ← hp.zero, ← BitVec.toNat_inj]
        rfl
      generalize roundInt (roundCode s ins) sign i st = ri at *
      obtain ⟨f, carry⟩ := ri
      dsimp only at *
      subst hcarry
      have hof := intMax_lt_iff sign l32 f
      rw [← hn] at hof
      refine intRounded_of ?_ rfl ?_
      · rw [hn]
        exact ofInt_magnitude sign (Nat.mod_eq_of_lt f.isLt).symm
      · simp only [Bool.false_or, decide_eq_true_eq, hof, hex]
        rfl
    · have hx := signed_natCast (K := K) sign N
      have hz : roundInt (roundCode s ins) sign i 0 = (i, false) := by
        rw [roundInt, if_neg]
        rintro (⟨-, h⟩ | ⟨-, -, h⟩ | ⟨-, -, h⟩) <;> exact h rfl
      have hout : Outside (intWidth l32) (if sign then -(N : ℤ) else N) := by
        unfold Outside
        cases sign <;> cases l32 <;> simp only [intWidth, Bool.false_eq_true, if_false, if_true] <;>
          omega
      rw [hz]
      simp only [hx, Bool.true_or, if_true]
      refine intRounded_of ?_ rfl ?_
      · rw [RoundMode.toInt_intCast]
        exact ofInt_magnitude sign hiN
      · rw [RoundMode.toInt_intCast, if_pos rfl, if_pos hout]
        rfl

/-! ## `vax_cvtfi` -/

theorem vaxMode_snap (ins : Ins) (sign : Bool) :
    (vaxMode ins).snap sign = if getFrnd ins = 0 then .trunc else .halfUp := by
  unfold vaxMode
  split <;> rfl

/-- Rounding with the round bit kept. -/
theorem roundBit_toNat (ins : Ins) (sign : Bool) {w : Word} {n : ℕ} (hlow : w.toNat + 1 < 2 ^ 64) :
    ((if getFrnd ins = 0 then w >>> n else w >>> n + 1) >>> 1).toNat =
      ((vaxMode ins).snap sign).toNat (n + 1) w.toNat := by
  have hle : w.toNat / 2 ^ n ≤ w.toNat := Nat.div_le_self _ _
  rw [vaxMode_snap, ushiftRight_toNat]
  split
  · rw [ushiftRight_toNat, Nat.div_div_eq_div_mul]
    rfl
  · have h1 : (w >>> n + 1).toNat = w.toNat / 2 ^ n + 1 := by
      have h2 : (w >>> n + 1).toNat = ((w >>> n).toNat + 1) % 2 ^ 64 := BitVec.toNat_add _ 1
      rw [ushiftRight_toNat] at h2
      generalize w.toNat / 2 ^ n = m at *
      omega
    have h3 : (w.toNat + 2 ^ n) / 2 ^ (n + 1) = (w.toNat / 2 ^ n + 1) / 2 := by
      rw [Nat.pow_succ, ← Nat.div_div_eq_div_mul, Nat.add_div_right _ (Nat.two_pow_pos n)]
    rw [h1, Snap.toNat, Nat.add_sub_cancel, h3, Nat.pow_one]

omit [LinearOrder K] [IsStrictOrderedRing K] [FloorRing K] in
/-- A power of two below one as a quotient. -/
theorem mul_zpow_neg (F : K) (n : ℕ) : F * 2 ^ (-(n : ℤ)) = F / 2 ^ n := by
  rw [zpow_neg, zpow_natCast, div_eq_mul_inv]

omit [LinearOrder K] [IsStrictOrderedRing K] [FloorRing K] in
/-- The one magnitude from 2 ^ 63 on that fits. -/
theorem fits_iff (sign : Bool) {F n : ℕ} {f : Word} (htop : 2 ^ 63 ≤ F) (hlt : F < 2 ^ 64)
    (hf : f.toNat = F * 2 ^ n % 2 ^ 64) :
    (sign && (64 + (n : ℤ) == 63 + 1) && f == 0x8000000000000000) = true ↔
      ¬Outside 63 (if sign then -((F * 2 ^ n : ℕ) : ℤ) else (F * 2 ^ n : ℕ)) := by
  have hf63 : f = 0x8000000000000000 ↔ f.toNat = 2 ^ 63 := by
    rw [← BitVec.toNat_inj]
    rfl
  rw [Bool.and_eq_true, Bool.and_eq_true, beq_iff_eq, beq_iff_eq, hf63, hf]
  unfold Outside
  obtain rfl | hn := Nat.eq_zero_or_pos n
  · rw [Nat.pow_zero, Nat.mul_one]
    cases sign
    · simp only [Bool.false_eq_true, false_and, if_false, false_iff]
      omega
    · simp only [true_and, if_true]
      omega
  · have h2 : 2 ^ 1 ≤ 2 ^ n := Nat.pow_le_pow_right (by decide) hn
    have h3 := Nat.mul_le_mul htop h2
    generalize F * 2 ^ n = N at *
    cases sign
    · simp only [Bool.false_eq_true, false_and, if_false, false_iff]
      omega
    · simp only [if_true]
      omega

omit [IsStrictOrderedRing K] in
/-- A conversion that leaves the overflow trap where it is enabled. -/
theorem vaxIntRounded_of {ins : Ins} {x : K} {s : FpState} {res : Word × FpState}
    (hval : res.1 = BitVec.ofInt 64 ((vaxMode ins).toInt x))
    (hstate : res.2 = if hasFtrp ins ftrpV = true ∧ Outside 63 ((vaxMode ins).toInt x) then
      vaxTrap s trapIov ins else s) : VaxIntRounded ins x s res := by
  refine ⟨hval, fun h13 hout => ?_, fun hq => ?_⟩
  · rw [hstate, if_pos ⟨(ftrpV_iff ins).2 h13, hout⟩]
    exact vaxTrap_raised s (k := 6) (by decide) ins
  · rw [hstate, if_neg fun hc => hq ⟨(ftrpV_iff ins).1 hc.1, hc.2⟩]

/-- A fraction of a word below one half comes to zero. -/
theorem snap_toNat_small (ins : Ins) (sign : Bool) (w : Word) {n : ℕ} (hn : 64 ≤ n) :
    ((vaxMode ins).snap sign).toNat (n + 1) w.toNat = 0 := by
  have hp : 2 ^ 64 ≤ 2 ^ n := Nat.pow_le_pow_right (by decide) hn
  have h2 : 2 ^ (n + 1) = 2 * 2 ^ n := by rw [Nat.pow_succ]; omega
  have hlt := w.isLt
  rw [vaxMode_snap, ← Nat.lt_one_iff]
  split
  · rw [Snap.toNat, Nat.div_lt_iff_lt_mul (Nat.two_pow_pos _)]
    omega
  · rw [Snap.toNat, Nat.add_sub_cancel, Nat.div_lt_iff_lt_mul (Nat.two_pow_pos _)]
    omega

/-- The low 64 bits of an integer whose fraction is shifted up, also by more than a word. -/
theorem shiftUp_toNat (w : Word) (n : ℕ) :
    (if 64 + (n : ℤ) > 63 + 64 then 0 else w <<< n).toNat = w.toNat * 2 ^ n % 2 ^ 64 := by
  split
  · have hd : 2 ^ 64 ∣ w.toNat * 2 ^ n := Dvd.dvd.mul_left (pow_dvd_pow 2 (by omega)) _
    exact (Nat.mod_eq_zero_of_dvd hd).symm
  · rw [BitVec.toNat_shiftLeft, Nat.shiftLeft_eq]

theorem vaxCvtfi_rounded {op : Word} (h : VaxNumber op) (s : FpState) (ins : Ins) :
    VaxIntRounded ins (vaxVal op : K) s (vaxCvtfi s op ins) := by
  have h0out : ¬Outside 63 0 := by decide
  unfold vaxCvtfi
  by_cases z : fprExp op = 0
  · simp only [vaxUnpack_zero h z, vaxVal_zero z]
    rw [if_pos (by decide)]
    refine vaxIntRounded_of ?_ ?_
    · rw [RoundMode.toInt_zero]
      rfl
    · rw [RoundMode.toInt_zero, if_neg (fun hc => h0out hc.2)]
  · have hfr := unpacked_frac op
    simp only [vaxUnpack_number z, unpacked_vaxVal z, Ufp.vaxVal]
    generalize unpacked op = a at *
    obtain ⟨sign, exp, frac⟩ := a
    dsimp only at *
    have htop := hfr.top
    have hlow := hfr.low
    have hlt := hfr.lt
    obtain ⟨u, rfl⟩ : ∃ u : ℤ, exp = u + 1024 := ⟨exp - 1024, by omega⟩
    have hb : u + 1024 - gBias = u := by rw [gBias]; omega
    -- the number rounded, by its fraction as a natural number
    have hn : ∀ n : ℕ, (vaxMode ins).toInt (signed sign ((frac.toNat : K) / 2 ^ (n + 1))) =
        if sign then -((((vaxMode ins).snap sign).toNat (n + 1) frac.toNat : ℕ) : ℤ)
        else (((vaxMode ins).snap sign).toNat (n + 1) frac.toNat : ℕ) := by
      intro n
      rw [(vaxMode ins).toInt_signed sign (by positivity), Snap.toInt_natCast (by omega)]
    rw [hb, show u + 1024 - 1088 = u - 64 by ring]
    by_cases hneg : u < 0
    · -- below one half
      obtain ⟨n, rfl⟩ : ∃ n : ℕ, u = 63 - n := ⟨(63 - u).toNat, by omega⟩
      have hz := snap_toNat_small ins sign frac (n := n) (by omega)
      have h0 : (vaxMode ins).toInt (signed sign ((frac.toNat : K) * 2 ^ (63 - (n : ℤ) - 64))) =
          0 := by
        rw [show 63 - (n : ℤ) - 64 = -((n + 1 : ℕ) : ℤ) by push_cast; ring, mul_zpow_neg, hn, hz]
        cases sign <;> rfl
      rw [if_pos hneg]
      refine vaxIntRounded_of ?_ ?_
      · rw [h0]
        rfl
      · rw [h0, if_neg (fun hc => h0out hc.2)]
    rw [if_neg hneg]
    by_cases hin : u ≤ 63
    · -- rounded from the fraction, with one bit more than is kept
      rw [if_pos hin]
      obtain ⟨n, rfl⟩ : ∃ n : ℕ, u = 63 - n := ⟨(63 - u).toNat, by omega⟩
      rw [show (63 - (63 - (n : ℤ))).toNat = n by omega,
        show 63 - (n : ℤ) - 64 = -((n + 1 : ℕ) : ℤ) by push_cast; ring, mul_zpow_neg]
      have hr := roundBit_toNat ins sign (w := frac) (n := n) (by omega)
      have hn := hn n
      rw [← hr] at hn
      generalize (if getFrnd ins = 0 then frac >>> n else frac >>> n + 1) >>> 1 = f at *
      have hof := intMax_lt_iff sign false f
      refine vaxIntRounded_of ?_ ?_
      · rw [hn]
        exact ofInt_magnitude sign (Nat.mod_eq_of_lt f.isLt).symm
      · rw [hn]
        have hof : ((if sign then 0x8000000000000000 else 0x7fffffffffffffff) < f) ↔
          Outside 63 (if sign then -(f.toNat : ℤ) else f.toNat) := hof
        dsimp only
        simp only [Bool.and_eq_true, decide_eq_true_eq, hof, and_comm]
    · -- an integer already: its low 64 bits, and whether the rest is the sign
      rw [if_neg hin]
      obtain ⟨n, rfl⟩ : ∃ n : ℕ, u = 64 + n := ⟨(u - 64).toNat, by omega⟩
      have hx : signed sign ((frac.toNat : K) * 2 ^ (64 + (n : ℤ) - 64)) =
          ((if sign then -((frac.toNat * 2 ^ n : ℕ) : ℤ) else (frac.toNat * 2 ^ n : ℕ) : ℤ) : K) := by
        rw [← signed_natCast, show 64 + (n : ℤ) - 64 = n by ring, zpow_natCast]
        push_cast
        rfl
      rw [hx, show (64 + (n : ℤ) - 63 - 1).toNat = n by omega]
      have hf := shiftUp_toNat frac n
      generalize (if 64 + (n : ℤ) > 63 + 64 then 0 else frac <<< n) = f at *
      refine vaxIntRounded_of ?_ ?_
      · rw [RoundMode.toInt_intCast]
        exact ofInt_magnitude sign hf
      · rw [RoundMode.toInt_intCast]
        have hof : (sign && (64 + (n : ℤ) == 63 + 1) && f == 0x8000000000000000) = true ↔
            ¬Outside 63 (if sign then -((frac.toNat * 2 ^ n : ℕ) : ℤ)
              else (frac.toNat * 2 ^ n : ℕ)) := fits_iff sign htop hlt hf
        generalize (if sign then -((frac.toNat * 2 ^ n : ℕ) : ℤ)
          else (frac.toNat * 2 ^ n : ℕ)) = m at *
        generalize (sign && (64 + (n : ℤ) == 63 + 1) && f == 0x8000000000000000) = fits at *
        have hof : fits = false ↔ Outside 63 m := by
          rw [← Bool.not_eq_true, hof, not_not]
        dsimp only
        simp only [Bool.and_eq_true, Bool.not_eq_true', hof, and_comm]

/-! ## From an integer -/

/-- The magnitude of a quadword. -/
def magnitude (val : Word) : Word := if val.msb then -val else val

omit [LinearOrder K] [IsStrictOrderedRing K] [FloorRing K] in
theorem signed_magnitude (val : Word) :
    signed val.msb ((magnitude val).toNat : K) = ((val.toInt : ℤ) : K) := by
  have hlt : val.toNat < 2 ^ 64 := val.isLt
  rw [signed_natCast, magnitude, BitVec.toInt_eq_msb_cond]
  cases hm : val.msb with
  | false => simp only [Bool.false_eq_true, if_false]
  | true =>
    have h63 : 2 ^ 63 ≤ val.toNat := by
      rw [BitVec.msb_eq_decide] at hm
      simpa using hm
    simp only [if_true, BitVec.toNat_neg]
    congr 1
    omega

theorem magnitude_ne_zero {val : Word} (h : val ≠ 0) : magnitude val ≠ 0 := by
  unfold magnitude
  split
  · exact fun hc => h (BitVec.neg_eq_zero_iff.1 hc)
  · exact h

omit [FloorRing K] in
/-- An integer normalised, in the exponent `e` of its last place plus `b`. -/
theorem norm_magnitude {val : Word} (h : val ≠ 0) (e : ℤ) :
    2 ^ 63 ≤ (ieeeNorm ⟨val.msb, e, magnitude val⟩).frac.toNat ∧
    ((val.toInt : ℤ) : K) = signed (ieeeNorm ⟨val.msb, e, magnitude val⟩).sign
      (((ieeeNorm ⟨val.msb, e, magnitude val⟩).frac.toNat : K) *
        2 ^ ((ieeeNorm ⟨val.msb, e, magnitude val⟩).exp - e)) := by
  obtain ⟨k, hk⟩ := ieeeNorm_spec (r := ⟨val.msb, e, magnitude val⟩) (magnitude_ne_zero h)
  refine ⟨hk.top, ?_⟩
  rw [hk.sign, hk.exp, hk.frac, show e - k - e = -(k : ℤ) by ring, mul_zpow_neg]
  push_cast
  rw [mul_div_cancel_right₀ _ (by positivity)]
  exact (signed_magnitude val).symm

theorem cvtif_rounded (val : Word) (s : FpState) (ins : Ins) (dp : IeeeDt) :
    Rounded dp (roundModeOf (roundCode s ins)) false ((val.toInt : ℤ) : K) s
      (ieeeCvtif s val ins dp) := by
  unfold ieeeCvtif
  by_cases h0 : val = 0
  · rw [if_pos h0, h0, show BitVec.toInt (0 : Word) = 0 from rfl, Int.cast_zero]
    exact rounded_zero
  · rw [if_neg h0]
    obtain ⟨htop, hval⟩ := norm_magnitude (K := K) h0 1086
    exact ieeeRpack_rounded ⟨htop, .refl _ _, hval⟩ s ins dp _

theorem vaxCvtif_rounded (val : Word) (s : FpState) (ins : Ins) (dp : VaxDt) :
    VaxRounded dp ins ((val.toInt : ℤ) : K) s (vaxCvtif s val ins dp) := by
  unfold vaxCvtif
  by_cases h0 : val = 0
  · rw [if_pos h0, h0, show BitVec.toInt (0 : Word) = 0 from rfl, Int.cast_zero]
    exact vaxRounded_zero dp ins s
  · rw [if_neg h0]
    obtain ⟨htop, hval⟩ := norm_magnitude (K := K) h0 1088
    have hN := vaxNorm_eq (r := ⟨val.msb, 1088, magnitude val⟩) (magnitude_ne_zero h0)
    rw [← hN] at htop hval
    exact vaxRpack_rounded ⟨htop, .refl _ _, hval⟩ s ins dp

/-! ## Back again -/

/-- An integer that fits the significand is a number of the format. -/
theorem fits_round {p : ℕ} {n : ℤ} (h : FitsBits p n) (r : RoundMode) :
    roundAt (Int.log 2 |(n : K)| - (p - 1)) r (n : K) = n := by
  obtain ⟨m, k, hm, rfl⟩ := h
  by_cases hm0 : m = 0
  · rw [hm0, zero_mul, Int.cast_zero]
    exact roundAt_exact (n := 0) r (by simp)
  · push_cast
    exact roundAt_log_exact hm hm0 r

/-- The exponent of a non-zero quadword. -/
theorem log_quadword {n : ℤ} (h0 : n ≠ 0) (h : |n| ≤ 2 ^ 63) :
    0 ≤ Int.log 2 |(n : K)| ∧ Int.log 2 |(n : K)| ≤ 63 := by
  have h1 : (1 : K) ≤ |(n : K)| := by exact_mod_cast Int.one_le_abs h0
  have h2 : |(n : K)| ≤ 2 ^ 63 := by exact_mod_cast h
  refine ⟨?_, ?_⟩
  · refine (Int.zpow_le_iff_le_log (by decide) (by linarith)).1 ?_
    rw [zpow_zero]
    exact h1
  · refine Int.lt_add_one_iff.1 ((Int.lt_zpow_iff_log_lt (by decide) (by linarith)).1 ?_)
    rw [Nat.cast_ofNat]
    calc |(n : K)| ≤ 2 ^ 63 := h2
      _ < 2 ^ (63 + 1 : ℤ) := by norm_num

theorem toInt_abs_le (val : Word) : |val.toInt| ≤ 2 ^ 63 := by
  have h1 := BitVec.toInt_lt (x := val)
  have h2 := BitVec.le_toInt val
  rw [abs_le]
  constructor <;> omega

theorem cvtif_exact {val : Word} {dp : IeeeDt} (h : FitsBits dp.format.prec val.toInt) (s : FpState)
    (ins : Ins) : ZeroOrNormal (ieeeCvtif s val ins dp).1 ∧
      (ieeeVal (ieeeCvtif s val ins dp).1 : K) = ((val.toInt : ℤ) : K) := by
  have hr := cvtif_rounded (K := K) val s ins dp
  generalize ieeeCvtif s val ins dp = res at *
  have habs := toInt_abs_le val
  generalize val.toInt = n at *
  by_cases h0 : n = 0
  · rw [h0, Int.cast_zero] at hr ⊢
    rw [hr.zero rfl]
    exact ⟨by decide, ieeeVal_zero (by decide)⟩
  · have hx : (n : K) ≠ 0 := by exact_mod_cast h0
    obtain ⟨hlo, -⟩ := log_quadword (K := K) h0 habs
    have hF : dp.format.round (roundModeOf (roundCode s ins)) (n : K) = n := by
      rw [Format.round, Format.ulpExp,
        max_eq_left (by cases dp <;> simp only [IeeeDt.format] <;> omega)]
      exact fits_round h _
    have h1 : (1 : K) ≤ |(n : K)| := by exact_mod_cast Int.one_le_abs h0
    have h2 : |(n : K)| ≤ 2 ^ 63 := by exact_mod_cast habs
    have hover : ¬Overflows dp.format (roundModeOf (roundCode s ins)) (n : K) := by
      rw [Overflows, hF, not_lt]
      have hp : (1 : K) ≤ 2 ^ dp.format.prec - 1 := by cases dp <;> norm_num [IeeeDt.format]
      calc |(n : K)| ≤ 2 ^ (63 : ℤ) := by exact_mod_cast h2
        _ ≤ 2 ^ (dp.format.emax - (dp.format.prec - 1)) :=
          zpow_le_zpow_right₀ (by norm_num) (by cases dp <;> decide)
        _ ≤ (2 ^ dp.format.prec - 1) * 2 ^ (dp.format.emax - (dp.format.prec - 1)) :=
          le_mul_of_one_le_left (by positivity) hp
    have hunder : ¬Underflows dp.format (roundModeOf (roundCode s ins)) (n : K) := by
      rw [Underflows, hF, not_and, not_lt]
      intro _
      exact le_trans (zpow_le_one_of_nonpos₀ (by norm_num) (by cases dp <;> decide)) h1
    obtain ⟨hN, hv⟩ := hr.normal hx hover hunder
    exact ⟨hN.zeroOrNormal, by rw [hv, hF]⟩

theorem vaxCvtif_exact {val : Word} {dp : VaxDt} (h : FitsBits dp.prec val.toInt) (s : FpState)
    (ins : Ins) : VaxNumber (vaxCvtif s val ins dp).1 ∧
      (vaxVal (vaxCvtif s val ins dp).1 : K) = ((val.toInt : ℤ) : K) := by
  have hr := vaxCvtif_rounded (K := K) val s ins dp
  generalize vaxCvtif s val ins dp = res at *
  have habs := toInt_abs_le val
  generalize val.toInt = n at *
  by_cases h0 : n = 0
  · rw [h0, Int.cast_zero] at hr ⊢
    rw [hr.zero rfl]
    exact ⟨fun _ => rfl, vaxVal_zero (w := 0) (by decide)⟩
  · have hx : (n : K) ≠ 0 := by exact_mod_cast h0
    obtain ⟨hlo, hhi⟩ := log_quadword (K := K) h0 habs
    have hF : vaxRound dp (vaxMode ins) (n : K) = n := fits_round h _
    obtain ⟨hne, hv, -⟩ := hr.normal hx
      (by rw [hF, vaxExponent]; cases dp <;> simp only [VaxDt.expmin] <;> omega)
      (by rw [hF, vaxExponent]; cases dp <;> simp only [VaxDt.expmax] <;> omega)
    exact ⟨fun hz => absurd hz hne, by rw [hv, hF]⟩

end

/-- Conversions to an integer round the exact value once, and an integer that fits a significand
comes back from either format as it was. -/
theorem integer_conversions_rounded (op : Word) (s : FpState) (ins : Ins) (l32 : Bool) :
    (ZeroOrNormal op → IntRounded (if l32 then 31 else 63) (roundModeOf (roundCode s ins)) ins
      (ieeeVal op : ℚ) s (ieeeCvtfiN s op ins l32)) ∧
    (VaxNumber op → VaxIntRounded ins (vaxVal op : ℚ) s (vaxCvtfi s op ins)) ∧
    (∀ (dp : IeeeDt) (s2 : FpState) (ins2 : Ins), FitsBits dp.format.prec op.toInt →
      (ieeeCvtfi s (ieeeCvtif s2 op ins2 dp).1 ins).1 = op) ∧
    (∀ (dp : VaxDt) (s2 : FpState) (ins2 : Ins), FitsBits dp.prec op.toInt →
      (vaxCvtfi s (vaxCvtif s2 op ins2 dp).1 ins).1 = op) := by
  refine ⟨fun h => cvtfi_rounded h s ins l32, fun h => vaxCvtfi_rounded h s ins,
    fun dp s2 ins2 h => ?_, fun dp s2 ins2 h => ?_⟩
  · obtain ⟨hz, hv⟩ := cvtif_exact (K := ℚ) h s2 ins2
    have hval := (cvtfi_rounded (K := ℚ) hz s ins false).value
    rw [hv, RoundMode.toInt_intCast, BitVec.ofInt_toInt] at hval
    exact hval
  · obtain ⟨hz, hv⟩ := vaxCvtif_exact (K := ℚ) h s2 ins2
    have hval := (vaxCvtfi_rounded (K := ℚ) hz s ins).value
    rw [hv, RoundMode.toInt_intCast, BitVec.ofInt_toInt] at hval
    exact hval

/-- Three, as an IEEE number, a G number and a quadword. -/
theorem integer_conversions_rounded_three :
    IntRounded 63 .near 0x1000 (ieeeVal three : ℚ) ⟨0, 0, false, false, false, 0, false⟩
      (ieeeCvtfiN ⟨0, 0, false, false, false, 0, false⟩ three 0x1000 false) ∧
    VaxIntRounded 0x1000 (vaxVal gThree : ℚ) ⟨0, 0, false, false, false, 0, false⟩
      (vaxCvtfi ⟨0, 0, false, false, false, 0, false⟩ gThree 0x1000) ∧
    (ieeeCvtfi ⟨0, 0, false, false, false, 0, false⟩
      (ieeeCvtif ⟨0, 0, false, false, false, 0, false⟩ 3 0 .s).1 0).1 = 3 ∧
    (vaxCvtfi ⟨0, 0, false, false, false, 0, false⟩
      (vaxCvtif ⟨0, 0, false, false, false, 0, false⟩ 3 0 .f).1 0).1 = 3 := by
  have hfit : FitsBits 24 (BitVec.toInt (3 : Word)) := ⟨3, 0, by decide, by decide⟩
  exact ⟨(integer_conversions_rounded three _ 0x1000 false).1 (by decide),
    (integer_conversions_rounded gThree _ 0x1000 false).2.1 (by decide),
    (integer_conversions_rounded 3 _ 0 false).2.2.1 .s _ 0 hfit,
    (integer_conversions_rounded 3 _ 0 false).2.2.2 .f _ 0 hfit⟩

end Alphabox.Fp
