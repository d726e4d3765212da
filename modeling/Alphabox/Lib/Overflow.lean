import Alphabox.Lib.Numerals
import Mathlib.Data.BitVec
import Mathlib.Tactic.Ring
import Mathlib.Algebra.Order.Ring.Abs
import Mathlib.Tactic.Linarith
import Mathlib.Tactic.Positivity

/-!
# Overflow of two's complement arithmetic

The signs of the operands and of a sum or a difference tell whether it fits; the high word of a
signed product is the one of the unsigned product less each operand whose partner is negative, and
the product fits when its high word repeats the sign of its low word.
-/

namespace Lib

variable {w : Nat} {a b hi lo : BitVec w}

/-! ## Sums and differences -/

theorem ofInt_sub (x y : Int) : BitVec.ofInt w (x - y) = BitVec.ofInt w x - BitVec.ofInt w y := by
  rw [Int.sub_eq_add_neg, BitVec.ofInt_add, BitVec.ofInt_neg, BitVec.sub_eq_add_neg]

theorem setWidth_sub {v : Nat} (h : v ≤ w) :
    (a - b).setWidth v = a.setWidth v - b.setWidth v := by
  rw [eq_comm, BitVec.sub_eq_iff_eq_add, ← BitVec.setWidth_add _ _ h, BitVec.sub_add_cancel]

/-- A sum overflows when its operands have one sign and it has the other. -/
theorem add_sign_msb : ((~~~a ^^^ b) &&& (a ^^^ (a + b))).msb = a.saddOverflow b := by
  rw [BitVec.saddOverflow_eq, BitVec.msb_and, BitVec.msb_xor, BitVec.msb_xor, BitVec.msb_not]
  cases w with
  | zero => simp [BitVec.msb_zero_length]
  | succ w => cases a.msb <;> cases b.msb <;> simp

/-- A difference overflows when its operands have two signs and it has not the first one's. -/
theorem sub_sign_msb : ((a ^^^ b) &&& (a ^^^ (a - b))).msb = a.ssubOverflow b := by
  rw [BitVec.ssubOverflow_eq, BitVec.msb_and, BitVec.msb_xor, BitVec.msb_xor]
  cases a.msb <;> cases b.msb <;> simp

/-! ## Products -/

theorem toInt_eq_sub : a.toInt = (a.toNat : Int) - if a.msb then 2 ^ w else 0 := by
  rw [BitVec.toInt_eq_msb_cond]
  split <;> simp

/-- A product of two signed words and the words of the unsigned product. -/
theorem toInt_mul_eq (h : a.toNat * b.toNat = hi.toNat * 2 ^ w + lo.toNat) :
    a.toInt * b.toInt = (hi.toNat - (if a.msb then (b.toNat : Int) else 0) -
      (if b.msb then (a.toNat : Int) else 0) + if a.msb ∧ b.msb then 2 ^ w else 0) * 2 ^ w +
      lo.toNat := by
  have hz : (a.toNat : Int) * b.toNat = hi.toNat * 2 ^ w + lo.toNat := by exact_mod_cast h
  rw [toInt_eq_sub, toInt_eq_sub, sub_mul, mul_sub, mul_sub, hz]
  cases a.msb <;> cases b.msb <;> simp <;> ring

/-- The size of a signed product. -/
theorem toInt_mul_bounds (a b : BitVec w) : -(2 ^ (w - 1) * 2 ^ (w - 1)) ≤ a.toInt * b.toInt ∧
    a.toInt * b.toInt ≤ 2 ^ (w - 1) * 2 ^ (w - 1) := by
  have ha1 := BitVec.le_toInt a
  have ha2 := BitVec.toInt_lt (x := a)
  have hb1 := BitVec.le_toInt b
  have hb2 := BitVec.toInt_lt (x := b)
  rw [← abs_le, abs_mul]
  exact mul_le_mul (abs_le.2 ⟨ha1, ha2.le⟩) (abs_le.2 ⟨hb1, hb2.le⟩) (abs_nonneg _) (by positivity)

theorem ofInt_ite_sub (h c d : BitVec w) (p q : Prop) [Decidable p] [Decidable q] (e : Int)
    (he : e = if p ∧ q then 2 ^ w else 0) :
    h - (if p then c else 0) - (if q then d else 0) = BitVec.ofInt w
      (h.toNat - (if p then (c.toNat : Int) else 0) - (if q then (d.toNat : Int) else 0) + e) := by
  have hw : BitVec.ofInt w (2 ^ w) = 0 := by
    rw [show (2 : Int) ^ w = ((2 ^ w : Nat) : Int) by push_cast; rfl, BitVec.ofInt_natCast]
    exact BitVec.eq_of_toNat_eq ((Nat.mod_self _).trans BitVec.toNat_zero.symm)
  subst he
  simp only [BitVec.ofInt_add, ofInt_sub, apply_ite (BitVec.ofInt w), hw, BitVec.ofInt_natCast,
    BitVec.ofNat_toNat, BitVec.setWidth_eq]
  simp

/-- The high word of the signed product, as a two's complement number. -/
theorem toInt_mul_high (hw : 0 < w) (h : a.toNat * b.toNat = hi.toNat * 2 ^ w + lo.toNat) :
    a.toInt * b.toInt = (hi - (if a.msb then b else 0) - (if b.msb then a else 0)).toInt * 2 ^ w +
      lo.toNat := by
  have hX := toInt_mul_eq h
  obtain ⟨hmin, hmax⟩ := toInt_mul_bounds a b
  rw [ofInt_ite_sub _ _ _ _ _ _ rfl]
  generalize a.toInt * b.toInt = X at *
  generalize (hi.toNat - (if a.msb then (b.toNat : Int) else 0) -
      (if b.msb then (a.toNat : Int) else 0) + if a.msb ∧ b.msb then 2 ^ w else 0) = Y at *
  have hlo : (lo.toNat : Int) < 2 ^ w := by exact_mod_cast lo.isLt
  have hp : (2 : Int) ^ w = 2 * 2 ^ (w - 1) := by rw [← pow_succ', Nat.sub_add_cancel hw]
  have hpos : (0 : Int) < 2 ^ (w - 1) := by positivity
  rw [hp] at hlo hX ⊢
  rw [BitVec.toInt_ofInt_eq_self hw (by nlinarith) (by nlinarith), hX]

/-- A two's complement number of two words fits in the low one when the high one repeats its
sign. -/
theorem fits_iff (hw : 0 < w) : -2 ^ (w - 1) ≤ hi.toInt * 2 ^ w + lo.toNat ∧
    hi.toInt * 2 ^ w + lo.toNat < 2 ^ (w - 1) ↔ hi = if lo.msb then BitVec.allOnes w else 0 := by
  have hlo : (lo.toNat : Int) < 2 ^ w := by exact_mod_cast lo.isLt
  have hp : (2 : Int) ^ w = 2 * 2 ^ (w - 1) := by rw [← pow_succ', Nat.sub_add_cancel hw]
  have hpos : (0 : Int) < 2 ^ (w - 1) := by positivity
  have hmsb := BitVec.msb_eq_decide lo
  have hz : (2 ^ (w - 1) ≤ lo.toNat) ↔ (2 : Int) ^ (w - 1) ≤ lo.toNat := by
    exact_mod_cast Iff.rfl
  rw [← BitVec.toInt_inj]
  by_cases hm : lo.msb
  · rw [if_pos hm, BitVec.toInt_allOnes, if_pos hw]
    rw [hm, eq_comm, decide_eq_true_eq, hz] at hmsb
    rw [hp] at hlo ⊢
    constructor
    · intro h
      have h1 : -1 ≤ hi.toInt := by nlinarith
      have h2 : hi.toInt < 0 := by nlinarith
      omega
    · intro h
      rw [h]
      constructor <;> linarith
  · rw [if_neg hm]
    rw [Bool.not_eq_true] at hm
    rw [hm, eq_comm, decide_eq_false_iff_not, hz, not_le] at hmsb
    rw [hp] at hlo ⊢
    have h0 : (0 : BitVec w).toInt = 0 := by simp
    rw [h0]
    constructor
    · intro h
      have h1 : -1 < hi.toInt := by nlinarith
      have h2 : hi.toInt < 1 := by nlinarith
      omega
    · intro h
      rw [h]
      constructor <;> omega

end Lib
