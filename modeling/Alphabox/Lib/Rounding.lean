import Alphabox.Lib.Numerals
import Mathlib.Data.Int.Log
import Mathlib.Algebra.Order.Floor.Ring
import Mathlib.Algebra.Order.Field.Power
import Mathlib.Tactic.Ring
import Mathlib.Tactic.Linarith
import Mathlib.Tactic.FieldSimp
import Mathlib.Tactic.Positivity
import Mathlib.Tactic.Push

/-!
# Rounding to a binary grid

`RoundMode.toInt` rounds to an integer, `roundAt e` to the multiples of `2 ^ e`, and
`Format.round` to the numbers of a format with a significand of `prec` bits and gradual underflow
below `2 ^ emin`. `SameSide u f x` says that `f` and `x` compare alike with every multiple of `u`:
an approximation with a sticky bit is on the same side as the exact value, and rounding to the
multiples of `2 * u` cannot tell them apart (`Snap.toInt_congr`).
-/

namespace Lib

instance twoAtLeastTwo : Nat.AtLeastTwo 2 := ⟨Nat.le_refl 2⟩

/-- Rounding modes: toward zero, down, to nearest with ties to even, up, and to nearest with ties
away from zero. -/
inductive RoundMode
  | chop | minus | near | plus | half
  deriving DecidableEq, Repr

/-- What a mode does to a magnitude once the sign is known. -/
inductive Snap
  | trunc | away | halfUp | halfEven
  deriving DecidableEq, Repr

/-- The magnitude rounding of a mode for a number that is negative or not. -/
def RoundMode.snap : RoundMode → Bool → Snap
  | .chop, _ => .trunc
  | .minus, neg => if neg then .away else .trunc
  | .plus, neg => if neg then .trunc else .away
  | .near, _ => .halfEven
  | .half, _ => .halfUp

section Integer

variable {K : Type*} [Field K] [LinearOrder K] [FloorRing K]

/-- The nearest integer, the even one of two. -/
def roundEven (q : K) : ℤ :=
  if (⌊q + 1 / 2⌋ : K) = q + 1 / 2 then ⌊q + 1 / 2⌋ - ⌊q + 1 / 2⌋ % 2 else ⌊q + 1 / 2⌋

/-- Rounding to an integer. -/
def RoundMode.toInt (q : K) : RoundMode → ℤ
  | .chop => if 0 ≤ q then ⌊q⌋ else ⌈q⌉
  | .minus => ⌊q⌋
  | .plus => ⌈q⌉
  | .near => roundEven q
  | .half => if 0 ≤ q then ⌊q + 1 / 2⌋ else ⌈q - 1 / 2⌉

/-- Rounding of a magnitude. -/
def Snap.toInt (q : K) : Snap → ℤ
  | .trunc => ⌊q⌋
  | .away => ⌈q⌉
  | .halfUp => ⌊q + 1 / 2⌋
  | .halfEven => roundEven q

/-- Rounding to a multiple of `2 ^ e`. -/
def roundAt (e : ℤ) (r : RoundMode) (x : K) : K :=
  (r.toInt (x / 2 ^ e) : K) * 2 ^ e

end Integer

/-- A binary format: bits of the significand, exponent of the smallest normal number, exponent of
the binade of the largest. -/
structure Format where
  prec : ℕ
  emin : ℤ
  emax : ℤ

/-! ## Signs -/

section Sign

variable {K : Type*} [Field K]

/-- `-x` for a set sign. -/
def signed (neg : Bool) (x : K) : K := if neg then -x else x

@[simp] theorem signed_false (x : K) : signed false x = x := rfl

@[simp] theorem signed_true (x : K) : signed true x = -x := rfl

@[simp] theorem abs_signed [LinearOrder K] (neg : Bool) (x : K) : |signed neg x| = |x| := by
  cases neg <;> simp

theorem signed_mul (neg : Bool) (x y : K) : signed neg (x * y) = signed neg x * y := by
  cases neg <;> simp

theorem signed_mul_signed (p q : Bool) (x y : K) :
    signed p x * signed q y = signed (p ^^ q) (x * y) := by
  cases p <;> cases q <;> simp

theorem signed_div_signed (p q : Bool) (x y : K) :
    signed p x / signed q y = signed (p ^^ q) (x / y) := by
  have h : (signed q y)⁻¹ = signed q y⁻¹ := by cases q <;> simp
  rw [div_eq_mul_inv, h, signed_mul_signed, ← div_eq_mul_inv]

theorem signed_div (neg : Bool) (x d : K) : signed neg x / d = signed neg (x / d) := by
  cases neg <;> simp [neg_div]

@[simp] theorem signed_eq_zero {neg : Bool} {x : K} : signed neg x = 0 ↔ x = 0 := by
  cases neg <;> simp

@[simp] theorem signed_inj {neg : Bool} {x y : K} : signed neg x = signed neg y ↔ x = y := by
  cases neg <;> simp

theorem decide_signed_neg [LinearOrder K] [IsStrictOrderedRing K] {x : K} (neg : Bool)
    (hx : 0 < x) : decide (signed neg x < 0) = neg := by
  cases neg with
  | false =>
    rw [signed_false, decide_eq_false_iff_not, not_lt]
    exact hx.le
  | true =>
    rw [signed_true, decide_eq_true_eq]
    exact neg_lt_zero.2 hx

end Sign

section

variable {K : Type*} [Field K] [LinearOrder K] [IsStrictOrderedRing K] [FloorRing K]

/-- The exponent of the last place of a number in a format. -/
def Format.ulpExp (F : Format) (x : K) : ℤ :=
  max (Int.log 2 |x|) F.emin - (F.prec - 1)

/-- The number of the format `x` rounds to, its exponent not bounded above. -/
def Format.round (F : Format) (r : RoundMode) (x : K) : K :=
  roundAt (F.ulpExp x) r x

/-! ## Rounding to an integer -/

theorem roundEven_neg (q : K) : roundEven (-q) = -roundEven q := by
  unfold roundEven
  by_cases h : (⌊q + 1 / 2⌋ : K) = q + 1 / 2
  · have hq : -q + 1 / 2 = ((1 - ⌊q + 1 / 2⌋ : ℤ) : K) := by push_cast; linarith
    have hfl : ⌊-q + 1 / 2⌋ = 1 - ⌊q + 1 / 2⌋ := by rw [hq, Int.floor_intCast]
    rw [if_pos h, if_pos (by rw [hfl, hq]), hfl]
    omega
  · have hlo := Int.floor_le (q + 1 / 2)
    have hhi := Int.lt_floor_add_one (q + 1 / 2)
    have hlt : (⌊q + 1 / 2⌋ : K) < q + 1 / 2 := lt_of_le_of_ne hlo h
    have hfl : ⌊-q + 1 / 2⌋ = -⌊q + 1 / 2⌋ := by
      rw [Int.floor_eq_iff]
      push_cast
      constructor <;> linarith
    rw [if_neg h, if_neg, hfl]
    rw [hfl]
    push_cast
    intro h2
    linarith

/-- A mode rounds a signed number by rounding its magnitude. -/
theorem RoundMode.toInt_signed (r : RoundMode) (neg : Bool) {q : K} (hq : 0 ≤ q) :
    r.toInt (signed neg q) = if neg then -(r.snap neg).toInt q else (r.snap neg).toInt q := by
  cases neg with
  | false => cases r <;> simp [toInt, snap, Snap.toInt, hq]
  | true =>
    have hneg : 0 ≤ -q ↔ q = 0 := ⟨fun h => by linarith, fun h => by simp [h]⟩
    cases r with
    | near => simp [toInt, snap, Snap.toInt, roundEven_neg]
    | minus => simp [toInt, snap, Snap.toInt, Int.floor_neg]
    | plus => simp [toInt, snap, Snap.toInt, Int.ceil_neg]
    | chop =>
      simp only [toInt, snap, Snap.toInt, signed_true, hneg, if_true]
      by_cases h : q = 0
      · simp [h]
      · rw [if_neg h, Int.ceil_neg]
    | half =>
      simp only [toInt, snap, Snap.toInt, signed_true, hneg, if_true]
      by_cases h : q = 0
      · have h0 : ⌊(1 / 2 : K)⌋ = 0 := Int.floor_eq_iff.2 (by norm_num)
        simp only [h, neg_zero, zero_add, if_true, h0]
      · rw [if_neg h, show -q - 1 / 2 = -(q + 1 / 2) by ring, Int.ceil_neg]

theorem RoundMode.toInt_zero (r : RoundMode) : r.toInt (0 : K) = 0 := by
  have hfl : ⌊(1 / 2 : K)⌋ = 0 := Int.floor_eq_iff.2 (by norm_num)
  cases r with
  | near =>
    rw [toInt, roundEven, zero_add, hfl]
    simp
  | half =>
    rw [toInt, if_pos le_rfl, zero_add, hfl]
  | _ => simp [toInt]

theorem roundEven_intCast (n : ℤ) : roundEven (n : K) = n := by
  have hfl : ⌊(n : K) + 1 / 2⌋ = n := by
    rw [Int.floor_eq_iff]
    constructor <;> linarith
  rw [roundEven, hfl, if_neg]
  intro h
  linarith

/-- An integer rounds to itself. -/
theorem RoundMode.toInt_intCast (r : RoundMode) (n : ℤ) : r.toInt (n : K) = n := by
  have hfl : ⌊(n : K) + 1 / 2⌋ = n := by
    rw [Int.floor_eq_iff]
    constructor <;> linarith
  have hcl : ⌈(n : K) - 1 / 2⌉ = n := by
    rw [Int.ceil_eq_iff]
    constructor <;> linarith
  cases r with
  | near => exact roundEven_intCast n
  | half => simp only [toInt, hfl, hcl, ite_self]
  | _ => simp [toInt]

/-- A multiple of the last place rounds to itself. -/
theorem roundAt_exact {e : ℤ} {n : ℤ} {x : K} (r : RoundMode) (h : x = n * 2 ^ e) :
    roundAt e r x = x := by
  have hq : x / 2 ^ e = n := by rw [h, mul_div_cancel_right₀ _ (by positivity)]
  rw [roundAt, hq, r.toInt_intCast, ← h]

/-- A number whose digits fit between its exponent and the last place rounds to itself. -/
theorem roundAt_log_exact {p : ℕ} {m : ℤ} {k : ℕ} (hm : |m| < 2 ^ p) (hm0 : m ≠ 0)
    (r : RoundMode) : roundAt (Int.log 2 |(m : K) * 2 ^ k| - (p - 1)) r ((m : K) * 2 ^ k) =
      m * 2 ^ k := by
  have hpos : (0 : K) < |(m : K)| * 2 ^ (k : ℤ) := by positivity
  have hlog : Int.log 2 |(m : K) * 2 ^ k| - (p - 1) ≤ k := by
    have hlt : |(m : K)| * 2 ^ (k : ℤ) < ((2 : ℕ) : K) ^ ((p : ℤ) + k) := by
      rw [Nat.cast_ofNat, zpow_add₀ two_ne_zero, zpow_natCast 2 p]
      refine mul_lt_mul_of_pos_right ?_ (by positivity)
      exact_mod_cast hm
    have := (Int.lt_zpow_iff_log_lt (by decide) hpos).1 hlt
    rw [abs_mul, abs_of_pos (show (0 : K) < 2 ^ k by positivity), ← zpow_natCast]
    omega
  obtain ⟨c, hc⟩ := Int.eq_ofNat_of_zero_le (sub_nonneg.2 hlog)
  refine roundAt_exact (n := m * 2 ^ c) r ?_
  generalize Int.log 2 |(m : K) * 2 ^ k| - (p - 1) = e at *
  have hk : (2 : K) ^ k = 2 ^ c * 2 ^ e := by
    rw [← zpow_natCast, ← zpow_natCast, ← zpow_add₀ two_ne_zero]
    congr 1
    omega
  push_cast
  rw [hk, mul_assoc]

theorem Format.round_zero (F : Format) (r : RoundMode) : F.round r (0 : K) = 0 := by
  rw [Format.round, roundAt, zero_div, RoundMode.toInt_zero, Int.cast_zero, zero_mul]

end

/-! ## Comparing alike with a grid -/

section Side

variable {K : Type*} [Field K] [LinearOrder K] {u f x y : K}

/-- `f` and `x` are at least the same multiples of `u`. -/
def SameFloor (u f x : K) : Prop := ∀ m : ℤ, (m : K) * u ≤ f ↔ (m : K) * u ≤ x

/-- `f` and `x` compare alike with every multiple of `u`. -/
structure SameSide (u f x : K) : Prop where
  floor : SameFloor u f x
  ceil : SameFloor u (-f) (-x)

theorem SameFloor.refl (u f : K) : SameFloor u f f := fun _ => Iff.rfl

theorem SameFloor.trans (h : SameFloor u f x) (h2 : SameFloor u x y) : SameFloor u f y :=
  fun m => (h m).trans (h2 m)

/-- A coarser grid is easier. -/
theorem SameFloor.coarsen (h : SameFloor u f x) (n : ℕ) : SameFloor (n * u) f x := by
  intro m
  have hm := h (m * n)
  push_cast at hm
  rwa [mul_assoc] at hm

theorem SameFloor.pow_le_iff {k n : ℕ} (h : SameFloor (2 ^ k) f x) (hk : k ≤ n) :
    2 ^ n ≤ f ↔ 2 ^ n ≤ x := by
  have hm := h ((2 ^ (n - k) : ℕ) : ℤ)
  push_cast at hm
  rwa [← pow_add, Nat.sub_add_cancel hk] at hm

theorem SameFloor.coarsen_pow {k n : ℕ} (h : SameFloor (2 ^ k) f x) (hk : k ≤ n) :
    SameFloor (2 ^ n) f x := by
  have hc := h.coarsen (2 ^ (n - k))
  push_cast at hc
  rwa [← pow_add, Nat.sub_add_cancel hk] at hc

theorem SameSide.refl (u f : K) : SameSide u f f := ⟨.refl _ _, .refl _ _⟩

theorem SameSide.trans (h : SameSide u f x) (h2 : SameSide u x y) : SameSide u f y :=
  ⟨h.floor.trans h2.floor, h.ceil.trans h2.ceil⟩

theorem SameSide.coarsen (h : SameSide u f x) (n : ℕ) : SameSide (n * u) f x :=
  ⟨h.floor.coarsen n, h.ceil.coarsen n⟩

theorem SameSide.coarsen_pow {k n : ℕ} (h : SameSide (2 ^ k) f x) (hk : k ≤ n) :
    SameSide (2 ^ n) f x :=
  ⟨h.floor.coarsen_pow hk, h.ceil.coarsen_pow hk⟩

theorem SameSide.neg (h : SameSide u f x) : SameSide u (-f) (-x) := by
  refine ⟨h.ceil, ?_⟩
  rw [neg_neg, neg_neg]
  exact h.floor

variable [IsStrictOrderedRing K]

theorem SameFloor.scale (h : SameFloor u f x) {c : K} (hc : 0 < c) :
    SameFloor (u * c) (f * c) (x * c) := by
  intro m
  rw [← mul_assoc, mul_le_mul_iff_left₀ hc, mul_le_mul_iff_left₀ hc]
  exact h m

theorem SameFloor.shift (h : SameFloor u f x) (n : ℤ) : SameFloor u (f + n * u) (x + n * u) := by
  intro m
  have hm := h (m - n)
  push_cast at hm
  rw [sub_mul, sub_le_iff_le_add, sub_le_iff_le_add] at hm
  exact hm

theorem SameSide.scale (h : SameSide u f x) {c : K} (hc : 0 < c) :
    SameSide (u * c) (f * c) (x * c) := by
  refine ⟨h.floor.scale hc, ?_⟩
  rw [← neg_mul, ← neg_mul]
  exact h.ceil.scale hc

theorem SameFloor.div_pow {k n : ℕ} (h : SameFloor (2 ^ (k + n)) f x) :
    SameFloor (2 ^ k) (f / 2 ^ n) (x / 2 ^ n) := by
  have hs := h.scale (c := (2 ^ n)⁻¹) (by positivity)
  rwa [pow_add, mul_assoc, mul_inv_cancel₀ (by positivity), mul_one, ← div_eq_mul_inv,
    ← div_eq_mul_inv] at hs

theorem SameSide.mul_pow {k : ℕ} (h : SameSide (2 ^ k) f x) (n : ℕ) :
    SameSide (2 ^ (k + n)) (f * 2 ^ n) (x * 2 ^ n) := by
  rw [pow_add]
  exact h.scale (by positivity)

theorem SameSide.div_pow {k n : ℕ} (h : SameSide (2 ^ (k + n)) f x) :
    SameSide (2 ^ k) (f / 2 ^ n) (x / 2 ^ n) := by
  refine ⟨h.floor.div_pow, ?_⟩
  rw [← neg_div, ← neg_div]
  exact h.ceil.div_pow

theorem SameSide.shift (h : SameSide u f x) (n : ℤ) : SameSide u (f + n * u) (x + n * u) := by
  refine ⟨h.floor.shift n, ?_⟩
  have hc := h.ceil.shift (-n)
  push_cast at hc
  rw [neg_mul, ← neg_add, ← neg_add] at hc
  exact hc

theorem SameSide.le_iff (h : SameSide u f x) (m : ℤ) : f ≤ m * u ↔ x ≤ m * u := by
  have hm := h.ceil (-m)
  push_cast at hm
  rwa [neg_mul, neg_le_neg_iff, neg_le_neg_iff] at hm

theorem SameSide.eq_iff (h : SameSide u f x) (m : ℤ) : f = m * u ↔ x = m * u := by
  rw [le_antisymm_iff, le_antisymm_iff, h.le_iff, h.floor m]

/-- Two numbers strictly inside the same cell of the grid. -/
theorem sameSide_cell {c : ℤ} (hu : 0 < u) (hf : c * u < f ∧ f < (c + 1) * u)
    (hx : c * u < x ∧ x < (c + 1) * u) : SameSide u f x := by
  have lo : ∀ z : K, c * u < z ∧ z < (c + 1) * u → ∀ m : ℤ, (m : K) * u ≤ z ↔ m ≤ c := by
    intro z hz m
    constructor
    · intro h
      have hlt : (m : K) < c + 1 := lt_of_mul_lt_mul_right (lt_of_le_of_lt h hz.2) hu.le
      have : m < c + 1 := by exact_mod_cast hlt
      omega
    · intro h
      have hle : (m : K) ≤ c := by exact_mod_cast h
      exact le_trans (mul_le_mul_of_nonneg_right hle hu.le) hz.1.le
  have hi : ∀ z : K, c * u < z ∧ z < (c + 1) * u → ∀ m : ℤ, (m : K) * u ≤ -z ↔ m ≤ -(c + 1) := by
    intro z hz m
    rw [le_neg, ← neg_mul]
    constructor
    · intro h
      have hlt : (c : K) < -m := lt_of_mul_lt_mul_right (lt_of_lt_of_le hz.1 h) hu.le
      have : c < -m := by exact_mod_cast hlt
      omega
    · intro h
      have hle : (c : K) + 1 ≤ -m := by exact_mod_cast (show c + 1 ≤ -m by omega)
      exact le_trans hz.2.le (mul_le_mul_of_nonneg_right hle hu.le)
  exact ⟨fun m => (lo f hf m).trans (lo x hx m).symm, fun m => (hi f hf m).trans (hi x hx m).symm⟩

variable [FloorRing K]

omit [IsStrictOrderedRing K] in
theorem floor_congr {p q : K} (h : ∀ m : ℤ, (m : K) ≤ p ↔ (m : K) ≤ q) : ⌊p⌋ = ⌊q⌋ :=
  le_antisymm (Int.le_floor.2 ((h _).1 (Int.floor_le p)))
    (Int.le_floor.2 ((h _).2 (Int.floor_le q)))

theorem SameFloor.floor_eq (hu : 0 < u) (h : SameFloor u f x) : ⌊f / (2 * u)⌋ = ⌊x / (2 * u)⌋ := by
  refine floor_congr fun m => ?_
  have hm := h (m * 2)
  push_cast at hm
  rwa [mul_assoc, ← le_div_iff₀ (by positivity), ← le_div_iff₀ (by positivity)] at hm

theorem SameFloor.floor_half_eq (hu : 0 < u) (h : SameFloor u f x) :
    ⌊f / (2 * u) + 1 / 2⌋ = ⌊x / (2 * u) + 1 / 2⌋ := by
  refine floor_congr fun m => ?_
  have hm := h (m * 2 - 1)
  have e : ∀ z : K, (m : K) ≤ z / (2 * u) + 1 / 2 ↔ ((m : K) * 2 - 1) * u ≤ z := by
    intro z
    rw [← sub_le_iff_le_add, le_div_iff₀ (by positivity)]
    constructor <;> intro h <;> linarith
  push_cast at hm
  rw [e, e, hm]

theorem SameSide.ceil_eq (hu : 0 < u) (h : SameSide u f x) : ⌈f / (2 * u)⌉ = ⌈x / (2 * u)⌉ := by
  have hc := h.ceil.floor_eq hu
  rw [neg_div, neg_div, Int.floor_neg, Int.floor_neg] at hc
  omega

theorem SameSide.roundEven_eq (hu : 0 < u) (h : SameSide u f x) :
    roundEven (f / (2 * u)) = roundEven (x / (2 * u)) := by
  unfold roundEven
  rw [h.floor.floor_half_eq hu]
  generalize ⌊x / (2 * u) + 1 / 2⌋ = n
  have hm := h.eq_iff (n * 2 - 1)
  have e : ∀ z : K, (n : K) = z / (2 * u) + 1 / 2 ↔ z = ((n : K) * 2 - 1) * u := by
    intro z
    rw [eq_comm, ← eq_sub_iff_add_eq, div_eq_iff (by positivity)]
    constructor <;> intro h <;> linarith
  push_cast at hm
  simp only [e, hm]

/-- Rounding to the double grid does not tell two numbers on the same side apart. -/
theorem Snap.toInt_congr (hu : 0 < u) (h : SameSide u f x) (m : Snap) :
    m.toInt (f / (2 * u)) = m.toInt (x / (2 * u)) := by
  cases m with
  | trunc => exact h.floor.floor_eq hu
  | away => exact h.ceil_eq hu
  | halfUp => exact h.floor.floor_half_eq hu
  | halfEven => exact h.roundEven_eq hu

end Side

/-! ## Rounding on naturals -/

/-- Rounding of `f / 2 ^ g` on naturals. -/
def Snap.toNat (g f : ℕ) : Snap → ℕ
  | .trunc => f / 2 ^ g
  | .away => (f + (2 ^ g - 1)) / 2 ^ g
  | .halfUp => (f + 2 ^ (g - 1)) / 2 ^ g
  | .halfEven =>
    if f % 2 ^ g = 2 ^ (g - 1) then
      (f + 2 ^ (g - 1)) / 2 ^ g - (f + 2 ^ (g - 1)) / 2 ^ g % 2
    else (f + 2 ^ (g - 1)) / 2 ^ g

/-- Rounding on naturals is exact when the bits below the last place are zero. -/
theorem Snap.toNat_exact (m : Snap) {g f : ℕ} (hg : 1 ≤ g) :
    f = m.toNat g f * 2 ^ g ↔ f % 2 ^ g = 0 := by
  have hpos : 0 < 2 ^ g := Nat.two_pow_pos g
  have hhalf : 0 < 2 ^ (g - 1) ∧ 2 ^ (g - 1) < 2 ^ g :=
    ⟨Nat.two_pow_pos _, Nat.pow_lt_pow_right (by decide) (by omega)⟩
  refine ⟨fun h => by rw [h]; exact Nat.mul_mod_left _ _, fun h => ?_⟩
  obtain ⟨q, rfl⟩ : ∃ q, f = q * 2 ^ g := ⟨f / 2 ^ g, (Nat.div_mul_cancel (Nat.dvd_of_mod_eq_zero h)).symm⟩
  have hq : ∀ a < 2 ^ g, (q * 2 ^ g + a) / 2 ^ g = q := by
    intro a ha
    rw [Nat.add_comm, Nat.add_mul_div_right _ _ hpos, Nat.div_eq_of_lt ha, Nat.zero_add]
  congr 1
  cases m with
  | trunc => exact (Nat.mul_div_cancel _ hpos).symm
  | away => exact (hq _ (by omega)).symm
  | halfUp => exact (hq _ hhalf.2).symm
  | halfEven =>
    rw [toNat, if_neg (by omega)]
    exact (hq _ hhalf.2).symm

/-- A right shift that keeps what it loses in the last bit. -/
def shiftJam (f n : ℕ) : ℕ :=
  if f % 2 ^ n = 0 then f / 2 ^ n else f / 2 ^ n ||| 1

theorem shiftJam_lt {f n m : ℕ} (hf : f < 2 ^ (m + n)) (hm : 1 ≤ m) : shiftJam f n < 2 ^ m := by
  have hq : f / 2 ^ n < 2 ^ m := by
    rw [Nat.div_lt_iff_lt_mul (Nat.two_pow_pos n), ← Nat.pow_add]
    exact hf
  unfold shiftJam
  split
  · exact hq
  · exact Nat.or_lt_two_pow hq (Nat.one_lt_two_pow (by omega))

theorem or_one (n : ℕ) : n ||| 1 = n + (1 - n % 2) := by
  have h := Nat.or_mod_two_eq_one (a := n) (b := 1)
  have hd : (n ||| 1) / 2 = n / 2 := by simp [Nat.or_div_two]
  omega

/-- A shift that loses nothing is exact. -/
theorem shiftJam_exact {K : Type*} [Field K] [CharZero K] {f n : ℕ} (h : f % 2 ^ n = 0) :
    (shiftJam f n : K) = (f : K) / 2 ^ n := by
  have hf : f / 2 ^ n * 2 ^ n = f := Nat.div_mul_cancel (Nat.dvd_of_mod_eq_zero h)
  rw [shiftJam, if_pos h, eq_div_iff (pow_ne_zero n two_ne_zero)]
  exact_mod_cast hf

/-- A remainder of one half is a tie. -/
theorem tie_iff {f h : ℕ} (hh : 0 < h) :
    (f + h) / (2 * h) * (2 * h) = f + h ↔ f % (2 * h) = h := by
  have hd := Nat.div_add_mod' (f + h) (2 * h)
  have hm : (f + h) % (2 * h) = (f % (2 * h) + h) % (2 * h) := by rw [Nat.mod_add_mod]
  have hlt : f % (2 * h) < 2 * h := Nat.mod_lt _ (by omega)
  rw [hm] at hd
  generalize f % (2 * h) = b at *
  by_cases hb : b < h
  · rw [Nat.mod_eq_of_lt (show b + h < 2 * h by omega)] at hd
    omega
  · have hs : (b + h) % (2 * h) = b - h := by
      rw [Nat.mod_eq_sub_mod (by omega), Nat.mod_eq_of_lt (by omega)]
      omega
    rw [hs] at hd
    omega

/-! ## Rounding by a word of lost bits -/

section Parts

variable {K : Type*} [Field K] [LinearOrder K]

/-- `q` has the integer part `i`, and the word `st` tells what is lost of it: whether anything is,
and on which side of one half, kept as `h`. -/
structure Parts (h : ℕ) (q : K) (i st : ℕ) : Prop where
  lo : (i : K) ≤ q
  hi : q < i + 1
  zero : st = 0 ↔ q = i
  half : h ≤ st ↔ (i : K) + 1 / 2 ≤ q
  tie : st = h ↔ q = i + 1 / 2

variable [IsStrictOrderedRing K] {h i st : ℕ} {q : K}

/-- The lost bits in place. -/
theorem Parts.of_eq (hh : 0 < h) (hst : st < 2 * h) (hq : q = i + (st : K) / (2 * h)) :
    Parts h q i st := by
  have hpos : (0 : K) < 2 * h := by
    have : (0 : K) < h := by exact_mod_cast hh
    positivity
  have hlt : (st : K) < 2 * h := by exact_mod_cast hst
  have hhalf : (1 / 2 : K) = h / (2 * h) := by
    field_simp
  refine ⟨?_, ?_, ?_, ?_, ?_⟩
  · rw [hq, le_add_iff_nonneg_right]
    positivity
  · rw [hq, add_lt_add_iff_left, div_lt_one hpos]
    exact hlt
  · rw [hq, add_eq_left, div_eq_zero_iff, Nat.cast_eq_zero]
    exact ⟨.inl, fun h => h.resolve_right hpos.ne'⟩
  · rw [hq, add_le_add_iff_left, hhalf, div_le_div_iff_of_pos_right hpos, Nat.cast_le]
  · rw [hq, add_right_inj, hhalf, div_left_inj' hpos.ne', Nat.cast_inj]

variable [FloorRing K]

omit [IsStrictOrderedRing K] in
theorem Parts.floor (p : Parts h q i st) : ⌊q⌋ = i := by
  rw [Int.floor_eq_iff, Int.cast_natCast]
  exact ⟨p.lo, p.hi⟩

theorem Parts.ceil (p : Parts h q i st) : ⌈q⌉ = if st = 0 then (i : ℤ) else i + 1 := by
  have hlo := p.lo
  have hhi := p.hi
  rw [Int.ceil_eq_iff]
  split
  · rename_i h0
    rw [p.zero.1 h0, Int.cast_natCast]
    constructor <;> linarith
  · rename_i h0
    have hlt : (i : K) < q := lt_of_le_of_ne hlo (Ne.symm (p.zero.not.1 h0))
    push_cast
    constructor <;> linarith

theorem Parts.even (p : Parts h q i st) : roundEven q =
    if st = h then (i : ℤ) + 1 - (i + 1) % 2 else if h ≤ st then i + 1 else i := by
  have hlo := p.lo
  have hhi := p.hi
  have hfl : ⌊q + 1 / 2⌋ = if h ≤ st then (i : ℤ) + 1 else i := by
    rw [Int.floor_eq_iff]
    split
    · rename_i hs
      have := p.half.1 hs
      push_cast
      constructor <;> linarith
    · rename_i hs
      have := not_le.1 (p.half.not.1 hs)
      push_cast
      constructor <;> linarith
  have htie : ((⌊q + 1 / 2⌋ : ℤ) : K) = q + 1 / 2 ↔ st = h := by
    rw [p.tie, hfl]
    split
    · push_cast
      constructor <;> intro h <;> linarith
    · rename_i hs
      have := not_le.1 (p.half.not.1 hs)
      push_cast
      constructor <;> intro h <;> linarith
  rw [roundEven, hfl]
  rw [hfl] at htie
  by_cases hs : st = h
  · rw [if_pos (htie.2 hs), if_pos hs, if_pos hs.ge]
  · rw [if_neg (htie.not.2 hs), if_neg hs]

end Parts

section Nat

variable {K : Type*} [Field K] [LinearOrder K] [IsStrictOrderedRing K]

/-- A multiple `q` of `2 ^ j` with a sticky bit for what is left of `x` above it. -/
theorem sticky_sameSide {q j : ℕ} (st : ℕ) {x : K} (hq : q % 2 ^ j = 0) (hlo : (q : K) ≤ x)
    (hhi : x < q + 2 ^ j) (hst : st = if x = (q : K) then 0 else 1) :
    SameSide (2 ^ max j 1) ((q ||| st : ℕ) : K) x := by
  by_cases hx : x = q
  · rw [hst, if_pos hx, hx, Nat.or_zero]
    exact SameSide.refl _ _
  have hlt : (q : K) < x := lt_of_le_of_ne hlo (Ne.symm hx)
  rw [hst, if_neg hx, or_one]
  obtain rfl | hj := Nat.eq_zero_or_pos j
  · -- the cell of two around an odd number
    rw [pow_zero] at hhi
    have h1 : ((q / 2 * 2 : ℕ) : K) ≤ q := by exact_mod_cast (by omega)
    have h2 : (q : K) + 1 ≤ ((q / 2 * 2 + 2 : ℕ) : K) := by exact_mod_cast (by omega)
    have h3 : ((q + (1 - q % 2) : ℕ) : K) = ((q / 2 * 2 + 1 : ℕ) : K) := by
      exact_mod_cast (by omega)
    push_cast at h1 h2
    rw [h3, max_eq_right (by omega), pow_one]
    generalize q / 2 = c at *
    refine sameSide_cell (c := (c : ℤ)) (by positivity) ?_ ?_ <;> push_cast <;> constructor <;>
      linarith
  · have hu : 2 ≤ 2 ^ j := Nat.pow_le_pow_right (show 0 < 2 by decide) hj
    have hqc : q / 2 ^ j * 2 ^ j = q := Nat.div_mul_cancel (Nat.dvd_of_mod_eq_zero hq)
    have heven : q % 2 = 0 := by
      have hd : 2 ∣ 2 ^ j := dvd_pow_self 2 (by omega)
      exact Nat.mod_eq_zero_of_dvd (hd.trans (Nat.dvd_of_mod_eq_zero hq))
    have hc : ((q / 2 ^ j : ℕ) : K) * 2 ^ j = q := by exact_mod_cast hqc
    have hu2 : (2 : K) ≤ 2 ^ j := by exact_mod_cast hu
    rw [max_eq_left (by omega), show q + (1 - q % 2) = q + 1 by omega]
    refine sameSide_cell (c := ((q / 2 ^ j : ℕ) : ℤ)) (by positivity) ?_ ?_ <;>
      rw [Int.cast_natCast, add_mul, hc] <;> push_cast <;> constructor <;> linarith

/-- A multiple `q` of `2 ^ j` for a number above it, without a sticky bit. -/
theorem sameFloor_multiple {q j : ℕ} {x : K} (hq : q % 2 ^ j = 0) (hlo : (q : K) ≤ x)
    (hhi : x < q + 2 ^ j) : SameFloor (2 ^ j) (q : K) x := by
  have hpos : (0 : K) < 2 ^ j := by positivity
  have hqc : q / 2 ^ j * 2 ^ j = q := Nat.div_mul_cancel (Nat.dvd_of_mod_eq_zero hq)
  have hc : (((q / 2 ^ j : ℕ) : ℤ) : K) * 2 ^ j = q := by exact_mod_cast hqc
  generalize ((q / 2 ^ j : ℕ) : ℤ) = c at hc
  refine fun m => ⟨fun h => le_trans h hlo, fun h => ?_⟩
  rw [← hc] at hhi ⊢
  rw [← add_one_mul] at hhi
  have hlt : (m : K) < c + 1 := lt_of_mul_lt_mul_right (lt_of_le_of_lt h hhi) hpos.le
  have hm : m < c + 1 := by exact_mod_cast hlt
  have hmK : (m : K) ≤ c := by exact_mod_cast Int.lt_add_one_iff.1 hm
  exact mul_le_mul_of_nonneg_right hmK hpos.le

theorem shiftJam_sameSide (f n : ℕ) : SameSide 2 (shiftJam f n : K) ((f : K) / 2 ^ n) := by
  have hpos : (0 : K) < 2 ^ n := by positivity
  have hfd := Nat.div_add_mod' f (2 ^ n)
  have hlt : f % 2 ^ n < 2 ^ n := Nat.mod_lt _ (Nat.two_pow_pos n)
  have hlo : ((f / 2 ^ n : ℕ) : K) ≤ f / 2 ^ n := by
    rw [le_div_iff₀ hpos]
    exact_mod_cast Nat.div_mul_le_self f (2 ^ n)
  have hhi : (f : K) / 2 ^ n < ((f / 2 ^ n : ℕ) : K) + 2 ^ 0 := by
    rw [div_lt_iff₀ hpos, pow_zero, add_mul, one_mul]
    exact_mod_cast (show f < f / 2 ^ n * 2 ^ n + 2 ^ n by omega)
  have hex : (f : K) / 2 ^ n = ((f / 2 ^ n : ℕ) : K) ↔ f % 2 ^ n = 0 := by
    rw [div_eq_iff hpos.ne']
    have : (f : K) = ((f / 2 ^ n : ℕ) : K) * 2 ^ n ↔ f = f / 2 ^ n * 2 ^ n := by
      exact_mod_cast Iff.rfl
    rw [this]
    omega
  have hs := sticky_sameSide (if f % 2 ^ n = 0 then 0 else 1) (Nat.mod_one _) hlo hhi
    (by simp only [hex])
  have hj : shiftJam f n = f / 2 ^ n ||| (if f % 2 ^ n = 0 then 0 else 1) := by
    unfold shiftJam
    split <;> simp
  rw [hj]
  simpa using hs

theorem shiftJam_sameSide_pow (f n : ℕ) {k : ℕ} (hk : 1 ≤ k) :
    SameSide (2 ^ k) (shiftJam f n : K) ((f : K) / 2 ^ n) := by
  have h : SameSide ((2 : K) ^ 1) (shiftJam f n) (f / 2 ^ n) := by
    rw [pow_one]
    exact shiftJam_sameSide f n
  exact h.coarsen_pow hk

variable [FloorRing K]

theorem floor_natCast_div (n d : ℕ) (hd : 0 < d) : ⌊(n : K) / d⌋ = ((n / d : ℕ) : ℤ) := by
  rw [Int.floor_eq_iff]
  have hpos : (0 : K) < d := by exact_mod_cast hd
  have h1 : n / d * d ≤ n := Nat.div_mul_le_self n d
  have h2 : n < (n / d + 1) * d := by
    rw [Nat.add_mul, Nat.one_mul]
    exact Nat.lt_div_mul_add hd
  constructor
  · rw [le_div_iff₀ hpos]
    exact_mod_cast h1
  · rw [div_lt_iff₀ hpos]
    exact_mod_cast h2

theorem ceil_natCast_div (n d : ℕ) (hd : 0 < d) :
    ⌈(n : K) / d⌉ = (((n + (d - 1)) / d : ℕ) : ℤ) := by
  rw [Int.ceil_eq_iff]
  have hpos : (0 : K) < d := by exact_mod_cast hd
  have h1 : (n + (d - 1)) / d * d ≤ n + (d - 1) := Nat.div_mul_le_self _ d
  have h2 : n + (d - 1) < (n + (d - 1)) / d * d + d := Nat.lt_div_mul_add hd
  constructor
  · rw [lt_div_iff₀ hpos, sub_mul, one_mul, sub_lt_iff_lt_add]
    have : (n + (d - 1)) / d * d < n + d := by omega
    exact_mod_cast this
  · rw [div_le_iff₀ hpos]
    have : n ≤ (n + (d - 1)) / d * d := by omega
    exact_mod_cast this

theorem half_natCast_div {n h : ℕ} (hh : 0 < h) :
    (n : K) / (2 * h : ℕ) + 1 / 2 = ((n + h : ℕ) : K) / (2 * h : ℕ) := by
  have hpos : (0 : K) < h := by exact_mod_cast hh
  push_cast
  field_simp

theorem floor_half_natCast_div {n h : ℕ} (hh : 0 < h) :
    ⌊(n : K) / (2 * h : ℕ) + 1 / 2⌋ = (((n + h) / (2 * h) : ℕ) : ℤ) := by
  rw [half_natCast_div hh, floor_natCast_div _ _ (by omega)]

/-- Rounding a quotient by a power of two is rounding on naturals. -/
theorem Snap.toInt_natCast {g : ℕ} (hg : 1 ≤ g) (f : ℕ) (m : Snap) :
    m.toInt ((f : K) / 2 ^ g) = (m.toNat g f : ℤ) := by
  obtain ⟨k, rfl⟩ : ∃ k, g = k + 1 := ⟨g - 1, by omega⟩
  have hpos : 0 < 2 ^ k := Nat.two_pow_pos k
  have h2 : (2 : ℕ) ^ (k + 1) = 2 * 2 ^ k := by rw [Nat.pow_succ]; omega
  have hK : (2 : K) ^ (k + 1) = ((2 * 2 ^ k : ℕ) : K) := by rw [← h2]; push_cast; rfl
  have hhalf := floor_half_natCast_div (K := K) (n := f) hpos
  rw [hK]
  cases m with
  | trunc =>
    simp only [toInt, toNat, h2]
    exact floor_natCast_div _ _ (by omega)
  | away =>
    simp only [toInt, toNat, h2]
    exact ceil_natCast_div _ _ (by omega)
  | halfUp =>
    simp only [toInt, toNat, h2, Nat.add_sub_cancel]
    exact hhalf
  | halfEven =>
    simp only [toInt, toNat, h2, Nat.add_sub_cancel, roundEven]
    rw [hhalf]
    -- a tie is a remainder of one half
    have htie : ((((f + 2 ^ k) / (2 * 2 ^ k) : ℕ) : ℤ) : K) = (f : K) / (2 * 2 ^ k : ℕ) + 1 / 2 ↔
        f % (2 * 2 ^ k) = 2 ^ k := by
      rw [half_natCast_div hpos, eq_div_iff (by positivity), Int.cast_natCast, ← tie_iff hpos]
      exact_mod_cast Iff.rfl
    simp only [htie]
    split
    · have hle := Nat.mod_le ((f + 2 ^ k) / (2 * 2 ^ k)) 2
      rw [Nat.cast_sub hle, Int.natCast_mod, Nat.cast_ofNat]
    · rfl

/-! ## Rounding scaled numbers -/

/-- A number rounds as the natural that stands for it does. -/
theorem roundAt_signed {X : K} {f g : ℕ} {neg : Bool} {r : RoundMode} (hg : 1 ≤ g) (hX : 0 ≤ X)
    (h : (r.snap neg).toInt ((f : K) / 2 ^ g) = (r.snap neg).toInt (X / 2 ^ g)) (E : ℤ) :
    roundAt (E + g) r (signed neg (X * 2 ^ E)) =
      signed neg (((r.snap neg).toNat g f : K) * 2 ^ (E + g)) := by
  have hE : X * 2 ^ E / 2 ^ (E + g) = X / (2 : K) ^ g := by
    rw [zpow_add₀ two_ne_zero, zpow_natCast]
    field_simp
  unfold roundAt
  rw [signed_div, hE, r.toInt_signed neg (by positivity), ← h, Snap.toInt_natCast hg]
  cases neg <;> simp

theorem roundAt_sameSide {X : K} {f g : ℕ} (neg : Bool) (r : RoundMode) (hg : 1 ≤ g) (hX : 0 ≤ X)
    (h : SameSide (2 ^ (g - 1)) (f : K) X) (E : ℤ) :
    roundAt (E + g) r (signed neg (X * 2 ^ E)) =
      signed neg (((r.snap neg).toNat g f : K) * 2 ^ (E + g)) := by
  have h2 : (2 : K) ^ g = 2 * 2 ^ (g - 1) := by
    rw [← pow_succ', Nat.sub_add_cancel hg]
  refine roundAt_signed hg hX ?_ E
  rw [h2]
  exact Snap.toInt_congr (by positivity) h _

/-- Chopping and rounding half away from zero need the floor only. -/
theorem roundAt_sameFloor {X : K} {f g : ℕ} (neg : Bool) {r : RoundMode}
    (hr : r = .chop ∨ r = .half) (hg : 1 ≤ g) (hX : 0 ≤ X)
    (h : SameFloor (2 ^ (g - 1)) (f : K) X) (E : ℤ) :
    roundAt (E + g) r (signed neg (X * 2 ^ E)) =
      signed neg (((r.snap neg).toNat g f : K) * 2 ^ (E + g)) := by
  have h2 : (2 : K) ^ g = 2 * 2 ^ (g - 1) := by
    rw [← pow_succ', Nat.sub_add_cancel hg]
  refine roundAt_signed hg hX ?_ E
  rw [h2]
  obtain rfl | rfl := hr
  · exact h.floor_eq (by positivity)
  · exact h.floor_half_eq (by positivity)

/-- The exponent of a normalised number. -/
theorem log_scaled {X : K} {n : ℕ} (h1 : 2 ^ n ≤ X) (h2 : X < 2 ^ (n + 1)) (E : ℤ) :
    Int.log 2 (X * 2 ^ E) = n + E := by
  have hpos : 0 < X * (2 : K) ^ E := by
    have : (0 : K) < 2 ^ n := by positivity
    have : 0 < X := lt_of_lt_of_le this h1
    positivity
  have e1 : ((2 : ℕ) : K) ^ (n + E : ℤ) ≤ X * 2 ^ E := by
    rw [Nat.cast_ofNat, zpow_add₀ two_ne_zero, zpow_natCast]
    exact mul_le_mul_of_nonneg_right h1 (by positivity)
  have e2 : X * 2 ^ E < ((2 : ℕ) : K) ^ (n + E + 1 : ℤ) := by
    rw [Nat.cast_ofNat, show (n : ℤ) + E + 1 = (n + 1 : ℕ) + E by push_cast; ring,
      zpow_add₀ two_ne_zero, zpow_natCast]
    exact mul_lt_mul_of_pos_right h2 (by positivity)
  have l1 := (Int.zpow_le_iff_le_log (by norm_num) hpos).1 e1
  have l2 := (Int.lt_zpow_iff_log_lt (by norm_num) hpos).1 e2
  omega

end Nat

end Lib
