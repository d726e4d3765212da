import Alphabox.Fp.VaxSpec
import Alphabox.Lib.Bits

/-!
# Arithmetic traps are the exceptions they stand for

`arithTrap` sets the summary that `Raised` says, bit by bit; a trap of the VAX routines has its own
cause and, with `/S`, software completion.
-/

namespace Alphabox.Fp

variable {s s' : FpState} {ins : Ins} {cause cause' : Nat → Prop}

theorem Raised.congr (h : Raised s ins cause s') (hc : ∀ i, cause i ↔ cause' i) :
    Raised s ins cause' s' := by
  rwa [← funext fun i => propext (hc i)]

/-! ## Registers in the summary -/

/-- The register number in the field of `ins` from bit `k` on, placed at bit `n`. -/
theorem register_bit (ins : Ins) (k i : Nat) {n : Nat} (hn : n < 59) :
    (((ins >>> k &&& 31).setWidth 64 : Word) <<< n).getLsbD i = true ↔
      n ≤ i ∧ i < n + 5 ∧ ins.getLsbD (k + (i - n)) = true := by
  have hlow : (ins >>> k &&& 31).getLsbD (i - n) = true ↔
      i - n < 5 ∧ ins.getLsbD (k + (i - n)) = true := by
    rw [← BitVec.getLsbD_ushiftRight]
    exact Lib.lowMask_bit 5 (i - n)
  rw [BitVec.getLsbD_shiftLeft, BitVec.getLsbD_setWidth]
  simp only [Bool.and_eq_true, decide_eq_true_eq, Bool.not_eq_true', decide_eq_false_iff_not, hlow]
  constructor
  · rintro ⟨⟨-, hle⟩, -, h5, hb⟩
    exact ⟨by omega, by omega, hb⟩
  · rintro ⟨hle, h5, hb⟩
    exact ⟨⟨by omega, by omega⟩, by omega, by omega, hb⟩

theorem ev8RegsOf_bit (ins : Ins) (i : Nat) : (ev8RegsOf ins).getLsbD i = true ↔
    (14 ≤ i ∧ i < 19 ∧ ins.getLsbD (i - 14) = true) ∨
      (19 ≤ i ∧ i < 29 ∧ ins.getLsbD (i - 3) = true) := by
  have hc := register_bit ins 0 i (n := 14) (by decide)
  rw [BitVec.ushiftRight_zero, Nat.zero_add] at hc
  have hb := register_bit ins 16 i (n := 19) (by decide)
  have ha := register_bit ins 21 i (n := 24) (by decide)
  unfold ev8RegsOf
  simp only [BitVec.getLsbD_or, Bool.or_eq_true, ha, hb, hc]
  constructor
  · rintro ((⟨h, h5, hb⟩ | ⟨h, h5, hb⟩) | ⟨h, h5, hb⟩)
    · exact .inr ⟨by omega, h5, by rwa [show i - 3 = 21 + (i - 24) by omega]⟩
    · exact .inr ⟨h, by omega, by rwa [show i - 3 = 16 + (i - 19) by omega]⟩
    · exact .inl ⟨h, h5, hb⟩
  · rintro (⟨h, h19, hb⟩ | ⟨h, h29, hb⟩)
    · exact .inr ⟨h, h19, hb⟩
    · by_cases h24 : 24 ≤ i
      · exact .inl (.inl ⟨h24, h29, by rwa [show 21 + (i - 24) = i - 3 by omega]⟩)
      · exact .inl (.inr ⟨h, by omega, by rwa [show 16 + (i - 19) = i - 3 by omega]⟩)

/-! ## The traps -/

theorem arithTrap_raised (s : FpState) (flags : Word) (ins : Ins) :
    Raised s ins (fun i => flags.getLsbD i = true) (arithTrap s flags ins) := by
  refine ⟨rfl, fun i => ?_, rfl⟩
  have hreg (i : Nat) : (((ins &&& 0x1f).setWidth 64 : Word) <<< 8).getLsbD i = true ↔
      8 ≤ i ∧ i < 13 ∧ ins.getLsbD (i - 8) = true := by
    have h := register_bit ins 0 i (n := 8) (by decide)
    rwa [BitVec.ushiftRight_zero, Nat.zero_add] at h
  unfold SummaryBit arithTrap
  cases s.ev8n with
  | false =>
    simp only [Bool.false_eq_true, if_false, BitVec.getLsbD_or, Bool.or_eq_true, hreg, or_assoc]
  | true =>
    simp only [if_true, BitVec.getLsbD_or, Bool.or_eq_true, bne_iff_ne]
    have hlow (x : Word) : (x &&& ((0x7f : Nat) : Word)).getLsbD i = true ↔
        i < 7 ∧ x.getLsbD i = true := Lib.lowMask_bit 7 i
    have hint (x : Word) : ((if x &&& trapInt ≠ 0 then 1 <<< 13 else 0 : Nat) : Word).getLsbD i =
        true ↔ i = 13 ∧ x.getLsbD 7 = true := by
      have h7 : x &&& trapInt ≠ 0 ↔ x.getLsbD 7 = true :=
        Lib.and_twoPow_ne_zero (i := 7) (by decide)
      by_cases hx : x &&& trapInt ≠ 0
      · rw [if_pos hx]
        exact (Lib.twoPow_bit (by decide)).trans (and_iff_left (h7.1 hx)).symm
      · rw [if_neg hx]
        exact iff_of_false (by simp) fun h => hx (h7.2 h.2)
    rw [hlow, hint, ev8RegsOf_bit]
    simp only [BitVec.getLsbD_or, Bool.or_eq_true, hreg, or_assoc]
    -- below bit 7 and at bit 7 no register stands in the summary yet
    by_cases h7 : i < 7
    · simp [h7, show ¬8 ≤ i by omega, show i ≠ 13 by omega, show ¬14 ≤ i by omega,
        show ¬19 ≤ i by omega]
    · simp [h7]

theorem hasFtrp_iff (ins : Ins) {i : Nat} (hi : i < 32) :
    hasFtrp ins (BitVec.twoPow 32 i) = true ↔ ins.getLsbD i = true := by
  rw [hasFtrp, bne_iff_ne, Lib.and_twoPow_ne_zero hi]

theorem ftrpV_iff (ins : Ins) : hasFtrp ins ftrpV = true ↔ ins.getLsbD 13 = true :=
  hasFtrp_iff ins (i := 13) (by decide)

theorem vaxTrap_raised (s : FpState) {k : Nat} (hk : k < 64) (ins : Ins) :
    Raised s ins (VaxCause ins k) (vaxTrap s (BitVec.twoPow 64 k) ins) := by
  refine (arithTrap_raised s _ ins).congr fun i => ?_
  have hs : hasFtrp ins ftrpS = true ↔ ins.getLsbD 15 = true :=
    hasFtrp_iff ins (i := 15) (by decide)
  rw [BitVec.getLsbD_or, Bool.or_eq_true, Lib.twoPow_bit hk, VaxCause, ← hs]
  refine or_congr_right ?_
  by_cases hc : hasFtrp ins ftrpS = true
  · rw [if_pos hc, and_iff_left hc]
    exact Lib.twoPow_bit (j := 0) (by decide)
  · rw [if_neg hc]
    exact iff_of_false (by simp) fun h => hc h.2

/-- A trap that the instruction has to enable. -/
theorem vaxTrap_enabled (s : FpState) {k : Nat} (hk : k < 64) (ins : Ins) :
    (ins.getLsbD 13 = true → Raised s ins (VaxCause ins k)
      (if hasFtrp ins ftrpV then vaxTrap s (BitVec.twoPow 64 k) ins else s)) ∧
    (ins.getLsbD 13 = false →
      (if hasFtrp ins ftrpV then vaxTrap s (BitVec.twoPow 64 k) ins else s) = s) := by
  refine ⟨fun h => ?_, fun h => if_neg fun hc => ?_⟩
  · rw [if_pos ((ftrpV_iff ins).2 h)]
    exact vaxTrap_raised s hk ins
  · rw [(ftrpV_iff ins).1 hc] at h
    cases h

end Alphabox.Fp
