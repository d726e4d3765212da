import Alphabox.Lib.Rounding
import Alphabox.Fp.Ieee

/-!
# Correctly rounded results

The number a register holds, the two IEEE formats, and what a correctly rounded operation leaves:
`Rounded dp r z x s res` says that `res` is the exact result `x` delivered in the format of `dp`
under mode `r`, from state `s`. The numbers are those of an ordered field: rational for the
arithmetic, real for the square root.
-/

namespace Alphabox.Fp

open Lib

/-- A register with a zero or a normal number. -/
def ZeroOrNormal (w : Word) : Prop := fprExp w ≠ 0x7ff ∧ (fprExp w = 0 → fprFrac w = 0)

/-- A register with a normal number. -/
def Normal (w : Word) : Prop := fprExp w ≠ 0x7ff ∧ fprExp w ≠ 0

instance (w : Word) : Decidable (ZeroOrNormal w) := inferInstanceAs (Decidable (_ ∧ _))

instance (w : Word) : Decidable (Normal w) := inferInstanceAs (Decidable (_ ∧ _))

/-! ## Arithmetic exceptions -/

/-- A bit of the exception summary after an exception of `ins`: what was there, its causes, and the
destination register from bit 8 on; on the native EV8 a cause at bit 7 is reported at bit 13, and
the three registers stand from bit 14 on. -/
def SummaryBit (s : FpState) (ins : Ins) (cause : Nat → Prop) (i : Nat) : Prop :=
  if s.ev8n then
    (i < 7 ∧ (s.excSum.getLsbD i = true ∨ cause i)) ∨
      (i = 13 ∧ (s.excSum.getLsbD 7 = true ∨ cause 7)) ∨
      (14 ≤ i ∧ i < 19 ∧ ins.getLsbD (i - 14) = true) ∨
      (19 ≤ i ∧ i < 29 ∧ ins.getLsbD (i - 3) = true)
  else
    s.excSum.getLsbD i = true ∨ cause i ∨ (8 ≤ i ∧ i < 13 ∧ ins.getLsbD (i - 8) = true)

/-- An arithmetic exception of `ins` takes `s` to `s'`: PALcode is entered at ARITH with the
summary, and nothing else changes. -/
structure Raised (s : FpState) (ins : Ins) (cause : Nat → Prop) (s' : FpState) : Prop where
  entered : s'.palArith = true
  summary : ∀ i, s'.excSum.getLsbD i = true ↔ SummaryBit s ins cause i
  frame : s' = { s with excSum := s'.excSum, palArith := s'.palArith }

/-! ## Formats -/

/-- The format a destination type stands for. -/
def IeeeDt.format : IeeeDt → Format
  | .s => ⟨24, -126, 127⟩
  | .t => ⟨53, -1022, 1023⟩

/-- The mode a rounding code stands for. -/
def roundModeOf (c : BitVec 2) : RoundMode :=
  if c = frndN then .near else if c = frndP then .plus else if c = frndM then .minus else .chop

section

variable {K : Type*} [Field K]

/-- The number a register with a zero or a normal number holds. -/
def ieeeVal (w : Word) : K :=
  if fprExp w = 0 then 0
  else signed (fprSign w) ((2 ^ 52 + (fprFrac w).toNat) * 2 ^ ((fprExp w : ℤ) - 1075))

variable [LinearOrder K] [IsStrictOrderedRing K] [FloorRing K]

/-- The result of rounding is above the largest number of the format. -/
def Overflows (F : Format) (r : RoundMode) (x : K) : Prop :=
  (2 ^ F.prec - 1) * 2 ^ (F.emax - (F.prec - 1)) < |F.round r x|

/-- The result of rounding a non-zero number is below the smallest normal number of the format. -/
def Underflows (F : Format) (r : RoundMode) (x : K) : Prop :=
  x ≠ 0 ∧ |F.round r x| < 2 ^ F.emin

/-- What an operation with the exact result `x` leaves, from state `s`; `zsign` is the sign of a
zero. A paired-single estimate (`noIne`) never sets INE. -/
structure Rounded (dp : IeeeDt) (r : RoundMode) (zsign : Bool) (x : K) (s : FpState)
    (res : Word × FpState) : Prop where
  zero : x = 0 → res.1 = zeroOf zsign
  inf : Overflows dp.format r x → r.snap (decide (x < 0)) ≠ .trunc →
    res.1 = infinity (decide (x < 0))
  max : Overflows dp.format r x → r.snap (decide (x < 0)) = .trunc →
    Normal res.1 ∧ ieeeVal res.1 = signed (decide (x < 0))
      ((2 ^ dp.format.prec - 1) * 2 ^ (dp.format.emax - (dp.format.prec - 1)) : K)
  flush : Underflows dp.format r x → res.1 = 0
  normal : x ≠ 0 → ¬Overflows dp.format r x → ¬Underflows dp.format r x →
    Normal res.1 ∧ ieeeVal res.1 = dp.format.round r x
  fpcr : ∀ i, res.2.fpcr.getLsbD i = true ↔ s.fpcr.getLsbD i = true ∨
    (i = 54 ∧ Overflows dp.format r x) ∨ (i = 55 ∧ Underflows dp.format r x) ∨
    (i = 56 ∧ s.noIne = false ∧ ¬(ZeroOrNormal res.1 ∧ ieeeVal res.1 = x))

end

/-! ## Integers -/

/-- An integer that two's complement of `w + 1` bits cannot hold. -/
def Outside (w : ℕ) (n : ℤ) : Prop := n < -2 ^ w ∨ 2 ^ w ≤ n

instance (w : ℕ) (n : ℤ) : Decidable (Outside w n) := inferInstanceAs (Decidable (_ ∨ _))

/-- An integer with a magnitude of `p` bits and zeros below them. -/
def FitsBits (p : ℕ) (n : ℤ) : Prop := ∃ (m : ℤ) (k : ℕ), |m| < 2 ^ p ∧ n = m * 2 ^ k

/-- The overflow of a conversion to an integer: with `/S` an invalid operation as well. -/
def reportOverflow (s : FpState) (ins : Ins) : FpState :=
  let s := ieeeTrap s trapIov (hasFtrp ins ftrpV) 0 ins
  if hasFtrp ins ftrpS then ieeeTrap s trapInv true fpcrInvd ins else s

section

variable {K : Type*} [Field K] [LinearOrder K] [FloorRing K]

/-- What a conversion of `x` to an integer of `w + 1` bits leaves, from state `s`. -/
structure IntRounded (w : ℕ) (r : RoundMode) (ins : Ins) (x : K) (s : FpState)
    (res : Word × FpState) : Prop where
  value : res.1 = BitVec.ofInt 64 (r.toInt x)
  state : ∃ s1, s1 = (if Outside w (r.toInt x) then reportOverflow s ins else s) ∧
    res.2 = if x = (r.toInt x : K) then s1 else ieeeTrap s1 trapIne (qSui ins) fpcrIned ins
  fpcr : ∀ i, res.2.fpcr.getLsbD i = true ↔ s.fpcr.getLsbD i = true ∨
    (i = 57 ∧ Outside w (r.toInt x)) ∨
    (i = 52 ∧ hasFtrp ins ftrpS = true ∧ Outside w (r.toInt x)) ∨
    (i = 56 ∧ s.noIne = false ∧ x ≠ (r.toInt x : K))

end

end Alphabox.Fp
