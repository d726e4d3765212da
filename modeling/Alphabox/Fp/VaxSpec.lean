import Alphabox.Fp.Spec
import Alphabox.Fp.Vax

/-!
# Correctly rounded VAX results

`VaxRounded dp ins x s res` says that `res` is the exact result `x` delivered in the format of `dp`
from state `s`: chopped or rounded half away from zero to the significand, as the instruction says,
with the exponent checked after the rounding.
-/

namespace Alphabox.Fp

open Lib

/-- A register with a true zero or a number with a non-zero exponent field. -/
def VaxNumber (w : Word) : Prop := fprExp w = 0 → w = 0

instance (w : Word) : Decidable (VaxNumber w) := inferInstanceAs (Decidable (_ → _))

/-- Bits of the significand. -/
def VaxDt.prec : VaxDt → ℕ
  | .f => 24
  | .g => 53

/-- The causes of an exception: its own bit of the summary, and with `/S` software completion. -/
def VaxCause (ins : Ins) (bit i : ℕ) : Prop := i = bit ∨ (i = 0 ∧ ins.getLsbD 15 = true)

/-- The rounding of an instruction. -/
def vaxMode (ins : Ins) : RoundMode := if getFrnd ins = 0 then .chop else .half

section

variable {K : Type*} [Field K]

/-- The number a register holds. -/
def vaxVal (w : Word) : K :=
  if fprExp w = 0 then 0
  else signed (fprSign w) ((2 ^ 52 + (fprFrac w).toNat) * 2 ^ ((fprExp w : ℤ) - 1077))

variable [LinearOrder K] [FloorRing K]

/-- The number rounded to the significand of a format. -/
def vaxRound (dp : VaxDt) (r : RoundMode) (x : K) : K :=
  roundAt (Int.log 2 |x| - (dp.prec - 1)) r x

/-- The exponent of a number, in the bias of the G format: its fraction is at least one half. -/
def vaxExponent (y : K) : ℤ := Int.log 2 |y| + 1025

/-- What an operation with the exact result `x` leaves, from state `s`. Overflow is bit 3 of the
summary; underflow, bit 4, is enabled by bit 13 of the instruction. -/
structure VaxRounded (dp : VaxDt) (ins : Ins) (x : K) (s : FpState) (res : Word × FpState) :
    Prop where
  zero : x = 0 → res = (0, s)
  overflow : x ≠ 0 → dp.expmax < vaxExponent (vaxRound dp (vaxMode ins) x) →
    fprExp res.1 ≠ 0 ∧ Raised s ins (VaxCause ins 3) res.2 ∧
    vaxVal res.1 = signed (decide (x < 0)) ((2 ^ dp.prec - 1 : K) * 2 ^ (dp.expmax - 1024 - dp.prec))
  under : x ≠ 0 → vaxExponent (vaxRound dp (vaxMode ins) x) ≤ dp.expmin →
    res.1 = 0 ∧ (ins.getLsbD 13 = true → Raised s ins (VaxCause ins 4) res.2) ∧
      (ins.getLsbD 13 = false → res.2 = s)
  normal : x ≠ 0 → dp.expmin < vaxExponent (vaxRound dp (vaxMode ins) x) →
    vaxExponent (vaxRound dp (vaxMode ins) x) ≤ dp.expmax →
    fprExp res.1 ≠ 0 ∧ vaxVal res.1 = vaxRound dp (vaxMode ins) x ∧ res.2 = s
  low : dp = .f → res.1 &&& 0x1fffffff = 0

/-- What a conversion of `x` to an integer leaves, from state `s`. Integer overflow is bit 6 of the
summary and is enabled by bit 13 of the instruction. -/
structure VaxIntRounded (ins : Ins) (x : K) (s : FpState) (res : Word × FpState) : Prop where
  value : res.1 = BitVec.ofInt 64 ((vaxMode ins).toInt x)
  overflow : ins.getLsbD 13 = true → Outside 63 ((vaxMode ins).toInt x) →
    Raised s ins (VaxCause ins 6) res.2
  quiet : ¬(ins.getLsbD 13 = true ∧ Outside 63 ((vaxMode ins).toInt x)) → res.2 = s

end

end Alphabox.Fp
