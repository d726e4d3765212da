import Alphabox.Lib.Numerals
import Mathlib.Data.BitVec

/-!
# Unpacked floating point numbers and arithmetic traps (`cpu/cpu_defs.hpp`)

What the IEEE and the VAX routines share: the register format, the unpacked number with its
fraction in the top bits of a quadword, normalisation, the 128-bit product, the shift-subtract
quotient and the arithmetic trap. The sign is a `Bool` and the exponent an integer; its 32 bits
are never exhausted, as an exponent field has 11.
-/

namespace Alphabox.Fp

/-- A register. -/
abbrev Word := BitVec 64

/-- An instruction. -/
abbrev Ins := BitVec 32

/-! ## Register format -/

/-- `FPR_GETSIGN`. -/
def fprSign (x : Word) : Bool := x.msb

/-- `FPR_GETEXP`. -/
def fprExp (x : Word) : Nat := ((x >>> 52) &&& 0x7ff).toNat

/-- `FPR_FRAC`. -/
def fracMask : Word := 0x000fffffffffffff

/-- `FPR_GETFRAC`. -/
def fprFrac (x : Word) : Word := x &&& fracMask

/-- `FPR_HB`, the hidden bit. -/
def hiddenBit : Word := 0x0010000000000000

/-- `sign << FPR_V_SIGN`. -/
def signBit (sign : Bool) : Word := if sign then 0x8000000000000000 else 0

/-- An unpacked number, `UFP`. -/
structure Ufp where
  sign : Bool
  exp : Int
  frac : Word
  deriving DecidableEq

/-- `UF_NM`, the top bit of a normalised fraction. -/
def ufNm : Word := 0x8000000000000000

/-- The fields of a register put together. -/
def packFpr (sign : Bool) (exp : Int) (frac : Word) : Word :=
  signBit sign ||| BitVec.ofInt 64 exp <<< 52 ||| (frac >>> 11 &&& fracMask)

/-! ## Fields of an instruction -/

/-- `I_GETFRND`. -/
def getFrnd (ins : Ins) : BitVec 2 := ins.extractLsb' 11 2

/-- `I_FRND_C`, chopped. -/
def frndC : BitVec 2 := 0

/-- `I_FRND_M`, to minus infinity. -/
def frndM : BitVec 2 := 1

/-- `I_FRND_N`, to nearest. -/
def frndN : BitVec 2 := 2

/-- `I_FRND_D`, dynamic. -/
def frndD : BitVec 2 := 3

/-- `I_FRND_P`, in the FPCR to plus infinity. -/
def frndP : BitVec 2 := 3

/-- The trap qualifiers' field, `I_FTRP`. -/
def ftrp : Ins := 0xe000

/-- `I_FTRP_V` and `I_FTRP_U`. -/
def ftrpV : Ins := 0x2000

/-- `I_FTRP_S`. -/
def ftrpS : Ins := 0x8000

/-- `Q_SUI`: the instruction traps on an inexact result. -/
def qSui (ins : Ins) : Bool := ins &&& ftrp == 0xe000

/-- `ins & q` as a condition. -/
def hasFtrp (ins q : Ins) : Bool := ins &&& q != 0

/-! ## Traps -/

def trapSwc : Word := 0x01
def trapInv : Word := 0x02
def trapDze : Word := 0x04
def trapOvf : Word := 0x08
def trapUnf : Word := 0x10
def trapIne : Word := 0x20
def trapIov : Word := 0x40
def trapInt : Word := 0x80

/-- The processor state the floating point routines read and write: the FPCR, the exception
summary, whether PALcode has been entered at ARITH, and the modes of the 21464's instructions
(`m_fp_no_ine` during a paired estimate, `m_vec_defer` and `m_vec_trap` during a vector
instruction, `m_ev8n` on the native EV8). -/
structure FpState where
  fpcr : Word
  excSum : Word
  palArith : Bool
  noIne : Bool
  vecDefer : Bool
  vecTrap : Word
  ev8n : Bool
  deriving DecidableEq

/-- `FPCR_GETFRND`. -/
def fpcrFrnd (fpcr : Word) : BitVec 2 := fpcr.extractLsb' 58 2

/-- The rounding mode of an instruction: its own, or the FPCR's. -/
def roundCode (s : FpState) (ins : Ins) : BitVec 2 :=
  if getFrnd ins = frndD then fpcrFrnd s.fpcr else getFrnd ins

/-- `ev8_regs_of`. -/
def ev8RegsOf (ins : Ins) : Word :=
  ((ins >>> 21 &&& 31).setWidth 64) <<< 24 ||| ((ins >>> 16 &&& 31).setWidth 64) <<< 19 |||
    ((ins &&& 31).setWidth 64) <<< 14

/-- `ARITH_TRAP` with the destination register of the instruction. -/
def arithTrap (s : FpState) (flags : Word) (ins : Ins) : FpState :=
  let sum := s.excSum ||| flags ||| ((ins &&& 0x1f).setWidth 64) <<< 8
  let sum := if s.ev8n then
      (sum &&& 0x7f) ||| (if sum &&& trapInt != 0 then 1 <<< 13 else 0) ||| ev8RegsOf ins
    else sum
  { s with excSum := sum, palArith := true }

/-! ## Fractions -/

/-- How far one round of the normalisation shifts: `normtab` at the first mask that meets the
fraction. -/
def normShift (frac : Word) : Nat :=
  if frac &&& 0xc000000000000000 != 0 then 1
  else if frac &&& 0xf000000000000000 != 0 then 2
  else if frac &&& 0xff00000000000000 != 0 then 4
  else if frac &&& 0xffff000000000000 != 0 then 8
  else if frac &&& 0xffffffff00000000 != 0 then 16
  else 32

/-- The loop of `ieee_norm` and `vax_norm`; each round shifts by one place at least. -/
def normLoop : Nat → Ufp → Ufp
  | 0, r => r
  | n + 1, r =>
    if r.frac &&& ufNm = 0 then
      normLoop n { r with
        frac := r.frac <<< normShift r.frac, exp := r.exp - normShift r.frac }
    else r

/-- A right shift of 1 or more places with the lost bits kept as a sticky bit, and of none. -/
def shiftSticky (frac : Word) (n : Nat) : Word :=
  if 63 < n then 1
  else if n = 0 then frac
  else frac >>> n ||| (if frac <<< (64 - n) = 0 then 0 else 1)

/-- `a` and `b` in the order `ieee_fadd` and `vax_fadd` give them. -/
def larger (a b : Ufp) : Ufp × Ufp :=
  if a.exp < b.exp ∨ (a.exp = b.exp ∧ a.frac < b.frac) then (b, a) else (a, b)

/-- The sum of fraction and rounding in `ieee_rpack` and `vax_rpack`, renormalised after a carry
unless the result was below the smallest number. -/
def roundFrac (tiny : Bool) (r : Ufp) (add : Word) : Ufp :=
  let frac := r.frac + add
  if tiny = false ∧ frac &&& ufNm = 0 then
    { r with frac := frac >>> 1 ||| ufNm, exp := r.exp + 1 }
  else { r with frac }

/-- `uemul64`: low and high word of the product. -/
def uemul64 (a b : Word) : Word × Word :=
  let p := a.setWidth 128 * b.setWidth 128
  (p.setWidth 64, (p >>> 64).setWidth 64)

/-- The divide loop of `ufdiv64`: rounds left, round, quotient and dividend. -/
def ufdivLoop (dvr : Word) : Nat → Nat → Word → Word → Nat × Word × Word
  | 0, i, quo, dvd => (i, quo, dvd)
  | n + 1, i, quo, dvd =>
    if dvd = 0 then (i, quo, dvd)
    else if dvr ≤ dvd then ufdivLoop dvr n (i + 1) (quo <<< 1 + 1) ((dvd - dvr) <<< 1)
    else ufdivLoop dvr n (i + 1) (quo <<< 1) (dvd <<< 1)

/-- `ufdiv64`: quotient and sticky bit. -/
def ufdiv64 (dvd dvr : Word) (prec : Nat) : Word × Word :=
  let (i, quo, dvd) := ufdivLoop dvr prec 0 0 dvd
  (quo <<< (63 - i + 1), if dvd = 0 then 0 else 1)

end Alphabox.Fp
