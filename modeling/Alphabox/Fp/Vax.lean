import Alphabox.Fp.Unpacked

/-!
# VAX floating point (`cpu/AlphaCPU_vaxfloat.cpp`)

The fraction of a VAX number is below one and its exponent field has the bias of the G format, of
which the F format's exponents are a part.
-/

namespace Alphabox.Fp

/-- `DT_F` and `DT_G`. -/
inductive VaxDt
  | f | g
  deriving DecidableEq

/-- `G_BIAS`. -/
def gBias : Int := 0x400

namespace VaxDt

/-- `UF_FRND`, `UF_GRND`. -/
def roundbit : VaxDt → Word
  | .f => 0x0000008000000000
  | .g => 0x0000000000000400

def expmax : VaxDt → Int
  | .f => 0x400 - 0x80 + 0xff
  | .g => 0x7ff

def expmin : VaxDt → Int
  | .f => 0x400 - 0x80
  | .g => 0

end VaxDt

/-- `vax_trap`. -/
def vaxTrap (s : FpState) (mask : Word) (ins : Ins) : FpState :=
  arithTrap s (mask ||| (if hasFtrp ins ftrpS then trapSwc else 0)) ins

/-- `vax_unpack`. -/
def vaxUnpack (s : FpState) (op : Word) (ins : Ins) : Ufp × FpState :=
  if fprExp op = 0 then
    (⟨false, 0, 0⟩,
      if fprSign op || (fprFrac op != 0 && !hasFtrp ins ftrpS) then vaxTrap s trapInv ins else s)
  else (⟨fprSign op, fprExp op, (fprFrac op ||| hiddenBit) <<< 11⟩, s)

/-- `vax_norm`. -/
def vaxNorm (r : Ufp) : Ufp :=
  if r.frac = 0 then ⟨false, 0, 0⟩ else normLoop 64 r

/-- The rounding of `vax_rpack`. -/
def vaxRoundFrac (dp : VaxDt) (ins : Ins) (r : Ufp) : Ufp :=
  if getFrnd ins = 0 then r else roundFrac false r dp.roundbit

/-- `vax_rpack`. -/
def vaxRpack (s : FpState) (r : Ufp) (ins : Ins) (dp : VaxDt) : Word × FpState :=
  if r.frac = 0 then (0, s)
  else
    let r := vaxRoundFrac dp ins r
    let s := if dp.expmax < r.exp then vaxTrap s trapOvf ins else s
    let r := if dp.expmax < r.exp then { r with exp := dp.expmax, frac := -1 } else r
    if r.exp ≤ dp.expmin then (0, if hasFtrp ins ftrpV then vaxTrap s trapUnf ins else s)
    else
      let res := packFpr r.sign r.exp r.frac
      (if dp = .f then res &&& ~~~0x1fffffff else res, s)

/-! ## Arithmetic -/

/-- The sum of two non-zero numbers with `|a| ≥ |b|`; an addition keeps no sticky bit. -/
def vaxAddAligned (a b : Ufp) : Ufp :=
  let ediff := (a.exp - b.exp).toNat
  if a.sign ≠ b.sign then vaxNorm { a with frac := a.frac - shiftSticky b.frac ediff }
  else
    let bfrac := if ediff > 63 then 0 else b.frac >>> ediff
    let frac := a.frac + bfrac
    if frac < bfrac then { a with frac := ufNm ||| frac >>> 1, exp := a.exp + 1 }
    else { a with frac }

/-- `vax_fadd`. -/
def vaxFadd (s : FpState) (s1 s2 : Word) (ins : Ins) (dp : VaxDt) (sub : Bool) : Word × FpState :=
  let (a, s) := vaxUnpack s s1 ins
  let (b, s) := vaxUnpack s s2 ins
  let b := if sub then { b with sign := !b.sign } else b
  let r :=
    if a.exp = 0 then b
    else if b.exp = 0 then a
    else
      let (a, b) := larger a b
      vaxAddAligned a b
  vaxRpack s r ins dp

/-- `vax_fmul`. -/
def vaxFmul (s : FpState) (s1 s2 : Word) (ins : Ins) (dp : VaxDt) : Word × FpState :=
  let (a, s) := vaxUnpack s s1 ins
  let (b, s) := vaxUnpack s s2 ins
  if a.exp = 0 ∨ b.exp = 0 then (0, s)
  else
    vaxRpack s (vaxNorm ⟨a.sign ^^ b.sign, a.exp + b.exp - gBias, (uemul64 a.frac b.frac).2⟩) ins dp

/-- `vax_fdiv`. -/
def vaxFdiv (s : FpState) (s1 s2 : Word) (ins : Ins) (dp : VaxDt) : Word × FpState :=
  let (a, s) := vaxUnpack s s1 ins
  let (b, s) := vaxUnpack s s2 ins
  if b.exp = 0 then (0, vaxTrap s trapDze ins)
  else if a.exp = 0 then (0, s)
  else
    vaxRpack s (vaxNorm ⟨a.sign ^^ b.sign, a.exp - b.exp + gBias + 1,
      (ufdiv64 (a.frac >>> 1) (b.frac >>> 1) 55).1⟩) ins dp

/-! ## Integers -/

/-- `vax_cvtif`. -/
def vaxCvtif (s : FpState) (val : Word) (ins : Ins) (dp : VaxDt) : Word × FpState :=
  if val = 0 then (0, s)
  else
    vaxRpack s (vaxNorm ⟨val.msb, 64 + gBias, if val.msb then -val else val⟩) ins dp

/-- `vax_cvtfi`. -/
def vaxCvtfi (s : FpState) (op : Word) (ins : Ins) : Word × FpState :=
  let (a, s) := vaxUnpack s op ins
  let ubexp := a.exp - gBias
  if ubexp < 0 then (0, s)
  else if ubexp ≤ 63 then
    let frac := a.frac >>> (63 - ubexp).toNat
    let frac := if getFrnd ins = 0 then frac else frac + 1
    let frac := frac >>> 1
    let out : Bool := (if a.sign then 0x8000000000000000 else 0x7fffffffffffffff) < frac
    (if a.sign then -frac else frac, if out && hasFtrp ins ftrpV then vaxTrap s trapIov ins else s)
  else
    let frac := if ubexp > 63 + 64 then 0 else a.frac <<< (ubexp - 63 - 1).toNat
    let fits := a.sign && ubexp == 63 + 1 && frac == 0x8000000000000000
    (if a.sign then -frac else frac,
      if !fits && hasFtrp ins ftrpV then vaxTrap s trapIov ins else s)

end Alphabox.Fp
