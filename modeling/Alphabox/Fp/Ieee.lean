import Alphabox.Fp.Unpacked

/-!
# IEEE floating point (`cpu/AlphaCPU_ieeefloat.cpp`)

Each routine takes the state and returns its result with the state after the traps it signals.
-/

namespace Alphabox.Fp

/-- `DT_S` and `DT_T`. -/
inductive IeeeDt
  | s | t
  deriving DecidableEq

/-- Types of an unpacked number, `UFT_*`. -/
inductive Uft
  | zero | fin | denorm | inf | nan
  deriving DecidableEq

/-! ## Constants -/

def fpcrIned : Word := 0x4000000000000000
def fpcrUnfd : Word := 0x2000000000000000
def fpcrUndz : Word := 0x1000000000000000
def fpcrOvfd : Word := 0x0008000000000000
def fpcrDzed : Word := 0x0004000000000000
def fpcrInvd : Word := 0x0002000000000000
def fpcrDnz : Word := 0x0001000000000000

/-- `QNAN`. -/
def qnan : Word := 0x0008000000000000

/-- `CQNAN`. -/
def cqnan : Word := 0xfff8000000000000

/-- `FMINF` and `FPINF`. -/
def infinity (sign : Bool) : Word := if sign then 0xfff0000000000000 else 0x7ff0000000000000

/-- `FMZERO` and `FPZERO`. -/
def zeroOf (sign : Bool) : Word := if sign then 0x8000000000000000 else 0

/-- `FPSLOW`, the fraction bits below an S number's. -/
def fpSlow : Word := 0x000000001fffffff

/-- `T_BIAS`. -/
def tBias : Int := 0x3ff

/-- `IPMAX` and `IMMAX`, or with `l32` their longword sizes. -/
def intMax (sign l32 : Bool) : Word :=
  if sign then (if l32 then 0x80000000 else 0x8000000000000000)
  else (if l32 then 0x7fffffff else 0x7fffffffffffffff)

namespace IeeeDt

/-- `UF_SRND`, `UF_TRND`. -/
def stdrnd : IeeeDt → Word
  | .s => 0x0000008000000000
  | .t => 0x0000000000000400

/-- `UF_SINF`, `UF_TINF`. -/
def infrnd : IeeeDt → Word
  | .s => 0x000000ffffffffff
  | .t => 0x00000000000007ff

def expmax : IeeeDt → Int
  | .s => 0x3ff - 0x7f + 0xff - 1
  | .t => 0x7ff - 1

def expmin : IeeeDt → Int
  | .s => 0x3ff - 0x7f
  | .t => 0

/-- `FPMAX_S`, `FPMAX_T`. -/
def fpmax : IeeeDt → Word
  | .s => 0x47efffffe0000000
  | .t => 0x7fefffffffffffff

/-- The last fraction bit. -/
def lsb : IeeeDt → Word
  | .s => 0x0000000020000000
  | .t => 1

end IeeeDt

/-! ## Support -/

/-- `ieee_quiet_nan_result`. -/
def ieeeQuietNanResult (op : Word) (dp : IeeeDt) : Word :=
  let op := op ||| qnan
  if dp = .s then op &&& ~~~fpSlow else op

/-- The end of `ieee_trap`: the trap is taken, or kept for the end of a vector instruction. -/
def deliverTrap (s : FpState) (real : Word) (ins : Ins) : FpState :=
  if real = 0 then s
  else if s.vecDefer then { s with vecTrap := s.vecTrap ||| real }
  else arithTrap s (real ||| (if hasFtrp ins ftrpS then trapSwc else 0)) ins

/-- `ieee_trap`. -/
def ieeeTrap (s : FpState) (trap : Word) (instenb : Bool) (fpcrdsb : Word) (ins : Ins) : FpState :=
  if trap = trapIne ∧ s.noIne = true then s
  else
    let fresh := ~~~s.fpcr &&& trap <<< 51 != 0
    let s := if fresh then { s with fpcr := s.fpcr ||| trap <<< 51 } else s
    let real := (if fresh then trap <<< 41 else 0) |||
      (if instenb && !(hasFtrp ins ftrpS && s.fpcr &&& fpcrdsb != 0) then trap else 0)
    deliverTrap s real ins

/-- `ieee_norm`. -/
def ieeeNorm (r : Ufp) : Ufp :=
  if r.frac = 0 then { r with exp := 0 } else normLoop 64 r

/-- `ieee_unpack`. -/
def ieeeUnpack (s : FpState) (op : Word) (ins : Ins) : Uft × Ufp × FpState :=
  let r : Ufp := ⟨fprSign op, fprExp op, fprFrac op⟩
  if fprExp op = 0 then
    if r.frac = 0 then (.zero, r, s)
    else if s.fpcr &&& fpcrDnz != 0 && hasFtrp ins ftrpS then (.zero, { r with frac := 0 }, s)
    else
      (.denorm, ieeeNorm { r with exp := 1, frac := r.frac <<< 11 }, ieeeTrap s trapInv true 0 ins)
  else if fprExp op = 0x7ff then
    if r.frac = 0 then (.inf, r, s)
    else if r.frac &&& qnan = 0 then (.nan, r, ieeeTrap s trapInv true fpcrInvd ins)
    else (.nan, r, s)
  else (.fin, { r with frac := (r.frac ||| hiddenBit) <<< 11 }, s)

/-- The first step of `ieee_rpack`: a result below MIN goes to MIN's exponent. -/
def tinyShift (dp : IeeeDt) (r : Ufp) : Ufp :=
  if r.exp ≤ dp.expmin then
    { r with
      frac := shiftSticky r.frac (dp.expmin + 1 - r.exp).toNat, exp := dp.expmin + 1 }
  else r

/-- `rndadd` of `ieee_rpack`. -/
def rndAdd (dp : IeeeDt) (rndm : BitVec 2) (sign : Bool) : Word :=
  if rndm = frndN then dp.stdrnd
  else if (rndm = frndP ∧ sign = false) ∨ (rndm = frndM ∧ sign = true) then dp.infrnd
  else 0

/-- The last step of `ieee_rpack`: fields, ties to even, and the S format's zero bits. -/
def ieeePack (dp : IeeeDt) (rndm : BitVec 2) (rndbits : Word) (r : Ufp) : Word :=
  let res := packFpr r.sign r.exp r.frac
  let res := if rndm = frndN ∧ rndbits = dp.stdrnd then res &&& ~~~dp.lsb else res
  if dp = .s then res &&& ~~~fpSlow else res

/-- `ieee_rpack`. -/
def ieeeRpack (s : FpState) (r : Ufp) (ins : Ins) (dp : IeeeDt) : Word × FpState :=
  if r.frac = 0 then (signBit r.sign, s)
  else
    let rndm := roundCode s ins
    let tiny := decide (r.exp ≤ dp.expmin)
    let r := tinyShift dp r
    let rndbits := r.frac &&& dp.infrnd
    let add := rndAdd dp rndm r.sign
    let r := roundFrac tiny r add
    let tiny := tiny && r.frac &&& ufNm == 0
    let s := if rndbits = 0 then s else ieeeTrap s trapIne (qSui ins) fpcrIned ins
    if dp.expmax < r.exp then
      let s := ieeeTrap s trapOvf true fpcrOvfd ins
      let s := ieeeTrap s trapIne (qSui ins) fpcrIned ins
      if add = 0 then (signBit r.sign ||| dp.fpmax, s) else (infinity r.sign, s)
    else if tiny then
      let s := ieeeTrap s trapUnf (hasFtrp ins ftrpV)
        (if s.fpcr &&& fpcrUndz != 0 then fpcrUnfd else 0) ins
      let s := ieeeTrap s trapIne (qSui ins) fpcrIned ins
      (0, s)
    else (ieeePack dp rndm rndbits r, s)

/-! ## Arithmetic -/

/-- The sum of two non-zero numbers with `|a| ≥ |b|`: the fractions are aligned and added or
subtracted. -/
def addAligned (minusInf : Bool) (a b : Ufp) : Ufp :=
  let bfrac := shiftSticky b.frac (a.exp - b.exp).toNat
  if a.sign ≠ b.sign then
    let r := ieeeNorm { a with frac := a.frac - bfrac }
    if r.frac = 0 then { r with sign := minusInf } else r
  else
    let frac := a.frac + bfrac
    if frac < bfrac then
      { a with frac := ufNm ||| frac >>> 1 ||| (frac &&& 1), exp := a.exp + 1 }
    else { a with frac }

/-- `ieee_fadd`. -/
def ieeeFadd (s : FpState) (s1 s2 : Word) (ins : Ins) (dp : IeeeDt) (sub : Bool) :
    Word × FpState :=
  let (ftpa, a, s) := ieeeUnpack s s1 ins
  let (ftpb, b, s) := ieeeUnpack s s2 ins
  if ftpb = .nan then (ieeeQuietNanResult s2 dp, s)
  else if ftpa = .nan then (ieeeQuietNanResult s1 dp, s)
  else
    let b := if sub then { b with sign := !b.sign } else b
    if ftpb = .inf then
      if ftpa = .inf ∧ a.sign ≠ b.sign then (cqnan, ieeeTrap s trapInv true fpcrInvd ins)
      else (if sub then s2 ^^^ 0x8000000000000000 else s2, s)
    else if ftpa = .inf then (s1, s)
    else
      let minusInf := decide (roundCode s ins = frndM)
      let r :=
        if ftpa = .zero then
          if ftpb = .zero ∧ a.sign ≠ b.sign then ⟨minusInf, 0, 0⟩ else b
        else if ftpb = .zero then a
        else
          let (a, b) := larger a b
          addAligned minusInf a b
      ieeeRpack s r ins dp

/-- `ieee_fmul`. -/
def ieeeFmul (s : FpState) (s1 s2 : Word) (ins : Ins) (dp : IeeeDt) : Word × FpState :=
  let (ftpa, a, s) := ieeeUnpack s s1 ins
  let (ftpb, b, s) := ieeeUnpack s s2 ins
  if ftpb = .nan then (ieeeQuietNanResult s2 dp, s)
  else if ftpa = .nan then (ieeeQuietNanResult s1 dp, s)
  else
    let sign := a.sign ^^ b.sign
    if ftpa = .zero ∨ ftpb = .zero then
      if ftpa = .inf ∨ ftpb = .inf then (cqnan, ieeeTrap s trapInv true fpcrInvd ins)
      else (zeroOf sign, s)
    else if ftpb = .inf then (infinity sign, s)
    else if ftpa = .inf then (infinity sign, s)
    else
      let (resl, resh) := uemul64 a.frac b.frac
      let r := ieeeNorm ⟨sign, a.exp + b.exp + 1 - tBias, resh⟩
      let r := { r with frac := r.frac ||| (if resl = 0 then 0 else 1) }
      ieeeRpack s r ins dp

/-- `ieee_fdiv`. -/
def ieeeFdiv (s : FpState) (s1 s2 : Word) (ins : Ins) (dp : IeeeDt) : Word × FpState :=
  let (ftpa, a, s) := ieeeUnpack s s1 ins
  let (ftpb, b, s) := ieeeUnpack s s2 ins
  if ftpb = .nan then (ieeeQuietNanResult s2 dp, s)
  else if ftpa = .nan then (ieeeQuietNanResult s1 dp, s)
  else
    let sign := a.sign ^^ b.sign
    if ftpb = .inf then
      if ftpa = .inf then (cqnan, ieeeTrap s trapInv true fpcrInvd ins)
      else (zeroOf sign, s)
    else if ftpa = .inf then (infinity sign, s)
    else if ftpb = .zero then
      if ftpa = .zero then (cqnan, ieeeTrap s trapInv true fpcrInvd ins)
      else (infinity sign, ieeeTrap s trapDze true fpcrDzed ins)
    else if ftpa = .zero then (zeroOf sign, s)
    else
      let (quo, sticky) := ufdiv64 (a.frac >>> 1) (b.frac >>> 1) 55
      let r := ieeeNorm ⟨sign, a.exp - b.exp + tBias, quo⟩
      let r := { r with frac := r.frac ||| sticky }
      ieeeRpack s r ins dp

/-! ## Integers -/

/-- `ieee_cvtif`. -/
def ieeeCvtif (s : FpState) (val : Word) (ins : Ins) (dp : IeeeDt) : Word × FpState :=
  if val = 0 then (0, s)
  else
    let a : Ufp := ⟨val.msb, 63 + tBias, if val.msb then -val else val⟩
    ieeeRpack s (ieeeNorm a) ins dp

/-- The integer part of a number in `ieee_cvtfi_n`, the bits lost below it at the top of a word,
and whether bits were lost above. -/
def intPart (a : Ufp) : Word × Word × Bool :=
  let ubexp := a.exp - tBias
  if ubexp < 0 then (0, if ubexp = -1 then a.frac else 1, false)
  else if ubexp ≤ 63 then
    let sh := (63 - ubexp).toNat
    (a.frac >>> sh, if sh = 0 then 0 else a.frac <<< (64 - sh), false)
  else (if ubexp - 63 > 63 then 0 else a.frac <<< (ubexp - 63).toNat, 0, true)

/-- The rounding of `ieee_cvtfi_n`: fraction and whether it carried out. -/
def roundInt (rndm : BitVec 2) (sign : Bool) (frac sticky : Word) : Word × Bool :=
  if (rndm = frndN ∧ sticky &&& 0x8000000000000000 ≠ 0) ∨
      (rndm = frndP ∧ sign = false ∧ sticky ≠ 0) ∨ (rndm = frndM ∧ sign = true ∧ sticky ≠ 0) then
    let f := frac + 1
    (if rndm = frndN ∧ sticky = 0x8000000000000000 then f &&& ~~~1 else f, f == 0)
  else (frac, false)

/-- `ieee_cvtfi_n`. -/
def ieeeCvtfiN (s : FpState) (op : Word) (ins : Ins) (l32 : Bool) : Word × FpState :=
  let (ftpa, a, s) := ieeeUnpack s op ins
  if ftpa = .denorm then (0, s)
  else if ftpa = .inf ∨ ftpa = .nan then (0, ieeeTrap s trapInv true fpcrInvd ins)
  else if ftpa = .zero then (0, s)
  else
    let (frac, sticky, high) := intPart a
    let (frac, carry) := roundInt (roundCode s ins) a.sign frac sticky
    let ovf := high || carry || intMax a.sign l32 < frac
    let s := if ovf then
        let s := ieeeTrap s trapIov (hasFtrp ins ftrpV) 0 ins
        if hasFtrp ins ftrpS then ieeeTrap s trapInv true fpcrInvd ins else s
      else s
    let s := if sticky = 0 then s else ieeeTrap s trapIne (qSui ins) fpcrIned ins
    (if a.sign then -frac else frac, s)

/-- `ieee_cvtfi`. -/
def ieeeCvtfi (s : FpState) (op : Word) (ins : Ins) : Word × FpState :=
  ieeeCvtfiN s op ins false

end Alphabox.Fp
