import Mathlib.Algebra.GroupWithZero.Nat
import Alphabox.Cpu.IntArith

/-!
# Integer instructions (`cpu/cpu_arith.hpp`, `cpu_logical.hpp`, `cpu_bwx.hpp`, `cpu_control.hpp`)

What the interpreter does with an integer operate that cannot trap, with LDA and LDAH, and with a
branch or a jump. `execute` is one turn of its loop over those: it clears R31, which the instruction
before may have written, and dispatches on opcode and function.
-/

namespace Alphabox.Cpu

open Fp

/-! ## Values -/

def x64Byte : Word := 0xff

def x64Word : Word := 0xffff

def x64Quad : Word := 0xffffffffffffffff

/-- `V_2 & 7`, in bits. -/
def bytePos (b : Word) : Word := (b &&& 7) * 8

/-- `(64 - ((V_2 & 7) * 8)) & 63`. -/
def bytePosHigh (b : Word) : Word := (64 - bytePos b) &&& 63

/-- `EXTxL`. -/
def extLow (mask a b : Word) : Word := (a >>> bytePos b) &&& mask

/-- `EXTxH`. -/
def extHigh (mask a b : Word) : Word := (a <<< bytePosHigh b) &&& mask

/-- `INSxL`. -/
def insLow (mask a b : Word) : Word := (a &&& mask) <<< bytePos b

/-- `INSxH`. -/
def insHigh (mask a b : Word) : Word :=
  if b &&& 7 ≠ 0 then (a &&& mask) >>> bytePosHigh b else 0

/-- `MSKxL`. -/
def mskLow (mask a b : Word) : Word := a &&& ~~~(mask <<< bytePos b)

/-- `MSKxH`. -/
def mskHigh (mask a b : Word) : Word :=
  if b &&& 7 ≠ 0 then a &&& ~~~(mask >>> bytePosHigh b) else a

/-- The bytes of `b`'s low eight bits that are set, where `keep`, else those that are clear. -/
def byteMask (keep : Bool) (b : Word) : Word :=
  (List.range 8).foldl
    (fun m i => m ||| if b.getLsbD i = keep then (0xff : Word) <<< (8 * i) else 0) 0

/-- `CMPBGE`. -/
def cmpbge (a b : Word) : Word :=
  (List.range 8).foldl
    (fun m i =>
      m ||| if (b >>> (8 * i)) &&& 0xff ≤ (a >>> (8 * i)) &&& 0xff then (1 : Word) <<< i else 0) 0

/-- `SRA`. -/
def sra (a b : Word) : Word :=
  if b &&& 63 ≠ 0 then
    (a >>> (b &&& 63)) ||| (if a >>> 63 ≠ 0 then x64Quad <<< (64 - (b &&& 63)) else 0)
  else a

/-- The zeros of the low `n` bits above the highest one of them that is set. -/
def leadingZeros (a : Word) : Nat → Nat
  | 0 => 0
  | i + 1 => if a.getLsbD i then 0 else leadingZeros a i + 1

/-- The zeros from bit `i` up, of `n` bits, below the first that is set. -/
def trailingZeros (a : Word) (i : Nat) : Nat → Nat
  | 0 => 0
  | n + 1 => if a.getLsbD i then 0 else trailingZeros a (i + 1) n + 1

/-- The bits that are set among the low `n`. -/
def onesBelow (a : Word) : Nat → Nat
  | 0 => 0
  | i + 1 => onesBelow a i + if a.getLsbD i then 1 else 0

def ofBool (p : Bool) : Word := if p then 1 else 0

/-- `DISP_16`. -/
def disp16 (ins : Ins) : Word := (ins.setWidth 16).signExtend 64

/-- `DISP_21`. -/
def disp21 (ins : Ins) : Word := (ins.setWidth 21).signExtend 64

/-! ## Operates -/

/-- What an instruction reads of the processor's model. -/
structure ModelId where
  amask : Word
  implver : Word
  /-- `CPU_EXT_EV8`. -/
  ev8 : Bool

namespace IntState

variable (s : IntState) (ins : Ins)

/-- `RC = f(RAV, RBV)`. -/
def operate (f : Word → Word → Word) : IntState := s.setRcv ins (f (s.rav ins) (s.rbv ins))

/-- `if (p(RAV)) RC = RBV`. -/
def cmov (p : Word → Bool) : IntState := if p (s.rav ins) then s.setRcv ins (s.rbv ins) else s

/-- `state.r[REG_1] = v`. -/
def setRav (v : Word) : IntState :=
  { s with r := Function.update s.r (s.rregA (ins.extractLsb' 21 5)) v }

/-- `state.r[REG_2]`. -/
def rb : Word := s.r (s.rregB (ins.extractLsb' 16 5))

/-- `state.r[31] = 0`. -/
def clearR31 : IntState := { s with r := Function.update s.r 31 0 }

end IntState

/-- The conditions of CMOV and of the branches on a register. -/
inductive IntCond
  | eq | ne | lt | ge | le | gt | lbc | lbs
  deriving DecidableEq

def IntCond.holds : IntCond → Word → Bool
  | .eq, a => a == 0
  | .ne, a => a != 0
  | .lt, a => a.slt 0
  | .ge, a => !a.slt 0
  | .le, a => a.sle 0
  | .gt, a => !a.sle 0
  | .lbc, a => a &&& 1 == 0
  | .lbs, a => a &&& 1 != 0

section

variable (s : IntState) (ins : Ins)

/-- INTA: the operates of opcode 10, less the `/V` forms. -/
def executeInta (func : Nat) : Option IntState :=
  match func with
  | 0x00 => some (s.operate ins fun a b => sextU64L (a + b))
  | 0x02 => some (s.operate ins fun a b => sextU64L (a * 4 + b))
  | 0x09 => some (s.operate ins fun a b => sextU64L (a - b))
  | 0x0b => some (s.operate ins fun a b => sextU64L (a * 4 - b))
  | 0x0f => some (s.operate ins cmpbge)
  | 0x12 => some (s.operate ins fun a b => sextU64L (a * 8 + b))
  | 0x1b => some (s.operate ins fun a b => sextU64L (a * 8 - b))
  | 0x1d => some (s.operate ins fun a b => ofBool (a.ult b))
  | 0x20 => some (s.operate ins fun a b => a + b)
  | 0x22 => some (s.operate ins fun a b => a * 4 + b)
  | 0x29 => some (s.operate ins fun a b => a - b)
  | 0x2b => some (s.operate ins fun a b => a * 4 - b)
  | 0x2d => some (s.operate ins fun a b => ofBool (a == b))
  | 0x32 => some (s.operate ins fun a b => a * 8 + b)
  | 0x3b => some (s.operate ins fun a b => a * 8 - b)
  | 0x3d => some (s.operate ins fun a b => ofBool (a.ule b))
  | 0x4d => some (s.operate ins fun a b => ofBool (a.slt b))
  | 0x6d => some (s.operate ins fun a b => ofBool (a.sle b))
  | _ => none

/-- INTL: the operates of opcode 11. AMASK is OPCDEC unless Ra is R31, and CMOV2 unless the
processor is a 21464. -/
def executeIntl (m : ModelId) (func : Nat) : Option IntState :=
  match func with
  | 0x00 => some (s.operate ins fun a b => a &&& b)
  | 0x08 => some (s.operate ins fun a b => a &&& ~~~b)
  | 0x14 => some (s.cmov ins (IntCond.holds .lbs))
  | 0x16 => some (s.cmov ins (IntCond.holds .lbc))
  | 0x20 => some (s.operate ins fun a b => a ||| b)
  | 0x24 => some (s.cmov ins (IntCond.holds .eq))
  | 0x26 => some (s.cmov ins (IntCond.holds .ne))
  | 0x28 => some (s.operate ins fun a b => a ||| ~~~b)
  | 0x40 => some (s.operate ins fun a b => a ^^^ b)
  | 0x44 => some (s.cmov ins (IntCond.holds .lt))
  | 0x46 => some (s.cmov ins (IntCond.holds .ge))
  | 0x48 => some (s.operate ins fun a b => a ^^^ ~~~b)
  | 0x61 =>
    if s.rregA (ins.extractLsb' 21 5) ≠ 31 then none
    else some (s.operate ins fun _ b => b &&& ~~~m.amask)
  | 0x64 => some (s.cmov ins (IntCond.holds .le))
  | 0x66 => some (s.cmov ins (IntCond.holds .gt))
  | 0x68 => if m.ev8 then some (s.operate ins fun a _ => a) else none
  | 0x6c => some (s.operate ins fun _ _ => m.implver)
  | _ => none

/-- INTS: the operates of opcode 12. -/
def executeInts (func : Nat) : Option IntState :=
  match func with
  | 0x02 => some (s.operate ins (mskLow x64Byte))
  | 0x06 => some (s.operate ins (extLow x64Byte))
  | 0x0b => some (s.operate ins (insLow x64Byte))
  | 0x12 => some (s.operate ins (mskLow x64Word))
  | 0x16 => some (s.operate ins (extLow x64Word))
  | 0x1b => some (s.operate ins (insLow x64Word))
  | 0x22 => some (s.operate ins (mskLow x64Long))
  | 0x26 => some (s.operate ins (extLow x64Long))
  | 0x2b => some (s.operate ins (insLow x64Long))
  | 0x30 => some (s.operate ins fun a b => a &&& byteMask false b)
  | 0x31 => some (s.operate ins fun a b => a &&& byteMask true b)
  | 0x32 => some (s.operate ins (mskLow x64Quad))
  | 0x34 => some (s.operate ins fun a b => a >>> (b &&& 63))
  | 0x36 => some (s.operate ins fun a b => a >>> bytePos b)
  | 0x39 => some (s.operate ins fun a b => a <<< (b &&& 63))
  | 0x3b => some (s.operate ins fun a b => a <<< bytePos b)
  | 0x3c => some (s.operate ins sra)
  | 0x52 => some (s.operate ins (mskHigh x64Word))
  | 0x57 => some (s.operate ins (insHigh x64Word))
  | 0x5a => some (s.operate ins (extHigh x64Word))
  | 0x62 => some (s.operate ins (mskHigh x64Long))
  | 0x67 => some (s.operate ins (insHigh x64Long))
  | 0x6a => some (s.operate ins (extHigh x64Long))
  | 0x72 => some (s.operate ins (mskHigh x64Quad))
  | 0x77 => some (s.operate ins (insHigh x64Quad))
  | 0x7a => some (s.operate ins (extHigh x64Quad))
  | _ => none

/-- INTM: the operates of opcode 13, less the `/V` forms, over a 64 by 64 bit product. -/
def executeIntm (uemul64 : Word → Word → Word × Word) (func : Nat) : Option IntState :=
  match func with
  | 0x00 => some (s.operate ins fun a b => sextU64L (sextU64L a * sextU64L b))
  | 0x20 => some (s.operate ins fun a b => a * b)
  | 0x30 => some (doUmulh s ins uemul64)
  | _ => none

/-- FPTI: those operates of opcode 1C that are not packed ones or moves from a floating-point
register. -/
def executeFpti (func : Nat) : Option IntState :=
  match func with
  | 0x00 => some (s.operate ins fun _ b => (b.setWidth 8).signExtend 64)
  | 0x01 => some (s.operate ins fun _ b => (b.setWidth 16).signExtend 64)
  | 0x30 => some (s.operate ins fun _ b => BitVec.ofNat 64 (onesBelow b 64))
  | 0x32 => some (s.operate ins fun _ b => BitVec.ofNat 64 (leadingZeros b 64))
  | 0x33 => some (s.operate ins fun _ b => BitVec.ofNat 64 (trailingZeros b 0 64))
  | _ => none

/-- `DO_LDA`. -/
def doLda : IntState := s.setRav ins (s.rb ins + disp16 ins)

/-- `DO_LDAH`. -/
def doLdah : IntState := s.setRav ins (s.rb ins + disp16 ins <<< 16)

/-! ## Branches and jumps -/

/-- A conditional branch: where it goes from `pc`, which is past it. -/
def doBranch (cond : IntCond) (pc : Word) : Word :=
  if cond.holds (s.rav ins) then pc + disp21 ins * 4 else pc

/-- `DO_BR`, and `DO_BSR` without its trace. -/
def doBr (pc : Word) : IntState × Word := (s.setRav ins (pc &&& ~~~3), pc + disp21 ins * 4)

/-- `DO_JMP` without its trace. -/
def doJmp (pc : Word) : IntState × Word :=
  (s.setRav ins (pc &&& ~~~3), (s.rb ins &&& ~~~3) ||| (pc &&& 3))

end

/-- The condition of a branch by its opcode. -/
def branchCond (opcode : Nat) : Option IntCond :=
  match opcode with
  | 0x38 => some .lbc
  | 0x39 => some .eq
  | 0x3a => some .lt
  | 0x3b => some .le
  | 0x3c => some .lbs
  | 0x3d => some .ne
  | 0x3e => some .ge
  | 0x3f => some .gt
  | _ => none

/-- `execute`: one instruction at `pc`, and where the next one is. `none` where the instruction is
not among these. -/
def execute (m : ModelId) (uemul64 : Word → Word → Word × Word) (s : IntState) (pc : Word)
    (ins : Ins) : Option (IntState × Word) :=
  let s := s.clearR31
  let pc := pc + 4
  let func := ((ins >>> 5) &&& 0x7f).toNat
  let stay (r : Option IntState) : Option (IntState × Word) := r.map (·, pc)
  match (ins >>> 26).toNat with
  | 0x08 => some (doLda s ins, pc)
  | 0x09 => some (doLdah s ins, pc)
  | 0x10 => stay (executeInta s ins func)
  | 0x11 => if s.palMode && s.ev8n then none else stay (executeIntl s ins m func)
  | 0x12 => stay (executeInts s ins func)
  | 0x13 => stay (executeIntm s ins uemul64 func)
  | 0x1a => if s.ev8n then none else some (doJmp s ins pc)
  | 0x1c => stay (executeFpti s ins func)
  | 0x30 | 0x34 => if s.palMode && s.ev8n then none else some (doBr s ins pc)
  | opcode => (branchCond opcode).map fun cond => (s, doBranch s ins cond pc)

end Alphabox.Cpu
