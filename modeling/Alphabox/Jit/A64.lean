import Mathlib.Algebra.GroupWithZero.Nat
import Alphabox.Cpu.IntArith

/-!
# The host: AArch64, as far as compiled operates use it (`jit/jitemit_a64.hpp`)

Compiled code keeps the processor in `x19` and finds the guest's registers in memory from there; the
only other memory an operate reads is a table of byte masks. So a host state is the general
registers, the flags and the guest's register file, and `ldr`, `str` name a guest register by its
slot. Each instruction does what the architecture says; a 32-bit form clears the upper half of its
destination.
-/

namespace Alphabox.Jit

open Fp

/-- `x0` to `x30`; 31 is `xzr`. -/
abbrev XReg := BitVec 5

/-- The operations with two 64-bit register operands. -/
inductive AluOp
  | add | sub | and | orr | eor | bic | orn | eon | mul | umulh | lsl | lsr | asr
  deriving DecidableEq

/-- The operations with a 64-bit register and an immediate. -/
inductive AluImmOp
  | add | sub | and | orr | eor | lsl | lsr
  deriving DecidableEq

/-- The operations with 32-bit operands. -/
inductive AluWOp
  | add | sub | mul
  deriving DecidableEq

/-- The operations with one register operand. -/
inductive UnaryOp
  | mov | movW | mvn | neg | sxtb | sxth | sxtw | clz | rbit
  deriving DecidableEq

/-- The conditions compiled code tests. -/
inductive CondCode
  | eq | ne | lo | ls | lt | ge | le | gt
  deriving DecidableEq

inductive Instr
  /-- `mov`, of any constant: the assembler builds it from `movz` and `movk`. -/
  | movImm (d : XReg) (v : Word)
  | unary (op : UnaryOp) (d s : XReg)
  | alu (op : AluOp) (d a b : XReg)
  | aluImm (op : AluImmOp) (d a : XReg) (v : Word)
  /-- The second operand is shifted left by `sh`. -/
  | aluW (op : AluWOp) (d a b : XReg) (sh : Nat)
  | addImmW (d a : XReg) (v : BitVec 32)
  | subImmW (d a : XReg) (v : BitVec 32)
  | lslImmW (d a : XReg) (sh : Nat)
  | ubfx (d s : XReg) (lsb width : Nat)
  | ubfiz (d s : XReg) (lsb width : Nat)
  | cmp (a b : XReg)
  | cmpImm (a : XReg) (v : Word)
  | tst (a b : XReg)
  | tstImm (a : XReg) (v : Word)
  | csel (d a b : XReg) (cc : CondCode)
  | cset (d : XReg) (cc : CondCode)
  /-- Of the guest's register `slot`, at `x19 + regs + 8 * slot`. -/
  | ldr (d : XReg) (slot : BitVec 6)
  | ldrW (d : XReg) (slot : BitVec 6)
  | str (s : XReg) (slot : BitVec 6)
  /-- `[base, index, lsl #3]`. -/
  | ldrTable (d base index : XReg)

structure Flags where
  n : Bool
  z : Bool
  c : Bool
  v : Bool

structure Host where
  x : XReg → Word
  flags : Flags
  /-- `state.r`. -/
  r : BitVec 6 → Word

/-! ## What the operations compute -/

def AluOp.eval : AluOp → Word → Word → Word
  | .add, a, b => a + b
  | .sub, a, b => a - b
  | .and, a, b => a &&& b
  | .orr, a, b => a ||| b
  | .eor, a, b => a ^^^ b
  | .bic, a, b => a &&& ~~~b
  | .orn, a, b => a ||| ~~~b
  | .eon, a, b => a ^^^ ~~~b
  | .mul, a, b => a * b
  | .umulh, a, b => BitVec.ofNat 64 (a.toNat * b.toNat / 2 ^ 64)
  | .lsl, a, b => a <<< (b.toNat % 64)
  | .lsr, a, b => a >>> (b.toNat % 64)
  | .asr, a, b => a.sshiftRight (b.toNat % 64)

def AluImmOp.eval : AluImmOp → Word → Word → Word
  | .add, a, v => a + v
  | .sub, a, v => a - v
  | .and, a, v => a &&& v
  | .orr, a, v => a ||| v
  | .eor, a, v => a ^^^ v
  | .lsl, a, v => a <<< v.toNat
  | .lsr, a, v => a >>> v.toNat

/-- The low half, `w` for `x`. -/
def lo (a : Word) : BitVec 32 := a.setWidth 32

def AluWOp.eval : AluWOp → BitVec 32 → BitVec 32 → BitVec 32
  | .add, a, b => a + b
  | .sub, a, b => a - b
  | .mul, a, b => a * b

def UnaryOp.eval : UnaryOp → Word → Word
  | .mov, a => a
  | .movW, a => (lo a).setWidth 64
  | .mvn, a => ~~~a
  | .neg, a => -a
  | .sxtb, a => (a.setWidth 8).signExtend 64
  | .sxth, a => (a.setWidth 16).signExtend 64
  | .sxtw, a => (lo a).signExtend 64
  | .clz, a => a.clz
  | .rbit, a => a.reverse

/-- `width` ones. -/
def ones (width : Nat) : Word := BitVec.ofNat 64 (2 ^ width - 1)

/-- The flags of `a - b`. -/
def subFlags (a b : Word) : Flags where
  n := (a - b).msb
  z := a == b
  c := decide (b ≤ a)
  v := (a.msb != b.msb) && ((a - b).msb != a.msb)

/-- The flags of a logical result. -/
def logicFlags (r : Word) : Flags := ⟨r.msb, r == 0, false, false⟩

def CondCode.holds (f : Flags) : CondCode → Bool
  | .eq => f.z
  | .ne => !f.z
  | .lo => !f.c
  | .ls => !(f.c && !f.z)
  | .lt => f.n != f.v
  | .ge => f.n == f.v
  | .le => !(!f.z && (f.n == f.v))
  | .gt => !f.z && (f.n == f.v)

/-! ## Execution -/

namespace Host

/-- A read of `xzr` gives zero. -/
def get (h : Host) (q : XReg) : Word := if q = 31 then 0 else h.x q

/-- A write of `xzr` is lost. -/
def set (h : Host) (d : XReg) (v : Word) : Host :=
  if d = 31 then h else { h with x := Function.update h.x d v }

end Host

/-- `g_zapnot_mask`: the bytes whose bits are set in `b`. -/
def zapnotMask (b : Word) : Word :=
  (List.range 8).foldl
    (fun m i => if b.getLsbD i then m ||| (0xff : Word) <<< (8 * i) else m) 0

/-- One instruction, with `g_zapnot_mask` at `table`. What a load from elsewhere gives is not
said. -/
def step (table : Word) (elsewhere : Word → Word) (h : Host) : Instr → Host
  | .movImm d v => h.set d v
  | .unary op d s => h.set d (op.eval (h.get s))
  | .alu op d a b => h.set d (op.eval (h.get a) (h.get b))
  | .aluImm op d a v => h.set d (op.eval (h.get a) v)
  | .aluW op d a b sh => h.set d ((op.eval (lo (h.get a)) (lo (h.get b) <<< sh)).setWidth 64)
  | .addImmW d a v => h.set d ((lo (h.get a) + v).setWidth 64)
  | .subImmW d a v => h.set d ((lo (h.get a) - v).setWidth 64)
  | .lslImmW d a sh => h.set d ((lo (h.get a) <<< sh).setWidth 64)
  | .ubfx d s lsb width => h.set d ((h.get s >>> lsb) &&& ones width)
  | .ubfiz d s lsb width => h.set d ((h.get s &&& ones width) <<< lsb)
  | .cmp a b => { h with flags := subFlags (h.get a) (h.get b) }
  | .cmpImm a v => { h with flags := subFlags (h.get a) v }
  | .tst a b => { h with flags := logicFlags (h.get a &&& h.get b) }
  | .tstImm a v => { h with flags := logicFlags (h.get a &&& v) }
  | .csel d a b cc => h.set d (if cc.holds h.flags then h.get a else h.get b)
  | .cset d cc => h.set d (if cc.holds h.flags then 1 else 0)
  | .ldr d slot => h.set d (h.r slot)
  | .ldrW d slot => h.set d ((lo (h.r slot)).setWidth 64)
  | .str s slot => { h with r := Function.update h.r slot (h.get s) }
  | .ldrTable d base index =>
    h.set d (if h.get base = table ∧ h.get index < 256 then zapnotMask (h.get index)
      else elsewhere (h.get base + h.get index <<< 3))

/-- Straight-line code. -/
def run (table : Word) (elsewhere : Word → Word) (code : List Instr) (h : Host) : Host :=
  code.foldl (step table elsewhere) h

end Alphabox.Jit
