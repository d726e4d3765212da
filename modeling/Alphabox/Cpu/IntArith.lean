import Mathlib.Logic.Function.Basic
import Alphabox.Fp.Spec

/-!
# Integer operates with overflow (`cpu/cpu_arith.hpp`)

The `/V` forms of add, subtract and multiply, and UMULH. The registers are the 64 of the state: an
instruction's fields name the first 32, and in PALmode some of them the shadow registers after
these. An operand is read before the destination is written, which may be the same register.
-/

namespace Alphabox.Cpu

open Fp

/-- What an integer operate reads and writes: the registers, what their names depend on (PALmode
and `sde`), and the state of the arithmetic trap. -/
structure IntState extends FpState where
  r : BitVec 6 → Word
  palMode : Bool
  sde : Bool

namespace IntState

variable (s : IntState) (ins : Ins)

/-! ## Operands -/

/-- `pal_off_a`. -/
def palOffA (a : BitVec 5) : BitVec 6 :=
  if a &&& 0xc = 0x4 ∧ s.sde then 32
  else if s.ev8n ∧ a &&& 0x1e = 24 then 32 else 0

/-- `pal_off_b`. -/
def palOffB (a : BitVec 5) : BitVec 6 :=
  if a &&& 0xc = 0x4 ∧ s.sde then 32
  else if s.ev8n ∧ a &&& 0x1e = 22 then 34 else 0

/-- `RREG_A`. -/
def rregA (a : BitVec 5) : BitVec 6 := a.setWidth 6 + if s.palMode then s.palOffA a else 0

/-- `RREG_B`. -/
def rregB (a : BitVec 5) : BitVec 6 := a.setWidth 6 + if s.palMode then s.palOffB a else 0

/-- `RAV`. -/
def rav : Word := s.r (s.rregA (ins.extractLsb' 21 5))

/-- `RBV`: a literal or a register. -/
def rbv : Word :=
  if ins &&& 0x1000 ≠ 0 then ((ins >>> 13) &&& 0xff).setWidth 64
  else s.r (s.rregB (ins.extractLsb' 16 5))

/-- `RC`. -/
def rc : BitVec 6 := s.rregA (ins.extractLsb' 0 5)

/-- `RCV = v`. -/
def setRcv (v : Word) : IntState := { s with r := Function.update s.r (s.rc ins) v }

/-- `ARITH_TRAP_I`. -/
def arithTrapI (flags : Word) : IntState :=
  { s with toFpState := arithTrap { s.toFpState with excSum := 0 } (trapInt ||| flags) ins }

/-- The end of a `/V` form: the trap, except into R31. -/
def trapIf (test : Prop) [Decidable test] : IntState :=
  if s.rc ins ≠ 31 ∧ test then s.arithTrapI ins trapIov else s

end IntState

/-! ## Arithmetic -/

/-- `sext_u64_32`. -/
def sextU64L (a : Word) : Word := (a.setWidth 32).signExtend 64

/-- `Q_SIGN`. -/
def qSign : Word := 0x8000000000000000

/-- `L_SIGN`. -/
def lSign : Word := 0x80000000

/-- `X64_LONG`. -/
def x64Long : Word := 0xffffffff

/-- The additions of the portable path of `uemul64`: the middle products go to both words, and each
carry out of the low one to the high one. -/
def addMiddle (rhi rmid1 rmid2 rlo : Word) : Word × Word :=
  let rhi := rhi + ((rmid1 >>> 32) &&& x64Long) + ((rmid2 >>> 32) &&& x64Long)
  let rmid1 := rmid1 <<< 32
  let rmid2 := rmid2 <<< 32
  let rlo := rlo + rmid1
  let rhi := if rlo < rmid1 then rhi + 1 else rhi
  let rlo := rlo + rmid2
  let rhi := if rlo < rmid2 then rhi + 1 else rhi
  (rlo, rhi)

/-- The portable path of `uemul64`: low and high word. -/
def uemul64Portable (a b : Word) : Word × Word :=
  let ahi := (a >>> 32) &&& x64Long
  let alo := a &&& x64Long
  let bhi := (b >>> 32) &&& x64Long
  let blo := b &&& x64Long
  addMiddle (ahi * bhi) (ahi * blo) (alo * bhi) (alo * blo)

section

variable (s : IntState) (ins : Ins)

/-! ## The instructions -/

/-- `DO_ADDQ_V`. -/
def doAddqV : IntState :=
  let rav := s.rav ins
  let rbv := s.rbv ins
  let rcv := rav + rbv
  (s.setRcv ins rcv).trapIf ins ((~~~rav ^^^ rbv) &&& (rav ^^^ rcv) &&& qSign ≠ 0)

/-- `DO_ADDL_V`. -/
def doAddlV : IntState :=
  let rav := s.rav ins
  let rbv := s.rbv ins
  let rcv := sextU64L (rav + rbv)
  (s.setRcv ins rcv).trapIf ins ((~~~rav ^^^ rbv) &&& (rav ^^^ rcv) &&& lSign ≠ 0)

/-- `DO_SUBQ_V`. -/
def doSubqV : IntState :=
  let rav := s.rav ins
  let rbv := s.rbv ins
  let rcv := rav - rbv
  (s.setRcv ins rcv).trapIf ins ((rav ^^^ rbv) &&& (rav ^^^ rcv) &&& qSign ≠ 0)

/-- `DO_SUBL_V`. -/
def doSublV : IntState :=
  let rav := s.rav ins
  let rbv := s.rbv ins
  let rcv := sextU64L (rav - rbv)
  (s.setRcv ins rcv).trapIf ins ((rav ^^^ rbv) &&& (rav ^^^ rcv) &&& lSign ≠ 0)

/-- `DO_MULL_V`. -/
def doMullV : IntState :=
  let rav := s.rav ins
  let rbv := s.rbv ins
  let sr := sextU64L rav * sextU64L rbv
  let rcv := sextU64L sr
  (s.setRcv ins rcv).trapIf ins ((rcv ^^^ sr) &&& 0xffffffff00000000 ≠ 0)

/-- `DO_MULQ_V` over a 64 by 64 bit product. -/
def doMulqV (uemul64 : Word → Word → Word × Word) : IntState :=
  let rav := s.rav ins
  let rbv := s.rbv ins
  let (rcv, t64) := uemul64 rav rbv
  let t64 := if rav.msb then t64 - rbv else t64
  let t64 := if rbv.msb then t64 - rav else t64
  (s.setRcv ins rcv).trapIf ins (if rcv.msb then t64 ≠ 0xffffffffffffffff else t64 ≠ 0)

/-- `DO_UMULH` over a 64 by 64 bit product. -/
def doUmulh (uemul64 : Word → Word → Word × Word) : IntState :=
  s.setRcv ins (uemul64 (s.rav ins) (s.rbv ins)).2

/-! ## Exact arithmetic -/

/-- What an operate with the exact result `x` in `w` bits leaves: the residue in its destination
and, unless that is R31, the integer overflow exception (bits 6 and 7 of a new summary) when the
result is not a signed integer of that width. -/
structure Delivered (w : Nat) (x : Int) (s' : IntState) : Prop where
  value : s'.r = Function.update s.r (s.rc ins) ((BitVec.ofInt w x).signExtend 64)
  trap : s.rc ins ≠ 31 → Outside (w - 1) x →
    Raised { s.toFpState with excSum := 0 } ins (fun i => i = 6 ∨ i = 7) s'.toFpState
  quiet : s.rc ins = 31 ∨ ¬Outside (w - 1) x → s'.toFpState = s.toFpState
  modes : s'.palMode = s.palMode ∧ s'.sde = s.sde

end

end Alphabox.Cpu
