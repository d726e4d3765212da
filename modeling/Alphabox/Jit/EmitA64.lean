import Alphabox.Cpu.Operate
import Alphabox.Jit.A64

/-!
# Compiling integer instructions (`jit/jitengine.cpp`, `jit/jitemit_a64.hpp`)

`classify` says which instructions a block may hold, and `emitOp` what is emitted for one. Up to
sixteen guest registers are pinned to host registers for a whole chain of blocks; the others are in
memory. `x0` may still hold the guest register that the instruction before computed, and what is
emitted next says so.
-/

namespace Alphabox.Jit

open Fp Cpu

/-- A guest register as an instruction names it. -/
abbrev GReg := BitVec 5

/-! ## Classification -/

/-- `SafeOp`, its integer instructions. -/
inductive SafeOp
  | addq | subq | addl | subl | s4addq | s8addq | s4subq | s8subq | s4addl | s8addl | s4subl
  | s8subl | cmpbge | sextb | sextw | ctpop | ctlz | cttz
  | and | bis | xor | bic | ornot | eqv | cmov | cmov2 | amask | implver
  | cmpeq | cmplt | cmple | cmpult | cmpule
  | sll | srl | sra | mulq | mull | umulh
  | extl | exth | insl | insh | mskl | mskh | zap
  | lda | ldah | jmp
  | beq | bne | blt | ble | bgt | bge | blbc | blbs | br | bsr
  deriving DecidableEq

/-- The processor row's extensions: `CPU_EXT_EV8` and `kExtNative8`. -/
structure Ext where
  ev8 : Bool
  native8 : Bool

/-- `classify` on opcode 10. -/
def classifyInta (func : Nat) : Option SafeOp :=
  match func with
  | 0x20 => some .addq
  | 0x29 => some .subq
  | 0x00 => some .addl
  | 0x09 => some .subl
  | 0x22 => some .s4addq
  | 0x32 => some .s8addq
  | 0x2b => some .s4subq
  | 0x3b => some .s8subq
  | 0x02 => some .s4addl
  | 0x12 => some .s8addl
  | 0x0b => some .s4subl
  | 0x1b => some .s8subl
  | 0x0f => some .cmpbge
  | 0x2d => some .cmpeq
  | 0x4d => some .cmplt
  | 0x6d => some .cmple
  | 0x1d => some .cmpult
  | 0x3d => some .cmpule
  | _ => none

/-- `classify` on opcode 11. -/
def classifyIntl (ext : Ext) (ra : GReg) (func : Nat) : Option SafeOp :=
  match func with
  | 0x00 => some .and
  | 0x20 => some .bis
  | 0x40 => some .xor
  | 0x08 => some .bic
  | 0x28 => some .ornot
  | 0x48 => some .eqv
  | 0x14 | 0x16 | 0x24 | 0x26 | 0x44 | 0x46 | 0x64 | 0x66 => some .cmov
  | 0x61 => if ra ≠ 31 then none else some .amask
  | 0x68 => if ext.ev8 then some .cmov2 else none
  | 0x6c => some .implver
  | _ => none

/-- `classify` on opcode 12. -/
def classifyInts (func : Nat) : Option SafeOp :=
  match func with
  | 0x39 => some .sll
  | 0x34 => some .srl
  | 0x3c => some .sra
  | 0x06 | 0x16 | 0x26 | 0x36 => some .extl
  | 0x5a | 0x6a | 0x7a => some .exth
  | 0x0b | 0x1b | 0x2b | 0x3b => some .insl
  | 0x57 | 0x67 | 0x77 => some .insh
  | 0x02 | 0x12 | 0x22 | 0x32 => some .mskl
  | 0x52 | 0x62 | 0x72 => some .mskh
  | 0x30 | 0x31 => some .zap
  | _ => none

/-- `classify` on opcode 13. -/
def classifyIntm (func : Nat) : Option SafeOp :=
  match func with
  | 0x20 => some .mulq
  | 0x00 => some .mull
  | 0x30 => some .umulh
  | _ => none

/-- `classify` on opcode 1C. -/
def classifyFpti (func : Nat) : Option SafeOp :=
  match func with
  | 0x00 => some .sextb
  | 0x01 => some .sextw
  | 0x32 => some .ctlz
  | 0x33 => some .cttz
  | 0x30 => some .ctpop
  | _ => none

/-- The fields of an instruction. -/
def opcodeOf (ins : Ins) : Nat := (ins >>> 26).toNat

def funcOf (ins : Ins) : Nat := ((ins >>> 5) &&& 0x7f).toNat

def raOf (ins : Ins) : GReg := ins.extractLsb' 21 5

def rbOf (ins : Ins) : GReg := ins.extractLsb' 16 5

def rcOf (ins : Ins) : GReg := ins.extractLsb' 0 5

/-- The second operand is a literal. -/
def isLit (ins : Ins) : Bool := ins &&& 0x1000 != 0

def litOf (ins : Ins) : Word := ((ins >>> 13) &&& 0xff).setWidth 64

/-- `classify` on the integer instructions. -/
def classify (ext : Ext) (ins : Ins) : Option SafeOp :=
  match opcodeOf ins with
  | 0x08 => some .lda
  | 0x09 => some .ldah
  | 0x10 => classifyInta (funcOf ins)
  | 0x11 => classifyIntl ext (raOf ins) (funcOf ins)
  | 0x12 => classifyInts (funcOf ins)
  | 0x13 => classifyIntm (funcOf ins)
  | 0x1a => if ext.native8 then none else some .jmp
  | 0x1c => classifyFpti (funcOf ins)
  | 0x30 => some .br
  | 0x34 => some .bsr
  | 0x38 => some .blbc
  | 0x39 => some .beq
  | 0x3a => some .blt
  | 0x3b => some .ble
  | 0x3c => some .blbs
  | 0x3d => some .bne
  | 0x3e => some .bge
  | 0x3f => some .bgt
  | _ => none

/-- `is_branch`. -/
def isBranch (op : SafeOp) : Bool :=
  match op with
  | .beq | .bne | .blt | .ble | .bgt | .bge | .blbc | .blbs | .br | .bsr => true
  | _ => false

/-- `is_terminator`. -/
def isTerminator (op : SafeOp) : Bool := op == .jmp || isBranch op

/-! ## Registers -/

/-- `kA64PinHost`. -/
def pinHosts : List XReg := [21, 22, 23, 24, 25, 26, 20, 28, 4, 5, 6, 7, 8, 13, 14, 15]

/-- A pin set: the guest register of each slot. No register has two slots, and R31 has none. -/
structure Pins where
  /-- `m_pin_guest`. -/
  guest : List (Option GReg)
  slots : guest.length = pinHosts.length
  distinct : guest.Pairwise fun a b => a = none ∨ a ≠ b
  no31 : some 31 ∉ guest

namespace Pins

variable (pins : Pins)

/-- The slots with their host registers. -/
def table : List (Option GReg × XReg) := pins.guest.zip pinHosts

/-- `ra.host`, as `a64_regalloc` fills it in. -/
def host (r : GReg) : Option XReg :=
  pins.table.foldl (fun p slot => if slot.1 = some r then some slot.2 else p) none

end Pins

/-- What the code of a block depends on. -/
structure Emit where
  /-- `pal_block`. -/
  pal : Bool
  pins : Pins
  /-- `is_logical_imm`. -/
  logicalImm : Word → Bool
  /-- The address of `g_zapnot_mask`. -/
  table : Word
  model : ModelId
  ext : Ext

/-- `a64_shadow_reg`: R4 to R7 and R20 to R23. -/
def shadowReg (r : GReg) : Bool := decide (r < 24) && r &&& 0xc == 4

namespace Emit

variable (E : Emit)

/-- `host_of`, as `a64_regalloc` sets it up. -/
def hostOf (r : GReg) : Option XReg := if E.pal && shadowReg r then none else E.pins.host r

/-- `reg`: where a register is in memory, its shadow in a PAL block. -/
def slotOf (r : GReg) : BitVec 6 :=
  if E.pal && r &&& 0xc == 4 then r.setWidth 6 + 32 else r.setWidth 6

end Emit

/-! ## Operands and results -/

/-- What is emitted for an instruction, and the guest register that `x0` holds after it. -/
structure Emitted where
  code : List Instr
  holds : Option GReg

section

variable (E : Emit) (prev : Option GReg) (ins : Ins)

/-- `mov_from_reg`. -/
def movFromReg (d : XReg) (r : GReg) : List Instr :=
  match E.hostOf r with
  | some p => [.unary .mov d p]
  | none => [.ldr d (E.slotOf r)]

/-- `mov_from_reg32`. -/
def movFromReg32 (d : XReg) (r : GReg) : List Instr :=
  match E.hostOf r with
  | some p => [.unary .movW d p]
  | none => [.ldrW d (E.slotOf r)]

/-- `mov_to_reg`. -/
def movToReg (r : GReg) (src : XReg) : Emitted where
  code :=
    match E.hostOf r with
    | some p => [.unary .mov p src]
    | none => [.str src (E.slotOf r)]
  holds := if src = 0 ∧ r ≠ 31 then some r else none

/-- `op1_x0`. -/
def op1X0 : List Instr :=
  if raOf ins ≠ 31 ∧ prev = some (raOf ins) then []
  else if raOf ins = 31 then [.movImm 0 0]
  else movFromReg E 0 (raOf ins)

/-- `op2_x1`. -/
def op2X1 : List Instr :=
  if isLit ins then [.movImm 1 (litOf ins)]
  else if rbOf ins = 31 then [.movImm 1 0]
  else movFromReg E 1 (rbOf ins)

/-- `src_reg`: the register that holds `r`, once the code has run. -/
def srcReg (r : GReg) (scratch : XReg) (mayForward : Bool) : List Instr × XReg :=
  if r = 31 then ([.movImm scratch 0], scratch)
  else if mayForward ∧ prev = some r then ([], 0)
  else
    match E.hostOf r with
    | some p => ([], p)
    | none => ([.ldr scratch (E.slotOf r)], scratch)

/-- `op1_src`. -/
def op1Src : List Instr × XReg := srcReg E prev (raOf ins) 0 true

/-- `op2_src`. -/
def op2Src : List Instr × XReg := srcReg E prev (rbOf ins) 1 false

/-- `dst_reg`. -/
def dstReg (r : GReg) : XReg := if r = 31 then 0 else (E.hostOf r).getD 0

/-- Code that leaves a value for `r` in `d`, its `dst_reg`, and `dst_done`. -/
def dstDone (r : GReg) (d : XReg) (code : List Instr) : Emitted :=
  if d = 0 ∧ r ≠ 31 then
    { code := code ++ (movToReg E r 0).code, holds := (movToReg E r 0).holds }
  else { code, holds := none }

/-- `rc_dst` and `rc_done` around code that leaves its value in the register it is given. -/
def rcDone (code : XReg → List Instr) : Emitted :=
  dstDone E (rcOf ins) (dstReg E (rcOf ins)) (code (dstReg E (rcOf ins)))

/-- Code that leaves its value in `x0`, and what ends `emit_op`. -/
def rcX0 (code : List Instr) : Emitted :=
  if rcOf ins ≠ 31 then
    { code := code ++ (movToReg E (rcOf ins) 0).code, holds := (movToReg E (rcOf ins) 0).holds }
  else { code, holds := none }

/-! ## Byte manipulation -/

/-- The size of a byte manipulation, 0 to 3, from its function. -/
def bwxSize : Nat := (funcOf ins >>> 4) &&& 3

/-- Its bits. -/
def bwxBits : Nat := match bwxSize ins with | 0 => 8 | 1 => 16 | 2 => 32 | _ => 64

/-- Its mask. -/
def bwxMask : Word := if bwxSize ins = 3 then 0xffffffffffffffff else (1 : Word) <<< bwxBits ins - 1

/-- `and_const`: `d = s & m` for a constant `m`. -/
def andConst (s d : XReg) (m : Word) : List Instr :=
  if m = 0 then [.movImm d 0]
  else if m = 0xffffffffffffffff then (if d ≠ s then [.unary .mov d s] else [])
  else if E.logicalImm m then [.aluImm .and d s m]
  else [.movImm 9 m, .alu .and d s 9]

/-- A byte manipulation by a literal, from `s` to `d`. -/
def bwxLit (op : SafeOp) (s d : XReg) : List Instr :=
  let pos := (litOf ins &&& 7).toNat
  let mbits := bwxBits ins
  let mask := bwxMask ins
  match op with
  | .extl =>
    let sh := pos * 8
    let w := min mbits (64 - sh)
    if sh = 0 ∧ w = 64 then (if d ≠ s then [.unary .mov d s] else []) else [.ubfx d s sh w]
  | .exth =>
    let sh := (64 - pos * 8) % 64
    if sh = 0 then andConst E s d mask
    else if mbits ≤ sh then [.movImm d 0]
    else [.ubfiz d s sh (mbits - sh)]
  | .insl =>
    let sh := pos * 8
    let w := min mbits (64 - sh)
    if sh = 0 ∧ w = 64 then (if d ≠ s then [.unary .mov d s] else []) else [.ubfiz d s sh w]
  | .insh =>
    let sh := 64 - pos * 8
    if pos = 0 ∨ mbits ≤ sh then [.movImm d 0] else [.ubfx d s sh (mbits - sh)]
  | .mskl => andConst E s d (~~~(mask <<< (pos * 8)))
  | .mskh =>
    andConst E s d (if pos ≠ 0 then ~~~(mask >>> (64 - pos * 8)) else 0xffffffffffffffff)
  | _ =>
    let m := zapnotMask (litOf ins &&& 0xff)
    andConst E s d (if funcOf ins = 0x30 then ~~~m else m)

/-- A byte manipulation by a register `s2`, from `s1` to `d`. -/
def bwxReg (op : SafeOp) (s1 s2 d : XReg) : List Instr :=
  let size := bwxSize ins
  let mask := bwxMask ins
  let trunc : List Instr := if size ≠ 3 then [.aluImm .and d d mask] else []
  match op with
  | .extl => [.aluImm .lsl 9 s2 3, .alu .lsr d s1 9] ++ trunc
  | .exth => [.aluImm .lsl 9 s2 3, .unary .neg 9 9, .alu .lsl d s1 9] ++ trunc
  | .insl =>
    .aluImm .lsl 9 s2 3 ::
      if size ≠ 3 then [.aluImm .and 10 s1 mask, .alu .lsl d 10 9] else [.alu .lsl d s1 9]
  | .insh =>
    [.aluImm .lsl 9 s2 3, .unary .neg 9 9] ++
      (if size ≠ 3 then [.aluImm .and 10 s1 mask, .alu .lsr 10 10 9]
        else [.alu .lsr 10 s1 9]) ++
      [.tstImm s2 7, .csel d 10 31 .ne]
  | .mskl => [.aluImm .lsl 9 s2 3, .movImm 10 mask, .alu .lsl 10 10 9, .alu .bic d s1 10]
  | .mskh =>
    [.aluImm .lsl 9 s2 3, .unary .neg 9 9, .movImm 10 mask, .alu .lsr 10 10 9,
      .alu .bic 10 s1 10, .tstImm s2 7, .csel d 10 s1 .ne]
  | _ =>
    [.aluImm .and 9 s2 0xff, .movImm 10 E.table, .ldrTable 9 10 9] ++
      (if funcOf ins = 0x30 then [.unary .mvn 9 9] else []) ++ [.alu .and d s1 9]

/-- EXT, INS, MSK and ZAP. -/
def emitBwx (op : SafeOp) : Emitted :=
  if rcOf ins = 31 then ⟨[], none⟩
  else
    let s1 := op1Src E prev ins
    if isLit ins then rcDone E ins fun d => s1.1 ++ bwxLit E ins op s1.2 d
    else
      let s2 := op2Src E prev ins
      rcDone E ins fun d => s1.1 ++ s2.1 ++ bwxReg E ins op s1.2 s2.2 d

/-! ## The other operates -/

/-- The literal as an immediate of a binary operate, where it can be one. -/
def binopImm (kind : AluOp) : Option (AluImmOp × Word) :=
  let v := litOf ins
  let logical (op : AluImmOp) (v : Word) := if E.logicalImm v then some (op, v) else none
  match kind with
  | .add => some (.add, v)
  | .sub => some (.sub, v)
  | .and => logical .and v
  | .bic => logical .and (~~~v)
  | .orr => logical .orr v
  | .orn => logical .orr (~~~v)
  | .eor => logical .eor v
  | .eon => logical .eor (~~~v)
  | _ => none

/-- `binop`. -/
def binop (kind : AluOp) : Emitted :=
  let s1 := op1Src E prev ins
  if isLit ins then
    match binopImm E ins kind with
    | some (op, v) => rcDone E ins fun d => s1.1 ++ [.aluImm op d s1.2 v]
    | none => rcDone E ins fun d => s1.1 ++ [.movImm 1 (litOf ins), .alu kind d s1.2 1]
  else
    let s2 := op2Src E prev ins
    rcDone E ins fun d => s1.1 ++ s2.1 ++ [.alu kind d s1.2 s2.2]

/-- BIS with Ra = R31, a move. -/
def emitMove : Emitted :=
  let rb := rbOf ins
  rcDone E ins fun d =>
    if isLit ins then [.movImm d (litOf ins)]
    else if rb = 31 then [.movImm d 0]
    else
      match E.hostOf rb with
      | some p => if p ≠ d then [.unary .mov d p] else []
      | none =>
        if prev = some rb then (if d = 0 then [] else [.unary .mov d 0])
        else [.ldr d (E.slotOf rb)]

/-- The longword sum or difference of `s1`, shifted, and a literal, extended to `d`. -/
def longLit (sh : Nat) (issub : Bool) (lit : BitVec 32) (s1 d : XReg) : List Instr :=
  let base : XReg := if sh ≠ 0 then 0 else s1
  let shift : List Instr := if sh ≠ 0 then [.lslImmW 0 s1 sh] else []
  shift ++ [if issub then .subImmW 0 base lit else .addImmW 0 base lit, .unary .sxtw d 0]

/-- The longword sum or difference of `s1`, shifted, and `s2`, extended to `d`. -/
def longReg (sh : Nat) (issub : Bool) (s1 s2 d : XReg) : List Instr :=
  if issub then
    if sh ≠ 0 then [.lslImmW 0 s1 sh, .aluW .sub 0 0 s2 0, .unary .sxtw d 0]
    else [.aluW .sub 0 s1 s2 0, .unary .sxtw d 0]
  else if sh ≠ 0 then [.aluW .add 0 s2 s1 sh, .unary .sxtw d 0]
  else [.aluW .add 0 s1 s2 0, .unary .sxtw d 0]

/-- The longword `s1`, shifted, extended to `d`. -/
def longShift (sh : Nat) (s1 d : XReg) : List Instr :=
  if sh ≠ 0 then [.lslImmW 0 s1 sh, .unary .sxtw d 0] else [.unary .sxtw d s1]

/-- ADDL, SUBL and their scaled forms: the shift of the first operand, and whether to subtract. -/
def emitLong (sh : Nat) (issub : Bool) : Emitted :=
  let s1 := op1Src E prev ins
  let s2 := op2Src E prev ins
  if rcOf ins = 31 then ⟨[], none⟩
  else if raOf ins = 31 ∧ issub = false then
    rcDone E ins fun d =>
      if isLit ins then [.movImm d (litOf ins)]
      else if rbOf ins = 31 then [.movImm d 0]
      else s2.1 ++ [.unary .sxtw d s2.2]
  else if raOf ins ≠ 31 ∧ isLit ins = false ∧ rbOf ins = 31 then
    rcDone E ins fun d => s1.1 ++ longShift sh s1.2 d
  else if isLit ins then
    rcDone E ins fun d => s1.1 ++ longLit sh issub (lo (litOf ins)) s1.2 d
  else
    rcDone E ins fun d => s1.1 ++ s2.1 ++ longReg sh issub s1.2 s2.2 d

/-- MULL. -/
def emitMull : Emitted :=
  rcX0 E ins
    ((if raOf ins = 31 then [.movImm 0 0] else movFromReg32 E 0 (raOf ins)) ++
      (if isLit ins then [.movImm 1 (litOf ins)]
        else if rbOf ins = 31 then [.movImm 1 0] else movFromReg32 E 1 (rbOf ins)) ++
      [.aluW .mul 0 0 1 0, .unary .sxtw 0 0])

/-- An operate whose operands are in `x0` and `x1`. -/
def emitX0X1 (code : List Instr) : Emitted := rcX0 E ins (op1X0 E prev ins ++ op2X1 E ins ++ code)

/-- An operate on the second operand, in `x1`. -/
def emitX1 (code : List Instr) : Emitted := rcX0 E ins (op2X1 E ins ++ code)

/-- `S4ADDQ` and the other scaled quadwords: the scale is applied before the second operand is
fetched. -/
def emitScaled (sh : Word) (kind : AluOp) : Emitted :=
  rcX0 E ins (op1X0 E prev ins ++ [.aluImm .lsl 0 0 sh] ++ op2X1 E ins ++ [.alu kind 0 0 1])

/-- The compares. -/
def emitCompare (cc : CondCode) : Emitted :=
  let s1 := op1Src E prev ins
  if isLit ins then rcDone E ins fun d => s1.1 ++ [.cmpImm s1.2 (litOf ins), .cset d cc]
  else
    let s2 := op2Src E prev ins
    rcDone E ins fun d => s1.1 ++ s2.1 ++ [.cmp s1.2 s2.2, .cset d cc]

/-- The condition that a CMOV's function tests, of the flags of its register with itself or with
1. -/
def cmovCond : CondCode :=
  match funcOf ins with
  | 0x24 => .eq
  | 0x16 => .eq
  | 0x26 => .ne
  | 0x14 => .ne
  | 0x44 => .lt
  | 0x46 => .ge
  | 0x64 => .le
  | _ => .gt

/-- CMOV. -/
def emitCmov : Emitted :=
  if rcOf ins = 31 then ⟨[], none⟩
  else
    let code := op1X0 E prev ins ++ op2X1 E ins ++ movFromReg E 9 (rcOf ins) ++
      [if funcOf ins = 0x14 ∨ funcOf ins = 0x16 then .tstImm 0 1 else .tst 0 0,
        .csel 9 1 9 (cmovCond ins)]
    { code := code ++ (movToReg E (rcOf ins) 9).code, holds := (movToReg E (rcOf ins) 9).holds }

/-- CTPOP of `x1`: pairs, nibbles and bytes in place, then their sum. -/
def ctpopCode : List Instr :=
  [.aluImm .lsr 9 1 1, .aluImm .and 9 9 0x5555555555555555, .alu .sub 1 1 9,
    .aluImm .and 9 1 0x3333333333333333, .aluImm .lsr 1 1 2,
    .aluImm .and 1 1 0x3333333333333333, .alu .add 1 1 9, .aluImm .lsr 9 1 4, .alu .add 1 1 9,
    .aluImm .and 1 1 0x0f0f0f0f0f0f0f0f, .movImm 9 0x0101010101010101, .alu .mul 1 1 9,
    .aluImm .lsr 0 1 56]

/-- CMPBGE of `x0` and `x1`, byte by byte in place. -/
def cmpbgeCode : List Instr :=
  [.movImm 10 0x8080808080808080, .alu .orr 11 0 10, .alu .bic 12 1 10, .alu .sub 11 11 12,
    .alu .eor 12 0 1, .alu .bic 11 11 12, .alu .bic 12 0 1, .alu .orr 11 11 12, .alu .and 11 11 10,
    .aluImm .lsr 11 11 7, .movImm 12 0x0102040810204080, .alu .mul 11 11 12, .aluImm .lsr 0 11 56]

/-- `a64_add_imm`: `d = s + v`. -/
def addImm (d s : XReg) (v : Word) : List Instr :=
  if v.sle 4095 ∧ (0 : Word).sle v then [.aluImm .add d s v]
  else if (-4095 : Word).sle v ∧ v.slt 0 then [.aluImm .sub d s (-v)]
  else [.movImm 17 v, .alu .add d s 17]

/-- LDA and LDAH of the displacement `v`. -/
def emitLda (v : Word) : Emitted :=
  let ra := raOf ins
  let rb := rbOf ins
  let d := dstReg E ra
  if ra = 31 then ⟨[], none⟩
  else if rb = 31 then dstDone E ra d [.movImm d v]
  else
    let s := srcReg E prev rb 0 true
    dstDone E ra d (s.1 ++
      if v ≠ 0 then addImm d s.2 v else if s.2 ≠ d then [.unary .mov d s.2] else [])

/-! ## One instruction -/

/-- `emit_op`, of the instructions that are neither branches nor jumps. -/
def emitOp (op : SafeOp) : Emitted :=
  match op with
  | .lda => emitLda E prev ins (disp16 ins)
  | .ldah => emitLda E prev ins (disp16 ins * 65536)
  | .extl | .exth | .insl | .insh | .mskl | .mskh | .zap => emitBwx E prev ins op
  | .cmov => emitCmov E prev ins
  | .bis => if raOf ins = 31 then emitMove E prev ins else binop E prev ins .orr
  | .addl => emitLong E prev ins 0 false
  | .subl => emitLong E prev ins 0 true
  | .s4addl => emitLong E prev ins 2 false
  | .s8addl => emitLong E prev ins 3 false
  | .s4subl => emitLong E prev ins 2 true
  | .s8subl => emitLong E prev ins 3 true
  | .addq => binop E prev ins .add
  | .subq => binop E prev ins .sub
  | .and => binop E prev ins .and
  | .xor => binop E prev ins .eor
  | .bic => binop E prev ins .bic
  | .ornot => binop E prev ins .orn
  | .eqv => binop E prev ins .eon
  | .mulq => binop E prev ins .mul
  | .umulh => binop E prev ins .umulh
  | .mull => emitMull E ins
  | .s4addq => emitScaled E prev ins 2 .add
  | .s8addq => emitScaled E prev ins 3 .add
  | .s4subq => emitScaled E prev ins 2 .sub
  | .s8subq => emitScaled E prev ins 3 .sub
  | .sll => emitX0X1 E prev ins [.alu .lsl 0 0 1]
  | .srl => emitX0X1 E prev ins [.alu .lsr 0 0 1]
  | .sra => emitX0X1 E prev ins [.alu .asr 0 0 1]
  | .sextb => emitX1 E ins [.unary .sxtb 0 1]
  | .sextw => emitX1 E ins [.unary .sxth 0 1]
  | .ctpop => emitX1 E ins ctpopCode
  | .ctlz => emitX1 E ins [.unary .clz 0 1]
  | .cttz => emitX1 E ins [.unary .rbit 0 1, .unary .clz 0 0]
  | .amask => emitX1 E ins [.movImm 9 E.model.amask, .alu .bic 0 1 9]
  | .implver => rcX0 E ins [.movImm 0 E.model.implver]
  | .cmov2 => rcX0 E ins (op1X0 E prev ins)
  | .cmpeq => emitCompare E prev ins .eq
  | .cmplt => emitCompare E prev ins .lt
  | .cmple => emitCompare E prev ins .le
  | .cmpult => emitCompare E prev ins .lo
  | .cmpule => emitCompare E prev ins .ls
  | .cmpbge => emitX0X1 E prev ins cmpbgeCode
  | _ => ⟨[], none⟩

end

end Alphabox.Jit
