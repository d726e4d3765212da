import Alphabox.Jit.EmitA64

/-!
# Compiled blocks (`jit/jitengine.cpp`, `jit/jitemit_a64.hpp`)

`scan` takes the words of a block from the ones the dispatcher interpreted: a block ends at its
first terminator, but runs on through a conditional branch that was not taken. `emitFrom` puts the
emitted instructions together with the branch exits between them. An exit counts the instructions it
completes in `x27` and leaves for a guest PC; where the code goes on from there, a linked block or
the dispatcher, is not its own doing.
-/

namespace Alphabox.Jit

open Fp Cpu

/-- `is_ebb_branch`. -/
def isEbbBranch (op : SafeOp) : Bool := isBranch op && op != .br && op != .bsr

/-- The scan of `compile_block`: the compilable prefix, up to a terminator. A conditional branch is
one only if nothing follows it. -/
def scan (ext : Ext) : List Ins → List Ins
  | [] => []
  | w :: ws =>
    match classify ext w with
    | none => []
    | some op =>
      if isTerminator op && !(isEbbBranch op && !ws.isEmpty) then [w] else w :: scan ext ws

/-! ## Code with exits -/

/-- What sends control to `not_taken`. -/
inductive Test
  | cbz (x : XReg)
  | cbnz (x : XReg)
  | tbz (x : XReg) (bit : Nat)
  | tbnz (x : XReg) (bit : Nat)
  | flags (cc : CondCode)

def Test.holds (h : Host) : Test → Bool
  | .cbz x => h.get x == 0
  | .cbnz x => h.get x != 0
  | .tbz x bit => !(h.get x).getLsbD bit
  | .tbnz x bit => (h.get x).getLsbD bit
  | .flags cc => cc.holds h.flags

inductive Piece
  | code (l : List Instr)
  /-- Unless the test holds, run `l` and leave for `target`. -/
  | exit (t : Test) (l : List Instr) (target : Word)

inductive Exit
  | goto (target : Word)
  | branch (t : Test) (taken fall : Word)
  /-- To the PC in `x9`. -/
  | computed

/-- A block's code, and the guest PC that it leaves for. -/
def runBlock (table : Word) (elsewhere : Word → Word) : List Piece → Exit → Host → Host × Word
  | [], .goto target, h => (h, target)
  | [], .branch t taken fall, h => (h, if t.holds h then fall else taken)
  | [], .computed, h => (h, h.get 9)
  | .code l :: ps, e, h => runBlock table elsewhere ps e (run table elsewhere l h)
  | .exit t l target :: ps, e, h =>
    if t.holds h then runBlock table elsewhere ps e h else (run table elsewhere l h, target)

/-! ## Emission -/

section

variable (E : Emit) (tag : Word)

/-- `a64_count_add`. -/
def countAdd (n : Nat) : List Instr := addImm 27 27 (BitVec.ofNat 64 n)

/-- Where `emit_cond_test` finds the register: the code that fetches it, and what `x0` holds. -/
def condReg (prev : Option GReg) (ra : GReg) : List Instr × XReg × Option GReg :=
  if ra = 31 then ([.movImm 0 0], 0, prev)
  else
    match E.hostOf ra with
    | some p => ([], p, prev)
    | none => if prev = some ra then ([], 0, prev) else ([.ldr 0 (E.slotOf ra)], 0, some ra)

/-- The test of `emit_cond_test` on a register, and a compare before it. -/
def condTest (op : SafeOp) (xr : XReg) : List Instr × Test :=
  match op with
  | .beq => ([], .cbnz xr)
  | .bne => ([], .cbz xr)
  | .blt => ([], .tbz xr 63)
  | .bge => ([], .tbnz xr 63)
  | .blbc => ([], .tbnz xr 0)
  | .blbs => ([], .tbz xr 0)
  | .ble => ([.cmpImm xr 0], .flags .gt)
  | _ => ([.cmpImm xr 0], .flags .le)

/-- BR and BSR: the link. -/
def emitLink (ins : Ins) (fall : Word) : List Instr :=
  if raOf ins ≠ 31 then .movImm 9 (fall &&& ~~~3) :: (movToReg E (raOf ins) 9).code else []

/-- JMP: the target in `x9`, then the link. -/
def emitJmp (ins : Ins) (ret : Word) : List Instr :=
  (if rbOf ins = 31 then [.movImm 9 0] else movFromReg E 9 (rbOf ins)) ++
    [.aluImm .and 9 9 (~~~3)] ++
    (if tag &&& 3 ≠ 0 then [.aluImm .orr 9 9 (tag &&& 3)] else []) ++
    (if raOf ins ≠ 31 then .movImm 0 (ret &&& ~~~3) :: (movToReg E (raOf ins) 0).code else [])

/-- The address of the word `i`. -/
def addrOf (i : Nat) : Word := tag + 4 * BitVec.ofNat 64 i

/-- `assemble_block` from the word `i` on, with what `x0` holds there. -/
def emitFrom : Nat → Option GReg → List Ins → List Piece × Exit
  | i, _, [] => ([.code (countAdd i)], .goto (addrOf tag i))
  | i, prev, w :: ws =>
    let fall := addrOf tag (i + 1)
    let target := fall + disp21 w * 4
    match classify E.ext w with
    | none => ([.code (countAdd i)], .goto (addrOf tag i))
    | some .jmp => ([.code (emitJmp E tag w fall ++ countAdd (i + 1))], .computed)
    | some .br => ([.code (emitLink E w fall ++ countAdd (i + 1))], .goto target)
    | some .bsr => ([.code (emitLink E w fall ++ countAdd (i + 1))], .goto target)
    | some op =>
      if isBranch op then
        let (fetch, xr, holds) := condReg E prev (raOf w)
        let (cmp, test) := condTest op xr
        if ws.isEmpty then ([.code (countAdd (i + 1) ++ fetch ++ cmp)], .branch test target fall)
        else
          let rest := emitFrom (i + 1) holds ws
          (.code (fetch ++ cmp) :: .exit test (countAdd (i + 1)) target :: rest.1, rest.2)
      else
        let em := emitOp E prev w op
        let rest := emitFrom (i + 1) em.holds ws
        (.code em.code :: rest.1, rest.2)

end

/-- The block compiled for `tag` from the words there; PAL blocks have odd tags. -/
def assembleBlock (E : Emit) (tag : Word) (src : List Ins) : List Piece × Exit :=
  emitFrom { E with pal := tag.getLsbD 0 } tag 0 none (scan E.ext src)

/-! ## Entry and exit -/

/-- `a64_prologue`: the count, and the pins from memory. -/
def prologue (pins : Pins) : List Instr :=
  .movImm 27 0 :: pins.table.filterMap fun slot => slot.1.map fun r => .ldr slot.2 (r.setWidth 6)

/-- `a64_epilogue`: the pins to memory. -/
def epilogue (pins : Pins) : List Instr :=
  pins.table.filterMap fun slot => slot.1.map fun r => .str slot.2 (r.setWidth 6)

/-- `kA64CalleeSlots`: the slots whose registers a helper saves. -/
def kA64CalleeSlots : Nat := 8

/-- `a64_spill_pins`: the pins that a helper may overwrite, to memory. -/
def spillPins (pins : Pins) : List Instr :=
  (pins.table.drop kA64CalleeSlots).filterMap fun slot =>
    slot.1.map fun r => .str slot.2 (r.setWidth 6)

/-- `a64_reload_pins`. -/
def reloadPins (pins : Pins) : List Instr :=
  (pins.table.drop kA64CalleeSlots).filterMap fun slot =>
    slot.1.map fun r => .ldr slot.2 (r.setWidth 6)

/-- What a link from one block's code to the next leaves alone: the pins, the count and, of the
guest's registers in memory, those without a pin. -/
structure Linked (pins : Pins) (h h' : Host) : Prop where
  pinned : ∀ r p, (some r, p) ∈ pins.table → h'.get p = h.get p
  count : h'.get 27 = h.get 27
  memory : ∀ i, (∀ r p, (some r, p) ∈ pins.table → r.setWidth 6 ≠ i) → h'.r i = h.r i

/-- A chain of blocks, from the entry of the first to the exit of the last: `cache` has the words
that the block at a PC was compiled from. The number is that of blocks. -/
inductive Chain (E : Emit) (elsewhere : Word → Word) (cache : Word → Option (List Ins)) :
    Nat → Host × Word → Host × Word → Prop
  | leave (x : Host × Word) : Chain E elsewhere cache 0 x x
  | block {k : Nat} {h h' : Host} {pc : Word} {src : List Ins} {y : Host × Word} :
    cache pc = some src → scan E.ext src ≠ [] → Linked E.pins h h' →
    Chain E elsewhere cache k
      (runBlock E.table elsewhere (assembleBlock E pc src).1 (assembleBlock E pc src).2 h') y →
    Chain E elsewhere cache (k + 1) (h, pc) y

/-! ## The interpreter over the same words -/

/-- `n` instructions from the words at the PC. -/
def interp (m : ModelId) (fetch : Word → Ins) : Nat → IntState × Word → Option (IntState × Word)
  | 0, x => some x
  | n + 1, x =>
    match execute m uemul64 x.1 x.2 (fetch x.2) with
    | none => none
    | some y => interp m fetch n y

end Alphabox.Jit
