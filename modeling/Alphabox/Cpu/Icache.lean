import Alphabox.Cpu.Translate
import Mathlib.Algebra.GroupWithZero.Nat

/-!
# Instruction fetch (`cpu/AlphaCPU.hpp`, `cpu/AlphaCPU.cpp`)

A processor fetches through its instruction cache, 1024 lines of 512 instructions. A line is tagged
with its virtual address, which includes PALmode, with its address space and with the generation
it was filled in; a flush moves the generation on. While the processor runs straight on in a line,
a cursor reads the next instruction with no lookup. The lines are not kept up with memory: a flush
also counts `g_icache_flush`, which the other processors compare from time to time with what they
have seen of it, and then drop their lines as well.

A fetch ends with `next_pc`; what the instruction does then is an operation of its own. The path
without the cache is left out (`icache_enabled` is always true), and so are the code-page map and
the compiled blocks, which a flush also looks at.
-/

namespace Alphabox.Cpu

open Function (update)

def ICACHE_LINE_SIZE : Nat := 512

/-- The bits of an address that a line's tag has: bit 0 is PALmode. -/
def ICACHE_MATCH_MASK : BitVec 64 := 0xfffffffffffff801#64

def ICACHE_INDEX_MASK : BitVec 64 := 0x1ff#64

def ICACHE_BYTE_MASK : BitVec 64 := 0x7fc#64

/-- The offsets of the PALcode's entries for I-stream faults. -/
def IACV : BitVec 64 := 0x480#64

def ITB_MISS : BitVec 64 := 0x580#64

/-- The instruction at a physical address. -/
def insAt (mem : Nat → BitVec 8) (p : BitVec 64) : BitVec 32 :=
  mem (p + 3).toNat ++ mem (p + 2).toNat ++ mem (p + 1).toNat ++ mem p.toNat

/-- A line, `SICache`. -/
structure SICache where
  asn : Nat
  data : Nat → BitVec 32
  address : BitVec 64
  pAddress : BitVec 64
  asmBit : Bool
  valid : Bool
  gen : Nat
  /-- The modes that may execute the line. -/
  execModes : Fin 4 → Bool

/-- A processor as far as it fetches. The cursor is `seqLine` (the line `seq_line_ptr` points
to) to `seqNextPc`. -/
structure IFetch where
  cpu : AlphaCPU
  pc : BitVec 64
  pcPhys : BitVec 64
  palBase : BitVec 64
  icache : BitVec 10 → SICache
  icacheGen : Nat
  lastFoundIcache : BitVec 10
  icacheFlushSeen : Nat
  seqLine : BitVec 10
  seqOffset : Nat
  seqRemaining : Nat
  seqNextPc : BitVec 64

/-- The set of a fetch at `address`. -/
def icacheSet (address : BitVec 64) : BitVec 10 := ((address &&& ~~~3#64) >>> 11).setWidth 10

/-- The place of an instruction in its line. -/
def icacheWord (address : BitVec 64) : Nat := ((address >>> 2) &&& ICACHE_INDEX_MASK).toNat

namespace AlphaCPU

/-- The ASM bit that `virt2phys` reports for an I-stream translation. -/
def execAsm (c : AlphaCPU) (va : BitVec 64) : Bool :=
  match superpage (c.spe { exec := true }) va with
  | some _ => true
  | none =>
    match c.findTBEntry va .itb false with
    | (some i, c) => (c.tb .itb i).asmBit
    | (none, _) => false

/-- `icache_exec_modes`. -/
def icacheExecModes (c : AlphaCPU) (address vA : BitVec 64) : (Fin 4 → Bool) × AlphaCPU :=
  if address.getLsbD 0 then (fun _ => true, c)
  else
    match c.findTBEntry vA .itb false with
    | (some i, c) => (fun m => (c.tb .itb i).access 0 m, c)
    -- no entry to ask: this fetch only
    | (none, c) => (fun m => m == c.cm, c)

end AlphaCPU

/-- Whether a line's worth of memory at `pA` is DRAM, where `PtrToMem` has a pointer. -/
def InDram (memBits : Nat) (pA : BitVec 64) : Prop :=
  pA.toNat < 2 ^ memBits ∧ (pA + 2047).toNat < 2 ^ memBits

instance (memBits : Nat) (pA : BitVec 64) : Decidable (InDram memBits pA) :=
  inferInstanceAs (Decidable (_ ∧ _))

/-- The ITB has no entry for a superpage, and an I-stream translation leads to DRAM. -/
structure AlphaCPU.ExecOk (c : AlphaCPU) (memBits : Nat) (va : BitVec 64) : Prop where
  superpage : superpage (c.spe { exec := true }) va ≠ none → (c.findTBEntry va .itb false).1 = none
  dram : ∀ pA c', c.virt2phys va { exec := true } = (.ok pA, c') → InDram memBits pA

namespace IFetch

/-- `icache_line_hits`, the test of the fast probe. -/
def icacheLineHits (s : IFetch) (i : BitVec 10) (address : BitVec 64) : Bool :=
  (s.icache i).valid && (s.icache i).gen == s.icacheGen &&
    ((s.icache i).asn == s.cpu.asn || (s.icache i).asmBit) && (s.icache i).execModes s.cpu.cm &&
    (s.icache i).address == address &&& ICACHE_MATCH_MASK

/-- `set_pc`; `add_pc` does the same with a sum. -/
def setPc (s : IFetch) (pc : BitVec 64) : IFetch := { s with pc := pc, seqRemaining := 0 }

/-- `next_pc`. -/
def nextPc (s : IFetch) : IFetch := { s with pc := s.pc + 4, pcPhys := s.pcPhys + 4 }

/-- What is common to `flush_icache` and `honour_remote_icache_flush`: every line is dropped. -/
def dropLines (s : IFetch) (seen : Nat) : IFetch :=
  { s with
    icacheGen := s.icacheGen + 1
    lastFoundIcache := 0
    icacheFlushSeen := seen
    seqRemaining := 0 }

/-- `flush_icache`, given what it counts `g_icache_flush` to. -/
def flushIcache (s : IFetch) (count : Nat) : IFetch := s.dropLines count

/-- `honour_remote_icache_flush`. -/
def honourRemoteFlush (s : IFetch) (flushes : Nat) : IFetch :=
  if flushes = s.icacheFlushSeen then s else s.dropLines flushes

/-- `flush_icache_asm`. -/
def flushIcacheAsm (s : IFetch) : IFetch :=
  { s with
    icache := fun i =>
      if (s.icache i).asmBit then s.icache i else { s.icache i with valid := false }
    seqRemaining := 0 }

/-- The line a miss fills. -/
def newLine (s : IFetch) (mem : Nat → BitVec 8) (address pA : BitVec 64) (asm : Bool)
    (modes : Fin 4 → Bool) : SICache where
  asn := s.cpu.asn
  data w := insAt mem (pA + BitVec.ofNat 64 (4 * w))
  address := address &&& ICACHE_MATCH_MASK
  pAddress := pA
  asmBit := asm
  valid := true
  gen := s.icacheGen
  execModes := modes

/-- The end of `get_icache` on a miss: a line of DRAM is filled, and from anywhere else the
instruction alone is read. -/
def fillIcache (s : IFetch) (memBits : Nat) (mem : Nat → BitVec 8) (address pA : BitVec 64)
    (asm : Bool) : BitVec 32 × IFetch :=
  if InDram memBits pA then
    let modes := s.cpu.icacheExecModes address (address &&& ICACHE_MATCH_MASK)
    let line := s.newLine mem address pA asm modes.1
    (line.data (icacheWord address),
      { s with
        cpu := modes.2
        icache := update s.icache (icacheSet address) line
        pcPhys := pA + (address &&& ICACHE_BYTE_MASK)
        lastFoundIcache := icacheSet address })
  else
    (insAt mem (pA + (address &&& ICACHE_BYTE_MASK)),
      { s with pcPhys := pA + (address &&& ICACHE_BYTE_MASK) })

/-- The exception `virt2phys` vectors for an I-stream access. -/
def vectorExec (s : IFetch) : AlphaCPU.Xlate → IFetch
  | .miss => s.setPc (s.palBase + ITB_MISS + 1)
  | _ => s.setPc (s.palBase + IACV + 1)

/-- `get_icache`: no instruction where the translation took an exception. -/
def getIcache (s : IFetch) (memBits : Nat) (mem : Nat → BitVec 8) (address : BitVec 64) :
    Option (BitVec 32) × IFetch :=
  if s.icacheLineHits (icacheSet address) address then
    (some ((s.icache (icacheSet address)).data (icacheWord address)),
      { s with
        pcPhys := (s.icache (icacheSet address)).pAddress + (address &&& ICACHE_BYTE_MASK)
        lastFoundIcache := icacheSet address })
  else if address.getLsbD 0 then
    let r := s.fillIcache memBits mem address (address &&& ICACHE_MATCH_MASK &&& ~~~1#64) true
    (some r.1, r.2)
  else
    match s.cpu.virt2phys (address &&& ICACHE_MATCH_MASK) { exec := true } with
    | (.ok pA, c) =>
      let r := { s with cpu := c }.fillIcache memBits mem address pA
        (s.cpu.execAsm (address &&& ICACHE_MATCH_MASK))
      (some r.1, r.2)
    | (x, c) => (none, { s with cpu := c }.vectorExec x)

/-- Where the cursor stands after a lookup. -/
def setCursor (s : IFetch) : IFetch :=
  if s.pc.getLsbD 0 then { s with seqRemaining := 0 }
  else
    { s with
      seqLine := s.lastFoundIcache
      seqOffset := icacheWord s.pc + 1
      seqRemaining := ICACHE_LINE_SIZE - (icacheWord s.pc + 1)
      seqNextPc := (s.pc &&& ~~~3#64) + 4 }

/-- Whether the cursor answers the next fetch. -/
def Sequential (s : IFetch) : Prop := s.pc = s.seqNextPc ∧ 0 < s.seqRemaining

instance (s : IFetch) : Decidable s.Sequential := inferInstanceAs (Decidable (_ ∧ _))

/-- A fetch that reads the cursor's instruction. -/
def fetchNext (s : IFetch) : BitVec 32 × IFetch :=
  ((s.icache s.seqLine).data s.seqOffset,
    { s with
      seqOffset := s.seqOffset + 1
      seqRemaining := s.seqRemaining - 1
      seqNextPc := s.seqNextPc + 4 }.nextPc)

/-- Whether a fetch flushes first: at the PALcode's reset entry. -/
def AtReset (s : IFetch) : Prop := ¬ s.Sequential ∧ s.pc = s.palBase ||| 1

instance (s : IFetch) : Decidable s.AtReset := inferInstanceAs (Decidable (_ ∧ _))

/-- The flush of a fetch at the PALcode's reset entry. -/
def resetFlush (s : IFetch) (flushes : Nat) : IFetch :=
  if s.AtReset then s.flushIcache (flushes + 1) else s

/-- The lookup of the next instruction. -/
def lookup (s : IFetch) (memBits : Nat) (mem : Nat → BitVec 8) : Option (BitVec 32) × IFetch :=
  match s.getIcache memBits mem s.pc with
  | (some ins, s) => (some ins, s.setCursor.nextPc)
  | (none, s) => (none, s)

/-- A fetch by lookup, `flushes` being the count of flushes before it. -/
def fetchPlain (s : IFetch) (memBits : Nat) (mem : Nat → BitVec 8) (flushes : Nat) :
    Option (BitVec 32) × IFetch :=
  (s.resetFlush flushes).lookup memBits mem

/-- The fetch of `execute`. -/
def fetch (s : IFetch) (memBits : Nat) (mem : Nat → BitVec 8) (flushes : Nat) :
    Option (BitVec 32) × IFetch :=
  if s.Sequential then (some s.fetchNext.1, s.fetchNext.2) else s.fetchPlain memBits mem flushes

/-- At power-up. -/
structure Start (s : IFetch) : Prop where
  valid : ∀ i, (s.icache i).valid = false
  seqRemaining : s.seqRemaining = 0
  icacheFlushSeen : s.icacheFlushSeen = 0

end IFetch

/-! ## Several processors -/

/-- `n` processors, memory and `g_icache_flush`. -/
structure FetchRun (n : Nat) where
  mem : Nat → BitVec 8
  flushes : Nat
  proc : Fin n → IFetch

/-- What happens between two instructions, or as part of one. -/
inductive FetchOp (n : Nat) where
  | fetch (i : Fin n)
  /-- A branch, an exception, an interrupt or a return. -/
  | setPc (i : Fin n) (pc : BitVec 64)
  /-- A change of the TBs, of the address space, of the mode. -/
  | setCpu (i : Fin n) (c : AlphaCPU)
  | setPalBase (i : Fin n) (palBase : BitVec 64)
  | flush (i : Fin n)
  | flushAsm (i : Fin n)
  /-- The look at `g_icache_flush`. -/
  | look (i : Fin n)
  /-- A byte changes: a store, or a device's write. -/
  | write (a : Nat) (b : BitVec 8)

namespace FetchRun

variable {n : Nat}

def setProc (s : FetchRun n) (i : Fin n) (f : IFetch) : FetchRun n :=
  { s with proc := update s.proc i f }

/-- The flushes after a fetch of processor `i`. -/
def flushesAfter (s : FetchRun n) (i : Fin n) : Nat :=
  if (s.proc i).AtReset then s.flushes + 1 else s.flushes

/-- What a fetch of processor `i` delivers. -/
def fetched (s : FetchRun n) (memBits : Nat) (i : Fin n) : Option (BitVec 32) :=
  ((s.proc i).fetch memBits s.mem s.flushes).1

/-- The physical address the instruction came from, once `fetched` is taken. -/
def fetchedAt (s : FetchRun n) (memBits : Nat) (i : Fin n) : BitVec 64 :=
  ((s.proc i).fetch memBits s.mem s.flushes).2.pcPhys - 4

def step (memBits : Nat) (s : FetchRun n) : FetchOp n → FetchRun n
  | .fetch i =>
    { s with
      flushes := s.flushesAfter i
      proc := update s.proc i ((s.proc i).fetch memBits s.mem s.flushes).2 }
  | .setPc i pc => s.setProc i ((s.proc i).setPc pc)
  | .setCpu i c => s.setProc i { s.proc i with cpu := c }
  | .setPalBase i palBase => s.setProc i { s.proc i with palBase := palBase }
  | .flush i =>
    { s with
      flushes := s.flushes + 1
      proc := update s.proc i ((s.proc i).flushIcache (s.flushes + 1)) }
  | .flushAsm i => s.setProc i (s.proc i).flushIcacheAsm
  | .look i => s.setProc i ((s.proc i).honourRemoteFlush s.flushes)
  | .write a b => { s with mem := update s.mem a b }

/-- Native code runs from DRAM, no ITB entry stands for a superpage in use, and the mode and the
address space change in PALmode. -/
def Ok (memBits : Nat) (s : FetchRun n) : FetchOp n → Prop
  | .fetch i => (s.proc i).pc.getLsbD 0 = false →
      (s.proc i).cpu.ExecOk memBits ((s.proc i).pc &&& ICACHE_MATCH_MASK)
  | .setCpu i c => (s.proc i).pc.getLsbD 0 = true ∨
      c.asn = (s.proc i).cpu.asn ∧ c.cm = (s.proc i).cpu.cm
  | _ => True

def Start (s : FetchRun n) : Prop := ∀ i, (s.proc i).Start

end FetchRun

end Alphabox.Cpu
