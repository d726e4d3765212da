import Mathlib.Data.BitVec
import Mathlib.Data.List.FinRange
import Mathlib.Logic.Function.Basic
import Alphabox.Lib.Reach

/-!
# Load-locked and store-conditional (`system/System.cpp`, `cpu/cpu_defs.hpp`)

`n` processors run `READ_VIRT_LOCK` and `WRITE_VIRT_COND` against each other and against the DMA
writes of devices, one atomic step at a time in any order. A processor that has to wait spins: its
step leaves the state as it is. An aligned access never crosses a page, so `pbc` is false. The
watches of `LDx_ARM` and the code-page map are left out.
-/

namespace Alphabox.System

/-- What the board's chipset fixes: the size of the DRAM and the address bits that are decoded. -/
structure Board where
  dramSize : BitVec 64
  physMask : BitVec 64
  dram_small : dramSize.toNat ≤ 2 ^ 43
  dram_decoded : ∀ a, a < dramSize → a &&& physMask = a
  line_decoded : physMask &&& 0x3fffc0#64 = 0x3fffc0#64

/-- `kLLBuckets - 1`. -/
def bucketMask : BitVec 64 := 0xffff#64

/-- The bucket of an address, `(address >> 6) & (kLLBuckets - 1)`. -/
def bucket (a : BitVec 64) : BitVec 64 := (a >>> 6) &&& bucketMask

/-- `CPU_LOCK_IO_MASK`. -/
def cpuLockIoMask : BitVec 64 := 0x0000080000000000#64

/-- `CPU_LLSC_DMA_READERS`. -/
def cpuLlscDmaReaders : Nat := 0x7fffffff

namespace Board

variable (B : Board)

/-- The 64-byte line of an address, as the chipset decodes it. -/
def line (a : BitVec 64) : BitVec 64 := a &&& B.physMask &&& ~~~63#64

/-- `cpu_lock_matches`. -/
def cpuLockMatches (locked a : BitVec 64) : Bool :=
  (locked ^^^ a) &&& B.physMask &&& ~~~63#64 = 0

/-- Whether the line of `locked` is one of those that `bytes` bytes at `a` touch, as
`cpu_clear_external_locks` finds it. -/
def lineInRange (a : BitVec 64) (bytes : Nat) (locked : BitVec 64) : Bool :=
  let first := a &&& B.physMask &&& ~~~63#64
  let last := ((a &&& B.physMask) + BitVec.ofNat 64 bytes - 1) &&& ~~~63#64
  first ≤ B.line locked && B.line locked ≤ last

end Board

/-! ## Memory -/

abbrev Mem := BitVec 64 → BitVec 8

/-- `dram_read` of `bytes` bytes. -/
def dramRead (mem : Mem) (a : BitVec 64) (bytes : Nat) : BitVec 64 :=
  (List.range bytes).foldr (fun i v => v <<< 8 ||| (mem (a + BitVec.ofNat 64 i)).setWidth 64) 0

/-- `dram_write` of `bytes` bytes. -/
def dramWrite (mem : Mem) (a : BitVec 64) (bytes : Nat) (v : BitVec 64) : Mem := fun x =>
  if (x - a).toNat < bytes then (v >>> (8 * (x - a).toNat)).setWidth 8 else mem x

/-- The value an `LDx_L` delivers: `LDL_L` sign-extends. -/
def loaded (v : BitVec 64) (bytes : Nat) : BitVec 64 :=
  if bytes = 4 then (v.setWidth 32).signExtend 64 else v

/-- Whether `dram_cas` finds the value it expects. -/
def casMatches (mem : Mem) (a : BitVec 64) (expected : BitVec 64) (bytes : Nat) : Bool :=
  dramRead mem a bytes = if bytes = 4 then (expected.setWidth 32).setWidth 64 else expected

/-! ## Processors and devices -/

/-- Where a processor is: before the step that the constructor's comment names. -/
inductive Pc where
  | idle
  /-- The read of the `LDx_L`. -/
  | ldRead (a : BitVec 64) (bytes : Nat)
  /-- `m_cpu_lock_address[cpuid] = address`. -/
  | lockAddress (a v : BitVec 64)
  /-- `cpu_lock_value[cpuid] = value`. -/
  | lockValue (a v : BitVec 64)
  /-- `m_ll_seq_snap[cpuid] = m_ll_seq[..]`. -/
  | lockSnap (a : BitVec 64)
  /-- `m_cpu_lock_flags |= 1u << cpuid`. -/
  | lockFlag (a : BitVec 64)
  /-- The end of the `LDx_L`'s guard. -/
  | ldLeave (a : BitVec 64)
  /-- The test of `cpu_take_lock`. -/
  | stTest (a : BitVec 64) (bytes : Nat) (v : BitVec 64) (intervened : Bool)
  /-- `m_cpu_lock_flags &= ~(1u << cpuid)`. -/
  | stTake (a : BitVec 64) (bytes : Nat) (v : BitVec 64) (held : Bool)
  /-- The bucket's lock, or the store to I/O space. -/
  | stLock (a : BitVec 64) (bytes : Nat) (v expected : BitVec 64) (sameAddress : Bool)
  /-- The check of the sequence number. -/
  | stCheck (a : BitVec 64) (bytes : Nat) (v expected : BitVec 64) (sameAddress : Bool)
  /-- The compare-and-swap or the plain write. -/
  | stStore (a : BitVec 64) (bytes : Nat) (v expected : BitVec 64) (sameAddress : Bool)
  /-- `m_ll_seq[b].fetch_add(1)`. -/
  | stBump (a : BitVec 64)
  /-- `m_ll_lock[b].store(0)`. -/
  | stUnlock (a : BitVec 64) (ok : Bool)
  /-- The end of the `STx_C`'s guard; it reports `ok`. -/
  | stLeave (a : BitVec 64) (ok : Bool)

/-- Where a device is in a DMA write of `data` at `a`. -/
inductive DmaPc (n : Nat) where
  | idle
  /-- The writer bit is set; readers are still inside. -/
  | drain (a : BitVec 64) (data : List (BitVec 8))
  /-- `cpu_clear_external_locks` before it loads the flags. -/
  | invalidate (a : BitVec 64) (data : List (BitVec 8))
  /-- Its loop, with the flags it loaded, the processors to look at and the mask so far. -/
  | scan (a : BitVec 64) (data : List (BitVec 8)) (flags : Fin n → Bool) (todo : List (Fin n))
      (mask : Fin n → Bool)
  /-- The transfer, from byte `i` on. -/
  | write (a : BitVec 64) (data : List (BitVec 8)) (i : Nat)

/-- What the property is about, newest first. -/
inductive Event (n : Nat) where
  /-- The read of an `LDx_L`. -/
  | read (c : Fin n) (a : BitVec 64)
  /-- Its sequence snapshot. -/
  | snap (c : Fin n)
  /-- The store of an `STx_C` to DRAM that reports success. -/
  | stored (c : Fin n) (a : BitVec 64)
  /-- Its sequence bump. -/
  | bump (c : Fin n) (a : BitVec 64)
  /-- A byte written by a device. -/
  | dma (a : BitVec 64)
  deriving DecidableEq

structure Sys (n : Nat) (κ : Type) where
  mem : Mem
  /-- The gate: the writer bit and the number of readers. -/
  writer : Bool
  readers : Nat
  lockFlags : Fin n → Bool
  lockAddress : Fin n → BitVec 64
  lockValue : Fin n → BitVec 64
  llSeqSnap : Fin n → BitVec 32
  llSeq : BitVec 64 → BitVec 32
  llLock : BitVec 64 → Bool
  pc : Fin n → Pc
  dma : κ → DmaPc n
  log : List (Event n)

variable {n : Nat} {κ : Type} [DecidableEq κ]

namespace Sys

def setPc (s : Sys n κ) (c : Fin n) (p : Pc) : Sys n κ :=
  { s with pc := Function.update s.pc c p }

def setDma (s : Sys n κ) (k : κ) (p : DmaPc n) : Sys n κ :=
  { s with dma := Function.update s.dma k p }

def note (s : Sys n κ) (e : Event n) : Sys n κ := { s with log := e :: s.log }

/-- A system in which nothing has happened. -/
def init (mem : Mem) : Sys n κ where
  mem
  writer := false
  readers := 0
  lockFlags _ := false
  lockAddress _ := 0
  lockValue _ := 0
  llSeqSnap _ := 0
  llSeq _ := 0
  llLock _ := false
  pc _ := .idle
  dma _ := .idle
  log := []

/-! ## Steps -/

variable (B : Board)

/-- `CLLSCDRAMGuard` for an access to `a`: one attempt of `cpu_llsc_enter`, after which the
processor goes on at `p`. An access outside DRAM takes no guard. -/
def enter (s : Sys n κ) (c : Fin n) (a : BitVec 64) (p : Pc) : Sys n κ :=
  if a < B.dramSize then
    if s.writer ∨ s.readers = cpuLlscDmaReaders then s
    else { s with readers := s.readers + 1 }.setPc c p
  else s.setPc c p

/-- `~CLLSCDRAMGuard`. -/
def leave (s : Sys n κ) (c : Fin n) (a : BitVec 64) : Sys n κ :=
  { s with readers := if a < B.dramSize then s.readers - 1 else s.readers }.setPc c .idle

/-- The next step of a processor; `io` is what a read outside DRAM gives. -/
def advance (s : Sys n κ) (c : Fin n) (io : BitVec 64) : Sys n κ :=
  match s.pc c with
  | .idle => s
  | .ldRead a bytes =>
    let v := loaded (if a < B.dramSize then dramRead s.mem a bytes else io) bytes
    (s.note (.read c a)).setPc c (.lockAddress a v)
  | .lockAddress a v =>
    { s with lockAddress := Function.update s.lockAddress c a }.setPc c (.lockValue a v)
  | .lockValue a v =>
    { s with lockValue := Function.update s.lockValue c v }.setPc c (.lockSnap a)
  | .lockSnap a =>
    ({ s with llSeqSnap := Function.update s.llSeqSnap c (s.llSeq (bucket a)) }.note
      (.snap c)).setPc c (.lockFlag a)
  | .lockFlag a =>
    { s with lockFlags := Function.update s.lockFlags c true }.setPc c (.ldLeave a)
  | .ldLeave a => s.leave B c a
  | .stTest a bytes v intervened =>
    let held := a &&& cpuLockIoMask ≠ 0 ∨
      (intervened = false ∧ s.lockFlags c ∧ B.cpuLockMatches (s.lockAddress c) a)
    s.setPc c (.stTake a bytes v held)
  | .stTake a bytes v held =>
    let s := { s with lockFlags := Function.update s.lockFlags c false }
    if held then s.setPc c (.stLock a bytes v (s.lockValue c) (s.lockAddress c = a))
    else s.setPc c (.stLeave a false)
  | .stLock a bytes v expected sameAddress =>
    if B.dramSize ≤ a then
      { s with mem := if a &&& B.physMask < B.dramSize then
                        dramWrite s.mem (a &&& B.physMask) bytes v else s.mem }.setPc c
        (.stLeave a true)
    else if s.llLock (bucket a) then s
    else
      { s with llLock := Function.update s.llLock (bucket a) true }.setPc c
        (.stCheck a bytes v expected sameAddress)
  | .stCheck a bytes v expected sameAddress =>
    if s.llSeq (bucket a) ≠ s.llSeqSnap c then s.setPc c (.stUnlock a false)
    else s.setPc c (.stStore a bytes v expected sameAddress)
  | .stStore a bytes v expected sameAddress =>
    if sameAddress && !casMatches s.mem a expected bytes then s.setPc c (.stUnlock a false)
    else ({ s with mem := dramWrite s.mem a bytes v }.note (.stored c a)).setPc c (.stBump a)
  | .stBump a =>
    ({ s with llSeq := Function.update s.llSeq (bucket a) (s.llSeq (bucket a) + 1) }.note
      (.bump c a)).setPc c (.stUnlock a true)
  | .stUnlock a ok =>
    { s with llLock := Function.update s.llLock (bucket a) false }.setPc c (.stLeave a ok)
  | .stLeave a _ => s.leave B c a

/-- The next step of a device. -/
def dmaAdvance (s : Sys n κ) (k : κ) : Sys n κ :=
  match s.dma k with
  | .idle => s
  | .drain a data => if s.readers = 0 then s.setDma k (.invalidate a data) else s
  | .invalidate a data =>
    if data.length = 0 then s.setDma k (.write a data 0)
    else s.setDma k (.scan a data s.lockFlags (List.finRange n) fun _ => false)
  | .scan a data flags (c :: todo) mask =>
    s.setDma k (.scan a data flags todo
      (if flags c && B.lineInRange a data.length (s.lockAddress c) then Function.update mask c true
        else mask))
  | .scan a data _ [] mask =>
    { s with lockFlags := fun c => s.lockFlags c && !mask c }.setDma k (.write a data 0)
  | .write a data i =>
    match data[i]? with
    | some b =>
      ({ s with mem := Function.update s.mem (a + BitVec.ofNat 64 i) b }.note
        (.dma (a + BitVec.ofNat 64 i))).setDma k (.write a data (i + 1))
    | none => { s with writer := false, readers := 0 }.setDma k .idle

/-- What may happen next. -/
inductive Act (n : Nat) (κ : Type) where
  /-- An idle processor begins an `LDx_L`. -/
  | load (c : Fin n) (a : BitVec 64) (bytes : Nat)
  /-- An idle processor begins an `STx_C`; `intervened` is `llsc_intervened()`. -/
  | store (c : Fin n) (a : BitVec 64) (bytes : Nat) (v : BitVec 64) (intervened : Bool)
  /-- `cpu_clear_lock`. -/
  | clearLock (c : Fin n)
  /-- A plain store. -/
  | plain (c : Fin n) (a : BitVec 64) (bytes : Nat) (v : BitVec 64)
  | advance (c : Fin n) (io : BitVec 64)
  /-- A device begins a write to DRAM: one attempt of `pci_dma_write_enter`. -/
  | dmaEnter (k : κ) (a : BitVec 64) (data : List (BitVec 8))
  | dmaAdvance (k : κ)

def step (s : Sys n κ) : Act n κ → Sys n κ
  | .load c a bytes =>
    match s.pc c with
    | .idle => s.enter B c a (.ldRead a bytes)
    | _ => s
  | .store c a bytes v intervened =>
    match s.pc c with
    | .idle => s.enter B c a (.stTest a bytes v intervened)
    | _ => s
  | .clearLock c =>
    match s.pc c with
    | .idle => { s with lockFlags := Function.update s.lockFlags c false }
    | _ => s
  | .plain c a bytes v =>
    match s.pc c with
    | .idle => { s with mem := if a < B.dramSize then dramWrite s.mem a bytes v else s.mem }
    | _ => s
  | .advance c io => s.advance B c io
  | .dmaEnter k a data =>
    match s.dma k with
    | .idle =>
      if s.writer = false ∧ a.toNat + data.length ≤ B.dramSize.toNat then
        { s with writer := true }.setDma k (.drain a data)
      else s
    | _ => s
  | .dmaAdvance k => s.dmaAdvance B k

end Sys

/-! ## Atomicity -/

/-- Another processor's `STx_C` stored to the line since the last read of `c`'s `LDx_L`. -/
def storedSince (B : Board) (c : Fin n) (l : BitVec 64) : List (Event n) → Prop
  | [] => False
  | .read c' _ :: log => c' ≠ c ∧ storedSince B c l log
  | .stored c' a :: log => (c' ≠ c ∧ B.line a = l) ∨ storedSince B c l log
  | _ :: log => storedSince B c l log

/-- A device wrote to the line since the last read of `c`'s `LDx_L`. -/
def dmaSince (B : Board) (c : Fin n) (l : BitVec 64) : List (Event n) → Prop
  | [] => False
  | .read c' _ :: log => c' ≠ c ∧ dmaSince B c l log
  | .dma a :: log => B.line a = l ∨ dmaSince B c l log
  | _ :: log => dmaSince B c l log

/-- Every successful store of an `STx_C` found its line untouched since the processor's `LDx_L`. -/
def Atomic (B : Board) (log : List (Event n)) : Prop :=
  ∀ later c a earlier, log = later ++ .stored c a :: earlier →
    ¬ storedSince B c (B.line a) earlier ∧ ¬ dmaSince B c (B.line a) earlier

/-- How often the bucket was bumped since `c`'s last snapshot. -/
def bumpsSince (c : Fin n) (b : BitVec 64) : List (Event n) → Nat
  | [] => 0
  | .snap c' :: log => if c' = c then 0 else bumpsSince c b log
  | .bump _ a :: log => if bucket a = b then bumpsSince c b log + 1 else bumpsSince c b log
  | _ :: log => bumpsSince c b log

/-- The address of an `LDx_L` that has read and not yet taken its sequence snapshot. -/
def Pc.window : Pc → Option (BitVec 64)
  | .lockAddress a _ | .lockValue a _ | .lockSnap a => some a
  | _ => none

/-- The steps that cannot break atomicity:
* an `LDx_L` of an address outside DRAM that is decoded to no line of DRAM;
* a bump while no other processor is between the read and the snapshot of an `LDx_L` of that line
  with the bumped store in between;
* a sequence check fewer than `2 ^ 32` bumps after the snapshot. -/
def Safe (B : Board) (s : Sys n κ) : Sys.Act n κ → Prop
  | .load _ a _ => a < B.dramSize ∨ ∀ d, d < B.dramSize → B.line d ≠ B.line a
  | .advance c _ =>
    match s.pc c with
    | .stBump a => ∀ c' a', c' ≠ c → (s.pc c').window = some a' → B.line a' = B.line a →
        ¬ storedSince B c' (B.line a') s.log
    | .stCheck a .. => bumpsSince c (bucket a) s.log < 2 ^ 32
    | _ => True
  | _ => True

/-- The states of all runs. -/
def Run (B : Board) : Sys n κ → Prop :=
  Lib.Reach (fun s => ∃ mem, s = Sys.init mem) (fun _ _ => True) (Sys.step B)

/-- The states of the runs whose steps are all safe. -/
def SafeRun (B : Board) : Sys n κ → Prop :=
  Lib.Reach (fun s => ∃ mem, s = Sys.init mem) (Safe B) (Sys.step B)

end Alphabox.System
