import Alphabox.Lib.Numerals
import Mathlib.Logic.Function.Basic

/-!
# The DMA gate (`system/System.cpp`)

One word keeps DMA writes out of the LDx_L and STx_C sequences of the processors: a writer bit and
the number of sequences in progress. Any thread may take it either way; one atomic access is one
step, and the accesses of all threads interleave.
-/

namespace Alphabox.System.DmaGate

open Function (update)

/-- `CPU_LLSC_DMA_WRITER`. -/
def writerBit : BitVec 32 := 0x80000000

/-- `CPU_LLSC_DMA_READERS`. -/
def readersMask : BitVec 32 := 0x7fffffff

/-- Where a thread is: before the access named. -/
inductive GatePos where
  | idle
  /-- `cpu_llsc_enter`: the load of the gate. -/
  | llscLoad
  /-- With the gate it has loaded: its test, and the compare-exchange where that allows it. -/
  | llscExchange (gate : BitVec 32)
  /-- Between `cpu_llsc_enter` and `cpu_llsc_leave`: before the `fetch_sub`. -/
  | llsc
  /-- `pci_dma_write_enter`: the load of the gate. -/
  | dmaLoad
  | dmaExchange (gate : BitVec 32)
  /-- The load that waits for the readers. -/
  | dmaDrain
  /-- Between `pci_dma_write_enter` and `pci_dma_write_leave`: before the store of 0. -/
  | dmaWrite
  deriving DecidableEq

/-- A compare-exchange of the gate; a weak one may fail without a reason. -/
def exchange (gate expected desired : BitVec 32) (spurious : Bool) : Option (BitVec 32) :=
  if gate = expected ∧ spurious = false then some desired else none

/-- What a thread does with its turn: an idle one begins a sequence or a DMA write, and a
compare-exchange may fail. -/
structure Turn where
  dma : Bool
  spurious : Bool

/-- The access of a thread at `pos`, and where it is then. -/
def access (gate : BitVec 32) (turn : Turn) : GatePos → BitVec 32 × GatePos
  | .idle => (gate, if turn.dma then .dmaLoad else .llscLoad)
  | .llscLoad => (gate, .llscExchange gate)
  | .llscExchange g =>
    if g &&& writerBit = 0 ∧ g &&& readersMask ≠ readersMask then
      match exchange gate g (g + 1) turn.spurious with
      | some gate => (gate, .llsc)
      | none => (gate, .llscLoad)
    else (gate, .llscLoad)
  | .llsc => (gate - 1, .idle)
  | .dmaLoad => (gate, .dmaExchange gate)
  | .dmaExchange g =>
    if g &&& writerBit = 0 then
      match exchange gate g (g ||| writerBit) turn.spurious with
      | some gate => (gate, .dmaDrain)
      | none => (gate, .dmaLoad)
    else (gate, .dmaLoad)
  | .dmaDrain => (gate, if gate &&& readersMask = 0 then .dmaWrite else .dmaDrain)
  | .dmaWrite => (0, .idle)

/-- The gate, and where each thread is. -/
structure GateRun (ι : Type*) where
  gate : BitVec 32
  pos : ι → GatePos

variable {ι : Type*} [DecidableEq ι]

def GateRun.start : GateRun ι := ⟨0, fun _ => .idle⟩

/-- The turn of one thread. -/
def GateRun.step (s : GateRun ι) (a : ι × Turn) : GateRun ι :=
  let (gate, pos) := access s.gate a.2 (s.pos a.1)
  ⟨gate, update s.pos a.1 pos⟩

end Alphabox.System.DmaGate
