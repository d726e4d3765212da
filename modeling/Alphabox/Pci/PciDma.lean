import Alphabox.Lib.Bytes
import Mathlib.Data.BitVec
import Mathlib.Logic.Function.Basic

/-!
# DMA of a PCI device (`devices/pci/PCIDevice.cpp`, `chipsets/PciWindows.hpp`, `pci_phys`)

`do_pci_read` and `do_pci_write`, the windows through which a hose translates a 32-bit address, and
the guard a write to memory is made under. The system's address space is bytes: those of the memory
array, and those of everything else. Both machines are little-endian, so a value is its bytes in
order. The accesses a transfer makes are logged.
-/

namespace Alphabox.Pci

open Function (update)

/-! ## Windows -/

/-- The registers WSBAn, WSMn and TBAn. -/
structure PciWindow where
  wsba : BitVec 64
  wsm : BitVec 64
  tba : BitVec 64

namespace PciWindow

def wsmMask : BitVec 64 := 0x00000000fff00000
def addMask : BitVec 64 := 0x00000000000fffff
def tbaMask : BitVec 64 := 0x00000007fff00000
def pteAddMask : BitVec 64 := 0x00000000000fe000
def pteAddShift : Nat := 10
def pteTbaMask : BitVec 64 := 0x00000007fffffc00
def pteMask : BitVec 64 := 0x00000007ffffe000
def pteShift : Nat := 12
def pteAdd2Mask : BitVec 64 := 0x0000000000001fff
def ptePeerBit : BitVec 64 := 0x0000000090000000
def pioAccess : BitVec 64 := 0x0000080000000000

/-- `hit`. -/
def hit (wsba wsm : BitVec 64) (address : BitVec 32) : Bool :=
  wsba &&& 1 ≠ 0 ∧ (address.setWidth 64 ^^^ wsba) &&& 0xfff00000 &&& ~~~wsm = 0

/-- `direct`. -/
def direct (address : BitVec 32) (wsm tba : BitVec 64) : BitVec 64 :=
  let wsm := wsm &&& wsmMask
  (address.setWidth 64 &&& (wsm ||| addMask)) ||| (tba &&& ~~~wsm &&& tbaMask)

/-- `pte_address`. -/
def pteAddress (address : BitVec 32) (wsm tba : BitVec 64) : BitVec 64 :=
  let wsm := wsm &&& wsmMask
  ((address.setWidth 64 &&& (wsm ||| pteAddMask)) >>> pteAddShift) |||
    (tba &&& pteTbaMask &&& ~~~(wsm >>> pteAddShift))

/-- The page of a valid PTE with the address's offset. -/
def ptePage (pte : BitVec 64) (address : BitVec 32) : BitVec 64 :=
  ((pte <<< pteShift) &&& pteMask) ||| (address.setWidth 64 &&& pteAdd2Mask)

/-- `from_pte`. -/
def fromPte (pte : BitVec 64) (address : BitVec 32) : BitVec 64 :=
  if pte &&& ptePeerBit ≠ 0 then ptePage pte address ||| pioAccess else ptePage pte address

end PciWindow

/-! ## The address space -/

/-- A byte of the memory array, counted from its start, or one at a system address elsewhere. -/
inductive Loc where
  | ram (a : Nat)
  | io (a : Nat)
  deriving DecidableEq

/-- `ev7::address_map`: `kEv7Map` and `k21464Map`. -/
inductive AddressMap where
  | ev7
  | ev8

namespace AddressMap

def paBits : AddressMap → Nat
  | ev7 => 44
  | ev8 => 48

def peBits : AddressMap → Nat
  | ev7 => 9
  | ev8 => 13

/-- `io7_base`. -/
def io7Base (m : AddressMap) (pe : Nat) (port : Fin 4) : Nat :=
  (2 ^ m.peBits - 1 - pe % 2 ^ m.peBits) * 2 ^ 35 + (7 - port) * 2 ^ 32

theorem io7Base_lt (m : AddressMap) (pe : Nat) (port : Fin 4) : m.io7Base pe port < 2 ^ m.paBits := by
  unfold io7Base
  have := port.2
  cases m
  · simp only [peBits, paBits]
    omega
  · simp only [peBits, paBits]
    omega

end AddressMap

theorem ofNat_mask {n k : Nat} (h : n < 2 ^ k) :
    BitVec.ofNat 64 n &&& ~~~BitVec.ofNat 64 (2 ^ k - 1) = 0 := by
  refine BitVec.eq_of_getLsbD_eq fun i hi => ?_
  rw [BitVec.getLsbD_and, BitVec.getLsbD_not, BitVec.getLsbD_ofNat, BitVec.getLsbD_ofNat,
    Nat.testBit_two_pow_sub_one]
  by_cases hik : i < k
  · simp [hik]
  · rw [Nat.testBit_lt_two_pow (Nat.lt_of_lt_of_le h (Nat.pow_le_pow_right (by omega) (by omega)))]
    simp

/-- What a hose's devices reach: memory of `2 ^ memoryBits` bytes (`iNumMemoryBits`), the address
bits the system decodes (`m_phys_mask`), and the hose's windows. `hole` is PCTL<HOLE>, `dac` window
3's DAC bit where the chipset has one, `peer` whether a PTE may point into PIO space, and `base` the
hose's memory space. -/
structure PciHose where
  memoryBits : Nat
  physMask : BitVec 64
  window : Fin 4 → PciWindow
  hole : Bool
  dac : Bool
  peer : Bool
  base : BitVec 64
  page_le : 13 ≤ memoryBits
  mask_windows : (0x00000807ffffffff : BitVec 64) &&& ~~~physMask = 0
  mask_base : base &&& ~~~physMask = 0
  base_low : base &&& 0xffffffff = 0

namespace PciHose

/-- The port of `CTsunami::pci_phys`. -/
def tsunami (memoryBits : Nat) (h : 13 ≤ memoryBits) (window : Fin 4 → PciWindow)
    (pctl : BitVec 64) (pcibus : Fin 2) : PciHose where
  memoryBits := memoryBits
  physMask := 0x00000807ffffffff
  window := window
  hole := pctl &&& 0x20 ≠ 0
  dac := (window 3).wsba &&& 0x8000000000 ≠ 0
  peer := true
  base := 0x80000000000 ||| (BitVec.ofNat 64 pcibus * 0x200000000)
  page_le := h
  mask_windows := by decide
  mask_base := by revert pcibus; decide
  base_low := by revert pcibus; decide

/-- The port of `CTitan::pci_phys`. -/
def titan (memoryBits : Nat) (h : 13 ≤ memoryBits) (window : Fin 4 → PciWindow)
    (pctl : BitVec 64) (hose : Fin 4) : PciHose where
  memoryBits := memoryBits
  physMask := 0x00000807ffffffff
  window := window
  hole := pctl &&& 0x20 ≠ 0
  dac := false
  peer := true
  base := 0x0000080000000000 + 0x0000000200000000 * BitVec.ofNat 64 hose
  page_le := h
  mask_windows := by decide
  mask_base := by revert hose; decide
  base_low := by revert hose; decide

/-- The port of `CIo7::pci_phys`: the PE inverted from bit 35 on, the port inverted in 34:32. -/
def io7 (memoryBits : Nat) (h : 13 ≤ memoryBits) (window : Fin 4 → PciWindow) (m : AddressMap)
    (pe : Nat) (port : Fin 4) : PciHose where
  memoryBits := memoryBits
  physMask := BitVec.ofNat 64 (2 ^ m.paBits - 1)
  window := window
  hole := false
  dac := false
  peer := false
  base := BitVec.ofNat 64 (m.io7Base pe port)
  page_le := h
  mask_windows := by cases m <;> decide
  mask_base := ofNat_mask (m.io7Base_lt pe port)
  base_low := by
    apply BitVec.eq_of_toNat_eq
    rw [BitVec.toNat_and, BitVec.toNat_ofNat, show (0xffffffff : BitVec 64).toNat = 2 ^ 32 - 1 by
      decide, Nat.and_two_pow_sub_one_eq_mod, AddressMap.io7Base]
    simp
    omega

variable (h : PciHose)

/-- Whether a system address is in memory (`address >> iNumMemoryBits` is 0). -/
def InRam (a : Nat) : Prop := a < 2 ^ h.memoryBits

instance (a : Nat) : Decidable (h.InRam a) := inferInstanceAs (Decidable (a < 2 ^ h.memoryBits))

/-- `PtrToMem`: an index of the memory array. -/
def ptrToMem (address : BitVec 64) : Option Nat :=
  if h.InRam address.toNat then some address.toNat else none

/-- The bytes that `ReadMem` and `WriteMem` of `n` bytes access: they choose by the first. -/
def accessLocs (address : BitVec 64) (n : Nat) : List Loc :=
  let a := (address &&& h.physMask).toNat
  (List.range n).map fun j => if h.InRam a then .ram (a + j) else .io (a + j)

/-- `ReadMem` of 64 bits. -/
def readMem64 (mem : Loc → BitVec 8) (address : BitVec 64) : BitVec 64 :=
  BitVec.ofNat 64 (Lib.leNat ((h.accessLocs address 8).map mem))

/-- `pci_space_base(hose, PCI_SPACE_MEM) | address`. -/
def localAddress (address : BitVec 32) : BitVec 64 := h.base ||| address.setWidth 64

/-- The windows of `pci_phys`, from one on. -/
def scan (mem : Loc → BitVec 8) (address : BitVec 32) : List (Fin 4) → BitVec 64
  | [] => h.localAddress address
  | j :: js =>
    let w := h.window j
    if j = 3 ∧ h.dac = true then scan mem address js
    else if PciWindow.hit w.wsba w.wsm address = false then scan mem address js
    else if w.wsba &&& 2 = 0 then PciWindow.direct address w.wsm w.tba
    else
      let pte := h.readMem64 mem (PciWindow.pteAddress address w.wsm w.tba)
      if pte &&& 1 = 0 then h.localAddress address
      else if h.peer then PciWindow.fromPte pte address
      else PciWindow.ptePage pte address

/-- `pci_phys`. -/
def pciPhys (mem : Loc → BitVec 8) (address : BitVec 32) : BitVec 64 :=
  if h.hole = true ∧ 0x80000 ≤ address.toNat ∧ address.toNat ≤ 0xfffff then h.localAddress address
  else h.scan mem address [0, 1, 2, 3]

end PciHose

/-! ## Transfers -/

inductive DmaEvent where
  | load (l : Loc)
  | store (l : Loc) (byte : BitVec 8)
  | enter
  | invalidate (address : BitVec 64) (bytes : Nat)
  | leave

structure Dma where
  mem : Loc → BitVec 8
  log : List DmaEvent

namespace Dma

def store (s : Dma) (x : Loc × BitVec 8) : Dma :=
  { mem := update s.mem x.1 x.2, log := s.log ++ [.store x.1 x.2] }

def note (s : Dma) (e : List DmaEvent) : Dma := { s with log := s.log ++ e }

/-- `body` under a `CPCIDMAWriteGuard` that has been told of `bytes` from `address` on; one that is
not active does nothing. -/
def guarded (s : Dma) (active : Bool) (address : BitVec 64) (bytes : Nat) (body : Dma → Dma) :
    Dma :=
  if active then (body (s.note [.enter, .invalidate address bytes])).note [.leave] else body s

end Dma

/-- `pci_dma_chunk_limit`. -/
def pciDmaChunkLimit (physAddr : BitVec 64) (remaining : Nat) : Nat :=
  let pageRemaining := 8192 - (physAddr &&& 8191).toNat
  if remaining < pageRemaining then remaining else pageRemaining

theorem pciDmaChunkLimit_pos (physAddr : BitVec 64) {n : Nat} (hn : 0 < n) :
    0 < pciDmaChunkLimit physAddr n := by
  have : (physAddr &&& 8191).toNat < 8192 := by
    rw [BitVec.toNat_and]
    exact Nat.lt_of_le_of_lt Nat.and_le_right (by decide)
  unfold pciDmaChunkLimit
  dsimp only
  split <;> omega

namespace PciHose

variable (h : PciHose)

/-- `WriteMem`. -/
def writeMem (s : Dma) (address : BitVec 64) (data : List (BitVec 8)) : Dma :=
  ((h.accessLocs address data.length).zip data).foldl Dma.store s

/-- `pci_dma_targets_ram`. -/
def pciDmaTargetsRam (physAddr : BitVec 64) (bytes : Nat) : Bool :=
  bytes ≠ 0 ∧ (h.ptrToMem physAddr).isSome ∧
    (h.ptrToMem (physAddr + BitVec.ofNat 64 bytes - 1)).isSome

/-- A piece of a block write: a copy into memory, else byte by byte. -/
def writeChunk (s : Dma) (curPhys : BitVec 64) (src : List (BitVec 8)) : Dma :=
  match h.ptrToMem curPhys, h.ptrToMem (curPhys + BitVec.ofNat 64 src.length - 1) with
  | some p, some _ =>
    s.guarded true curPhys src.length fun s =>
      ((List.range src.length).map (fun j => Loc.ram (p + j)) |>.zip src).foldl Dma.store s
  | _, _ =>
    src.zipIdx.foldl
      (fun s (b, el) =>
        let bytePhys := curPhys + BitVec.ofNat 64 el
        s.guarded (h.pciDmaTargetsRam bytePhys 1) bytePhys 1 (h.writeMem · bytePhys [b])) s

/-- The loop of a block write; `src` is what remains. -/
def writeLoop (s : Dma) (curAddress : BitVec 32) (src : List (BitVec 8)) : Dma :=
  if src = [] then s
  else
    let curPhys := h.pciPhys s.mem curAddress
    let chunk := pciDmaChunkLimit curPhys src.length
    writeLoop (h.writeChunk s curPhys (src.take chunk)) (curAddress + BitVec.ofNat 32 chunk)
      (src.drop chunk)
termination_by src.length
decreasing_by
  have hl := List.length_pos_iff.2 ‹src ≠ []›
  rw [List.length_drop]
  exact Nat.sub_lt hl (pciDmaChunkLimit_pos _ hl)

/-- `do_pci_write` of the `elementSize * elementCount` bytes of `source`; `bme` is the function's
Bus Master Enable. An element size the source refuses ends in a failure. -/
def doPciWrite (bme : Bool) (s : Dma) (address : BitVec 32) (source : List (BitVec 8))
    (elementSize elementCount : Nat) : Option Dma :=
  if elementCount = 0 then some s
  else if bme = false then some s
  else if elementCount = 1 then
    let physAddr := h.pciPhys s.mem address
    if elementSize = 1 ∨ elementSize = 2 ∨ elementSize = 4 then
      some (s.guarded (h.pciDmaTargetsRam physAddr elementSize) physAddr elementSize
        (h.writeMem · physAddr source))
    else none
  else some (h.writeLoop s address source)

/-- Loads, with the bytes they give. -/
def loadAll (s : Dma) (ls : List Loc) : List (BitVec 8) × Dma := (ls.map s.mem, s.note (ls.map .load))

/-- What a piece of a block read loads: a stretch of memory, else byte by byte. -/
def readPiece (curPhys : BitVec 64) (chunk : Nat) : List Loc :=
  match h.ptrToMem curPhys, h.ptrToMem (curPhys + BitVec.ofNat 64 chunk - 1) with
  | some p, some _ => (List.range chunk).map fun j => .ram (p + j)
  | _, _ => (List.range chunk).flatMap fun el => h.accessLocs (curPhys + BitVec.ofNat 64 el) 1

/-- The loop of a block read. -/
def readLoop (s : Dma) (curAddress : BitVec 32) (remaining : Nat) : List (BitVec 8) × Dma :=
  if remaining = 0 then ([], s)
  else
    let curPhys := h.pciPhys s.mem curAddress
    let chunk := pciDmaChunkLimit curPhys remaining
    let (dst, s) := loadAll s (h.readPiece curPhys chunk)
    let (rest, s) := readLoop s (curAddress + BitVec.ofNat 32 chunk) (remaining - chunk)
    (dst ++ rest, s)
termination_by remaining
decreasing_by
  have hr := Nat.pos_of_ne_zero ‹remaining ≠ 0›
  exact Nat.sub_lt hr (pciDmaChunkLimit_pos _ hr)

/-- `do_pci_read`: the bytes left in `dest`. -/
def doPciRead (bme : Bool) (s : Dma) (address : BitVec 32) (elementSize elementCount : Nat) :
    Option (List (BitVec 8) × Dma) :=
  if elementCount = 0 then some ([], s)
  else if bme = false then some (List.replicate (elementSize * elementCount) 0xff, s)
  else if elementCount = 1 then
    if elementSize = 1 ∨ elementSize = 2 ∨ elementSize = 4 then
      some (loadAll s (h.accessLocs (h.pciPhys s.mem address) elementSize))
    else none
  else some (h.readLoop s address (elementSize * elementCount))

end PciHose

/-! ## What a transfer is for -/

/-- The bytes a log stores, in order. -/
def stores (log : List DmaEvent) : List (Loc × BitVec 8) :=
  log.filterMap fun
    | .store l b => some (l, b)
    | _ => none

/-- The places a log loads from, in order. -/
def loads (log : List DmaEvent) : List Loc :=
  log.filterMap fun
    | .load l => some l
    | _ => none

/-- Each byte stored in memory has been passed to `invalidate` under the guard that is held then;
`g` is what the guard has been passed, none where none is held. -/
def Covered : Option (List (BitVec 64 × Nat)) → List DmaEvent → Prop
  | _, [] => True
  | _, .enter :: es => Covered (some []) es
  | _, .leave :: es => Covered none es
  | some rs, .invalidate a n :: es => Covered (some ((a, n) :: rs)) es
  | none, .invalidate _ _ :: es => Covered none es
  | some rs, .store (.ram a) _ :: es =>
    (∃ r ∈ rs, r.1.toNat ≤ a ∧ a < r.1.toNat + r.2) ∧ Covered (some rs) es
  | none, .store (.ram _) _ :: _ => False
  | g, .store (.io _) _ :: es => Covered g es
  | g, .load _ :: es => Covered g es

namespace PciHose

variable (h : PciHose)

/-- The byte at a system address. -/
def locOf (a : BitVec 64) : Loc := if h.InRam a.toNat then .ram a.toNat else .io a.toNat

/-- Where byte `i` of a transfer belongs. -/
def target (mem : Loc → BitVec 8) (address : BitVec 32) (i : Nat) : Loc :=
  h.locOf (h.pciPhys mem (address + BitVec.ofNat 32 i))

/-- The bytes of a write, each with its place. -/
def targets (mem : Loc → BitVec 8) (address : BitVec 32) (source : List (BitVec 8)) :
    List (Loc × BitVec 8) :=
  source.zipIdx.map fun (b, i) => (h.target mem address i, b)

/-- A write that stores each byte at its place and nothing else, under the guard. -/
def Written (s : Dma) (address : BitVec 32) (source : List (BitVec 8)) (s' : Dma) : Prop :=
  ∃ es, s'.log = s.log ++ es ∧ stores es = h.targets s.mem address source ∧ Covered none es

/-- A read that loads each byte from its place and nothing else. -/
def ReadBack (s : Dma) (address : BitVec 32) (n : Nat) (r : List (BitVec 8) × Dma) : Prop :=
  r.1 = (List.range n).map (fun i => s.mem (h.target s.mem address i)) ∧
  ∃ es, r.2.log = s.log ++ es ∧ loads es = (List.range n).map (h.target s.mem address) ∧
    stores es = []

/-- One element's bytes lie at consecutive system addresses, on one side of the end of memory. -/
def Contiguous (mem : Loc → BitVec 8) (address : BitVec 32) (n : Nat) : Prop :=
  ∀ j < n,
    (h.pciPhys mem (address + BitVec.ofNat 32 j)).toNat = (h.pciPhys mem address).toNat + j ∧
    (h.InRam (h.pciPhys mem (address + BitVec.ofNat 32 j)).toNat ↔
      h.InRam (h.pciPhys mem address).toNat)

/-- The memory with the first bytes of a write at their places. -/
def written (mem : Loc → BitVec 8) (address : BitVec 32) (source : List (BitVec 8)) (n : Nat) :
    Loc → BitVec 8 :=
  ((h.targets mem address source).take n).foldl (fun mem x => update mem x.1 x.2) mem

/-- No page the write comes to is translated otherwise by then: the bytes before it have not
changed its page table entry. -/
def KeepsTranslation (mem : Loc → BitVec 8) (address : BitVec 32) (source : List (BitVec 8)) :
    Prop :=
  ∀ j < source.length, (address + BitVec.ofNat 32 j).toNat % 8192 = 0 →
    h.pciPhys (h.written mem address source j) (address + BitVec.ofNat 32 j) =
      h.pciPhys mem (address + BitVec.ofNat 32 j)

end PciHose

end Alphabox.Pci
