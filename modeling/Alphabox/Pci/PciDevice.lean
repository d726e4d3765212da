import Alphabox.Lib.Keyed
import Mathlib.Data.BitVec
import Mathlib.Logic.Function.Basic

/-!
# PCI configuration space and BARs (`devices/pci/PCIDevice.cpp`)

The configuration space every device inherits: masked writes of 8, 16 and 32 bits, the
registration of the range a BAR or the expansion ROM calls for, reset and restore. Registrations
are state of their own, with the system (`CSystem::RegisterMemory`) or with the bridge the device
sits behind (`CPCIBridge::map_child_range`).

A function's 256 bytes are kept as bytes, in the order of the file; the host is little-endian. A
range stands at `base` in its space, the hose's address for the space left out.
-/

namespace Alphabox.Pci

/-! ## Bytes -/

/-- The sizes of a configuration access. -/
inductive PciSize where
  | byte
  | word
  | long
  deriving DecidableEq

/-- `dsize / 8`. -/
def PciSize.bytes : PciSize → Nat
  | .byte => 1
  | .word => 2
  | .long => 4

/-- The bytes of a function's configuration space. -/
abbrev ConfigBytes := Nat → BitVec 8

namespace ConfigBytes

def load (x : ConfigBytes) (address : Nat) : PciSize → BitVec 32
  | .byte => (x address).setWidth 32
  | .word => (x (address + 1) ++ x address).setWidth 32
  | .long => x (address + 3) ++ x (address + 2) ++ x (address + 1) ++ x address

def store (x : ConfigBytes) (address : Nat) (size : PciSize) (value : BitVec 32) : ConfigBytes :=
  fun k =>
    if address ≤ k ∧ k < address + size.bytes then value.extractLsb' (8 * (k - address)) 8 else x k

end ConfigBytes

/-! ## Ranges -/

inductive PciSpace where
  | io
  | mem
  | config
  deriving DecidableEq

/-- A registered range; one of length 0 never decodes. -/
structure PciRange where
  space : PciSpace
  base : BitVec 32
  length : Nat
  deriving DecidableEq

/-- The component a range belongs to and the component's own number for it. -/
abbrev RangeKey := Nat × Nat

/-- Who has registered what: with the system, and with each bridge. -/
structure Registry where
  /-- `asMemories`. -/
  memories : List (RangeKey × PciRange)
  /-- `m_ranges` of each bridge. -/
  ranges : Nat → List (RangeKey × PciRange)

namespace Registry

/-- `CSystem::RegisterMemory`. -/
def registerMemory (reg : Registry) (key : RangeKey) (range : PciRange) : Registry :=
  { reg with memories := Lib.Keyed.put key range reg.memories }

/-- `CPCIBridge::map_child_range`. -/
def mapChildRange (reg : Registry) (bridge : Nat) (key : RangeKey) (range : PciRange) : Registry :=
  { reg with
    ranges := Function.update reg.ranges bridge (Lib.Keyed.put key range (reg.ranges bridge)) }

/-- The ranges registered where a device on this bus registers its own. -/
def onBus (reg : Registry) : Option Nat → List (RangeKey × PciRange)
  | none => reg.memories
  | some bridge => reg.ranges bridge

end Registry

/-! ## A device -/

/-- What a device is built with: its place, its functions and their reset values. -/
structure PciCard where
  component : Nat
  /-- `myPCIDev`. -/
  slot : Nat
  /-- `myBridge`. -/
  bridge : Option Nat
  deviceAt : Fin 8 → Bool
  stdConfigData : Fin 8 → ConfigBytes
  stdConfigMask : Fin 8 → ConfigBytes

/-- `bridge_header`: a type 1 header has two BARs. -/
def PciCard.bridgeHeader (card : PciCard) (func : Fin 8) : Bool :=
  ((card.stdConfigData func).load 0x0c .long >>> 16) &&& 0x7f = 1

/-- `pci_state`: what the state file holds. -/
structure PciState where
  configData : Fin 8 → ConfigBytes
  configMask : Fin 8 → ConfigBytes

/-- A device's registers and the registrations. -/
structure PciDevice where
  pci : PciState
  rangeIsIo : Fin 8 → Fin 7 → Bool
  reg : Registry

def PCI_RANGE_BASE : Nat := 0x0800
def PCI_IO_ADDRESS_MASK : BitVec 32 := 0xFFFFFFFC
def PCI_MEM_ADDRESS_MASK : BitVec 32 := 0xFFFFFFF0
def PCI_ROM_ADDRESS_ENABLE : BitVec 32 := 0x00000001
def PCI_ROM_ADDRESS_MASK : BitVec 32 := 0xFFFFF800

/-- The offset of a BAR; BAR 6 is the expansion ROM's. -/
def barOffset (bar : Fin 7) : Nat := if bar = 6 then 0x30 else 0x10 + 4 * bar.val

/-- The range of a register: its size from the mask, its base aligned to it. -/
def barRange (space : PciSpace) (addressMask smallest data mask : BitVec 32) : PciRange :=
  let probed := ~~~(mask &&& addressMask) + 1
  let length := if probed < smallest then smallest else probed
  ⟨space, (data &&& addressMask) &&& ~~~(length - 1), length.toNat⟩

def ioRange : BitVec 32 → BitVec 32 → PciRange := barRange .io PCI_IO_ADDRESS_MASK 4

def memRange : BitVec 32 → BitVec 32 → PciRange := barRange .mem PCI_MEM_ADDRESS_MASK 0x10

def romRange : BitVec 32 → BitVec 32 → PciRange := barRange .mem PCI_ROM_ADDRESS_MASK 0x800

/-- The system's or the bridge's number for a BAR's range. -/
def rangeId (func : Fin 8) (bar : Fin 7) : Nat := PCI_RANGE_BASE + func.val * 8 + bar.val

/-- And for a function's configuration space. -/
def configId (func : Fin 8) : Nat := PCI_RANGE_BASE + func.val * 8 + 7

/-- `config_in_range`. -/
def configInRange (address : Nat) (size : PciSize) : Bool :=
  address < 0x100 && address + size.bytes ≤ 0x100

/-- A masked write: the old value, the mask and the new value. -/
def PciState.merge (s : PciState) (func : Fin 8) (address : Nat) (size : PciSize)
    (data : BitVec 32) : BitVec 32 :=
  let old := (s.configData func).load address size
  let mask := (s.configMask func).load address size
  (old &&& ~~~mask) ||| (data &&& mask)

/-- The registers after a masked write. -/
def PciState.write (s : PciState) (func : Fin 8) (address : Nat) (size : PciSize)
    (data : BitVec 32) : PciState :=
  { s with
    configData := Function.update s.configData func
      ((s.configData func).store address size (s.merge func address size data)) }

namespace PciDevice

variable (card : PciCard) (d : PciDevice)

/-- `map_range`. -/
def mapRange (id : Nat) (range : PciRange) : PciDevice :=
  { d with
    reg := match card.bridge with
      | some bridge => d.reg.mapChildRange bridge (card.component, id) range
      | none => d.reg.registerMemory (card.component, id) range }

/-- `map_config_space`, the upstream bridge's secondary bus given. -/
def mapConfigSpace (secondary : Nat) : PciDevice :=
  let bus := if card.bridge = none then 0 else secondary
  let mapped := card.bridge = none ∨ bus ≠ 0
  (List.finRange 8).foldl (fun d func =>
    if card.deviceAt func then
      { d with
        reg := d.reg.registerMemory (card.component, configId func)
          ⟨.config, BitVec.ofNat 32 (0x10000 * bus + 0x800 * card.slot + 0x100 * func.val),
            if mapped then 0x100 else 0⟩ }
    else d) d

def setRangeIsIo (func : Fin 8) (bar : Fin 7) (io : Bool) : PciDevice :=
  { d with rangeIsIo := Function.update d.rangeIsIo func (Function.update (d.rangeIsIo func) bar io) }

/-- `register_bar`. -/
def registerBar (func : Fin 8) (bar : Fin 7) (data mask : BitVec 32) : PciDevice :=
  if data &&& 1 ≠ 0 ∧ bar ≠ 6 then
    (d.setRangeIsIo func bar true).mapRange card (rangeId func bar) (ioRange data mask)
  else if bar = 6 then
    if data &&& PCI_ROM_ADDRESS_ENABLE = 0 then d.setRangeIsIo func bar false
    else (d.setRangeIsIo func bar false).mapRange card (rangeId func bar) (romRange data mask)
  else (d.setRangeIsIo func bar false).mapRange card (rangeId func bar) (memRange data mask)

/-- The `switch` of `config_write`. -/
def barAt (address : Nat) : Option (Fin 7) := (List.finRange 7).find? fun bar => barOffset bar = address

/-- `config_write`, up to `config_write_custom`. -/
def configWrite (func : Fin 8) (address : Nat) (size : PciSize) (data : BitVec 32) : PciDevice :=
  if configInRange address size then
    let mask := (d.pci.configMask func).load address size
    let new := d.pci.merge func address size data
    let d := { d with pci := d.pci.write func address size data }
    if size = .long ∧ data &&& mask ≠ mask ∧ data &&& mask ≠ 0 ∧
        ¬(card.bridgeHeader func ∧ address > 0x14) then
      match barAt address with
      | some bar => d.registerBar card func bar new mask
      | none => d
    else d
  else d

/-- The registers of the BARs `ResetPCI` writes back. -/
def resetBars (func : Fin 8) : List (Fin 7) :=
  if card.bridgeHeader func then [0, 1] else [0, 1, 2, 3, 4, 5, 6]

/-- `ResetPCI` for one function. -/
def resetFunction (func : Fin 8) : PciDevice :=
  let d := { d with pci :=
    { configData := Function.update d.pci.configData func (card.stdConfigData func)
      configMask := Function.update d.pci.configMask func (card.stdConfigMask func) } }
  (resetBars card func).foldl (fun d bar =>
    d.configWrite card func (barOffset bar) .long
      ((d.pci.configData func).load (barOffset bar) .long)) d

/-- `ResetPCI`. -/
def resetPCI (secondary : Nat) : PciDevice :=
  (List.finRange 8).foldl (fun d func => if card.deviceAt func then d.resetFunction card func else d)
    (d.mapConfigSpace card secondary)

/-- One BAR in `RestoreState`'s loops. -/
def restoreBar (func : Fin 8) (bar : Fin 7) : PciDevice :=
  let data := (d.pci.configData func).load (barOffset bar) .long
  let mask := (d.pci.configMask func).load (barOffset bar) .long
  if mask = 0 ∨ data &&& mask = mask ∨ data &&& mask = 0 then d
  else if card.bridgeHeader func ∧ barOffset bar > 0x14 then d
  else d.registerBar card func bar data mask

/-- `RestoreState` of a file that `SaveState` wrote. -/
def restoreState (image : PciState) : PciDevice :=
  (List.finRange 8).foldl (fun d func =>
    if card.deviceAt func then (List.finRange 7).foldl (fun d bar => d.restoreBar card func bar) d
    else d) { d with pci := image }

end PciDevice

end Alphabox.Pci
