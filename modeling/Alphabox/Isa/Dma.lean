import Alphabox.Lib.Numerals
import Mathlib.Data.BitVec
import Mathlib.Logic.Function.Basic

/-!
# The ISA DMA controllers (`devices/isa/DMA.cpp`)

Two cascaded 8237s: four byte channels and three word channels. A device moves data with one call
of `transfer`, which is checked and accounted under the lock and then copied. What it moves is given
as pairs of a bus address and an offset in the device's buffer, in order; the direction is the
call's. A call the source ends with a failure has no result.
-/

namespace Alphabox.Isa.Dma

open Function (update)

/-- `SDMA_chan`. -/
structure Chan where
  current : BitVec 16
  base : BitVec 16
  pagebase : BitVec 16
  count : BitVec 16
  baseCount : BitVec 16
  mode : BitVec 8
  deriving DecidableEq

/-- `SDMA_ctrl`. -/
structure Ctrl where
  status : BitVec 8
  command : BitVec 8
  request : BitVec 8
  mask : BitVec 8
  lobyte : Bool
  deriving DecidableEq

/-- `SDMA_state`. -/
structure State where
  channel : Nat → Chan
  controller : Nat → Ctrl

/-- `SDMA_result`. -/
structure Result where
  transferred : Nat
  blocked : Bool
  terminalCount : Bool
  externalEop : Bool
  verify : Bool
  deriving DecidableEq

/-- A byte moved: its bus address and its place in the device's buffer. -/
abbrev Move := BitVec 32 × Nat

/-- What a call leaves: the registers, its result where it does not fail, and what it moved. -/
structure Outcome where
  state : State
  result : Option Result
  moves : List Move

/-- `dma_transfer_width`. -/
def transferWidth (channel : Nat) : Option Nat :=
  if 8 ≤ channel ∨ channel = 4 then none else some (if channel < 4 then 1 else 2)

/-- `do_pci_write` or `do_pci_read` of `n` bytes, from the buffer's `offset` on. -/
def move (addr : Nat) (offset n : Nat) : List Move :=
  (List.range n).map fun j => (BitVec.ofNat 32 addr + BitVec.ofNat 32 j, offset + j)

/-- `dma_copy`. -/
def copy (count width page : Nat) (current : BitVec 16) (decrement : Bool) : List Move :=
  if decrement then
    (List.range (count / width)).flatMap fun k =>
      move (page ||| (current - BitVec.ofNat 16 k).toNat * width) (k * width) width
  else
    let toWrap := (0x10000 - current.toNat) * width
    let first := if count < toWrap then count else toWrap
    move (page ||| current.toNat * width) 0 first ++
      if first < count then move page first (count - first) else []

/-- The controller of a channel. -/
def ctrlOf (channel : Nat) : Nat := if channel < 4 then 0 else 1

/-- The channel's bit in its controller's registers. -/
def bitOf (channel : Nat) : BitVec 8 := 1 <<< (channel % 4)

/-- `complete_transfer`. -/
def completeTransfer (s : State) (channel : Nat) : State :=
  let bit := bitOf channel
  let ch := s.channel channel
  let c := s.controller (ctrlOf channel)
  let c := { c with status := c.status ||| bit, request := c.request &&& ~~~bit }
  if ch.mode &&& 0x10 ≠ 0 then
    { channel := update s.channel channel { ch with current := ch.base, count := ch.baseCount },
      controller := update s.controller (ctrlOf channel) c }
  else { s with controller := update s.controller (ctrlOf channel) { c with mask := c.mask ||| bit } }

/-- `advance_transfer`: the registers, and whether the count has been reached. -/
def advanceTransfer (s : State) (channel units : Nat) (eop : Bool) : State × Bool :=
  let ch := s.channel channel
  let terminalCount := decide (units = ch.count.toNat + 1)
  let s :=
    { s with
      channel := update s.channel channel
        { ch with
          current :=
            if ch.mode &&& 0x20 ≠ 0 then ch.current - BitVec.ofNat 16 units
            else ch.current + BitVec.ofNat 16 units
          count := ch.count - BitVec.ofNat 16 units } }
  (if terminalCount || eop then completeTransfer s channel else s, terminalCount)

/-- The tests of `transfer` that refuse a call: the controller disabled, the channel masked without a
software request, cascade mode, a transfer type of the other direction or an illegal one. -/
def Blocked (s : State) (channel : Nat) (toMemory : Bool) : Prop :=
  let ch := s.channel channel
  let c := s.controller (ctrlOf channel)
  c.command &&& 0x04 ≠ 0 ∨ (c.mask &&& bitOf channel ≠ 0 ∧ c.request &&& bitOf channel = 0) ∨
    ch.mode &&& 0xc0 = 0xc0 ∨
    (ch.mode &&& 0x0c ≠ 0 ∧ ch.mode &&& 0x0c ≠ if toMemory then 0x04 else 0x08)

instance (s : State) (channel : Nat) (toMemory : Bool) : Decidable (Blocked s channel toMemory) := by
  unfold Blocked
  infer_instance

/-- The page component of an address. -/
def pageOf (ch : Chan) (addr32 : Bool) (width : Nat) : Nat :=
  let pagebase := if addr32 then ch.pagebase else ch.pagebase &&& 0x00ff
  let pagebase := if width = 2 then pagebase &&& 0xfffe else pagebase
  pagebase.toNat <<< 16

/-- `transfer`; `ali` is whether there is a bridge, `addr32` bit 6 of its register 0x42. -/
def transfer (ali addr32 : Bool) (s : State) (channel length : Nat) (eop toMemory : Bool) : Outcome :=
  match transferWidth channel with
  | none => ⟨s, none, []⟩
  | some width =>
    if ali = false ∨ Blocked s channel toMemory then ⟨s, some ⟨0, true, false, false, false⟩, []⟩
    else
      let ch := s.channel channel
      let count := (ch.count.toNat + 1) * width
      let count := if 0 < length ∧ length < count then length else count
      if count % width ≠ 0 then ⟨s, none, []⟩
      else
        let (s, terminalCount) := advanceTransfer s channel (count / width) eop
        if ch.mode &&& 0x0c = 0 then ⟨s, some ⟨0, false, terminalCount, eop, true⟩, []⟩
        else
          ⟨s, some ⟨count, false, terminalCount, eop, false⟩,
            copy count width (pageOf ch addr32 width) ch.current (ch.mode &&& 0x20 ≠ 0)⟩

/-! ## A device that cuts its transfer -/

/-- Calls of `transfer` for pieces of the given lengths, the device's EOP with the last one; the
moves are within the whole buffer, of which `offset` bytes are done. -/
def transferPieces (ali addr32 : Bool) (channel : Nat) (eop toMemory : Bool) :
    State → Nat → List Nat → State × List (Option Result) × List Move
  | s, _, [] => (s, [], [])
  | s, offset, l :: ls =>
    let o := transfer ali addr32 s channel l (eop && ls.isEmpty) toMemory
    let (s, rs, ms) := transferPieces ali addr32 channel eop toMemory o.state (offset + l) ls
    (s, o.result :: rs, o.moves.map (fun m => (m.1, offset + m.2)) ++ ms)

/-- Where byte `i` of a transfer is in memory. -/
def address (page : Nat) (current : BitVec 16) (decrement : Bool) (width i : Nat) : BitVec 32 :=
  let unit := if decrement then current - BitVec.ofNat 16 (i / width)
    else current + BitVec.ofNat 16 (i / width)
  BitVec.ofNat 32 ((page ||| unit.toNat * width) + i % width)

/-- A call that changes nothing and moves nothing: a failure, or one that reports itself blocked. -/
def Refused (s : State) (o : Outcome) : Prop :=
  o.state = s ∧ o.moves = [] ∧
    (o.result = none ∨ o.result = some ⟨0, true, false, false, false⟩)

end Alphabox.Isa.Dma
