import Alphabox.Lib.Numerals
import Mathlib.Data.List.Basic

/-!
# The cascaded 8259A pair (`devices/isa/I8259.cpp`)

The ALi M1543C's two interrupt controllers: the master and the slave on its input 2. `Chip` is
one controller's column of `SPic_state`; `I8259` is the pair with the level last given to
`int_line`, the master's INT output. Every entry of the class runs under the pair's lock, so an
operation is a function of the pair's state (`Op.exec`).

The statistics counters (`g_irqstats`) are not modelled: nothing here reads them.
-/

namespace Alphabox.Isa

/-- One controller's registers. -/
structure Chip where
  irr : BitVec 8
  imr : BitVec 8
  isr : BitVec 8
  lastIrr : BitVec 8
  irqBase : BitVec 8
  priorityAdd : Fin 8
  readRegSelect : Bool
  poll : Bool
  specialMask : Bool
  /-- 0 normal, 1 ICW2, 2 ICW3, 3 ICW4 comes next. -/
  initState : Fin 4
  autoEoi : Bool
  rotateOnAeoi : Bool
  specialFnm : Bool
  init4 : Bool
  singleMode : Bool
  elcr : BitVec 8
  ltim : Bool
  deriving DecidableEq

/-- The source's `index`: 0 is the master, 1 the slave. -/
inductive Index where
  | master
  | slave
  deriving DecidableEq

/-- The pair, and the level last given to `int_line`. -/
structure I8259 where
  master : Chip
  slave : Chip
  intLine : Bool
  deriving DecidableEq

namespace I8259

def chip (s : I8259) : Index → Chip
  | .master => s.master
  | .slave => s.slave

def setChip (s : I8259) (c : Chip) : Index → I8259
  | .master => { s with master := c }
  | .slave => { s with slave := c }

end I8259

/-- `1 << n` as the registers hold it. -/
def bit (n : Fin 8) : BitVec 8 := 1#8 <<< n.val

/-- The input's bit of a register. -/
def has (r : BitVec 8) (n : Fin 8) : Bool := r.getLsbD n.val

/-- The cascade: the master's input 2. -/
def cascade : Fin 8 := 2

/-- `(priority + priority_add) & 7`. -/
def rotated (priority : Nat) (priorityAdd : Fin 8) : Fin 8 := Fin.ofNat 8 (priority + priorityAdd.val)

/-- `pic_priority_of`: the highest-priority bit of `mask` under the rotation, 8 when it has
none. -/
def priorityOf (mask : BitVec 8) (priorityAdd : Fin 8) : Nat :=
  ((List.range 8).find? fun priority => has mask (rotated priority priorityAdd)).getD 8

/-- The in-service levels that block a request: without the masked ones in special mask mode,
without the cascade in the master's special fully nested mode. -/
def isrMask (index : Index) (c : Chip) : BitVec 8 :=
  let mask := if c.specialMask then c.isr &&& ~~~c.imr else c.isr
  if c.specialFnm ∧ index = .master then mask &&& ~~~bit cascade else mask

/-- `get_irq`: the request the controller wants to deliver now. -/
def getIrq (index : Index) (c : Chip) : Option (Fin 8) :=
  let priority := priorityOf (c.irr &&& ~~~c.imr) c.priorityAdd
  if priority = 8 then none
  else if priority < priorityOf (isrMask index c) c.priorityAdd then
    some (rotated priority c.priorityAdd)
  else none

namespace I8259

/-- The slave's output drives the master's input 2, edge or level as ELCR and LTIM say; a low
output takes the request away in either mode. -/
def driveCascade (lineHigh : Bool) (m : Chip) : Chip :=
  if lineHigh then
    if has m.elcr cascade ∨ m.ltim then
      { m with irr := m.irr ||| bit cascade, lastIrr := m.lastIrr ||| bit cascade }
    else if has m.lastIrr cascade then { m with lastIrr := m.lastIrr ||| bit cascade }
    else { m with irr := m.irr ||| bit cascade, lastIrr := m.lastIrr ||| bit cascade }
  else { m with irr := m.irr &&& ~~~bit cascade, lastIrr := m.lastIrr &&& ~~~bit cascade }

/-- `update_output`. -/
def updateOutput (s : I8259) : Index → I8259
  | .master => { s with intLine := (getIrq .master s.master).isSome }
  | .slave =>
    let m := driveCascade (getIrq .slave s.slave).isSome s.master
    { s with master := m, intLine := (getIrq .master m).isSome }

/-- A controller's registers change and its output follows. -/
def refresh (s : I8259) (index : Index) (c : Chip) : I8259 :=
  (s.setChip c index).updateOutput index

end I8259

/-- The registers `init_reset` leaves; ELCR and LTIM stay. -/
def Chip.initReset (c : Chip) : Chip where
  irr := c.irr &&& c.elcr
  imr := 0
  isr := 0
  lastIrr := 0
  irqBase := 0
  priorityAdd := 0
  readRegSelect := false
  poll := false
  specialMask := false
  initState := 0
  autoEoi := false
  rotateOnAeoi := false
  specialFnm := false
  init4 := false
  singleMode := false
  elcr := c.elcr
  ltim := c.ltim

/-- The registers `intack` leaves: in service unless AEOI, and an edge's request consumed. -/
def Chip.intack (c : Chip) (irq : Fin 8) : Chip :=
  let c :=
    if c.autoEoi then
      if c.rotateOnAeoi then { c with priorityAdd := irq + 1 } else c
    else { c with isr := c.isr ||| bit irq }
  if has c.elcr irq ∨ c.ltim then c else { c with irr := c.irr &&& ~~~bit irq }

/-- OCW3's poll command and register selection. -/
def Chip.select (c : Chip) (data : BitVec 8) : Chip :=
  { c with
    poll := if data.getLsbD 2 then true else c.poll
    readRegSelect := if data.getLsbD 1 then data.getLsbD 0 else c.readRegSelect }

namespace I8259

/-- `init_reset`. -/
def initReset (s : I8259) (index : Index) : I8259 := s.refresh index (s.chip index).initReset

/-- `reset`: power-on, every input edge triggered. -/
def reset (s : I8259) : I8259 :=
  let s := { s with master := { s.master with elcr := 0, ltim := false } }.initReset .master
  { s with slave := { s.slave with elcr := 0, ltim := false } }.initReset .slave

/-- `intack`. -/
def intack (s : I8259) (index : Index) (irq : Fin 8) : I8259 :=
  s.refresh index ((s.chip index).intack irq)

/-- `read`: a poll answers and acknowledges, otherwise the register selected. -/
def read (s : I8259) (index : Index) (address : Nat) : I8259 × BitVec 8 :=
  let c := s.chip index
  if c.poll then
    let (s, data) := match getIrq index c with
      | some irq => (s.intack index irq, BitVec.ofNat 8 irq.val ||| 0x80#8)
      | none => (s, 0#8)
    (s.setChip { s.chip index with poll := false } index, data)
  else if address = 0 then (s, if c.readRegSelect then c.isr else c.irr)
  else (s, c.imr)

/-- `read_vector`: the vector of an acknowledge cycle, with the slave's hand-off. -/
def readVector (s : I8259) : I8259 × BitVec 8 :=
  match getIrq .master s.master with
  | some irq =>
    if irq = cascade then
      match getIrq .slave s.slave with
      | some irq2 =>
        let s' := s.intack .slave irq2
        (s'.intack .master irq, s'.slave.irqBase + BitVec.ofNat 8 irq2.val)
      | none => (s.intack .master irq, s.slave.irqBase + 7#8) -- spurious slave IRQ
    else (s.intack .master irq, s.master.irqBase + BitVec.ofNat 8 irq.val)
  | none => (s, s.master.irqBase + 7#8) -- spurious master IRQ

/-- ICW1: the initialisation starts. -/
def writeIcw1 (s : I8259) (index : Index) (data : BitVec 8) : I8259 :=
  let s := s.initReset index
  s.setChip { s.chip index with
    initState := 1
    init4 := data.getLsbD 0
    singleMode := data.getLsbD 1
    ltim := data.getLsbD 3 } index

/-- OCW3: poll, register selection, special mask mode. -/
def writeOcw3 (s : I8259) (index : Index) (data : BitVec 8) : I8259 :=
  let c := (s.chip index).select data
  if data.getLsbD 6 ∧ data.getLsbD 5 ≠ c.specialMask then
    s.refresh index { c with specialMask := data.getLsbD 5 }
  else s.setChip c index

/-- OCW2: the end-of-interrupt and rotation commands, `data<7:5>`. -/
def writeOcw2 (s : I8259) (index : Index) (data : BitVec 8) : I8259 :=
  let c := s.chip index
  let level : Fin 8 := Fin.ofNat 8 data.toNat
  let nonSpecific (rotate : Bool) : I8259 :=
    let priority := priorityOf c.isr c.priorityAdd
    if priority = 8 then s
    else
      let eoiIrq := rotated priority c.priorityAdd
      let c := { c with isr := c.isr &&& ~~~bit eoiIrq }
      s.refresh index (if rotate then { c with priorityAdd := eoiIrq + 1 } else c)
  match data.toNat / 32 with
  | 0 => s.setChip { c with rotateOnAeoi := false } index
  | 4 => s.setChip { c with rotateOnAeoi := true } index
  | 1 => nonSpecific false
  | 5 => nonSpecific true
  | 3 => s.refresh index { c with isr := c.isr &&& ~~~bit level }
  | 6 => s.refresh index { c with priorityAdd := level + 1 }
  | 7 => s.refresh index { c with isr := c.isr &&& ~~~bit level, priorityAdd := level + 1 }
  | _ => s

/-- Address 1: ICW2 to ICW4 during an initialisation, OCW1 (the mask) otherwise. -/
def writeData (s : I8259) (index : Index) (data : BitVec 8) : I8259 :=
  let c := s.chip index
  match c.initState with
  | 0 => s.refresh index { c with imr := data }
  | 1 =>
    let next := if c.singleMode then (if c.init4 then 3 else 0) else 2
    s.setChip { c with irqBase := data &&& 0xf8#8, initState := next } index
  | 2 => s.setChip { c with initState := if c.init4 then 3 else 0 } index
  | 3 =>
    s.setChip { c with
      specialFnm := data.getLsbD 4, autoEoi := data.getLsbD 1, initState := 0 } index

/-- `write`. -/
def write (s : I8259) (index : Index) (address : Nat) (data : BitVec 8) : I8259 :=
  if address = 0 then
    if data.getLsbD 4 then s.writeIcw1 index data
    else if data.getLsbD 3 then s.writeOcw3 index data
    else s.writeOcw2 index data
  else s.writeData index data

/-- `write_elcr`. -/
def writeElcr (s : I8259) (index : Index) (data : BitVec 8) : I8259 :=
  s.refresh index { s.chip index with elcr := data }

/-- `interrupt`: latch a fresh edge. -/
def interrupt (s : I8259) (index : Index) (intno : Fin 8) : I8259 :=
  let c := s.chip index
  s.refresh index { c with
    irr := c.irr ||| bit intno
    lastIrr := (c.lastIrr &&& ~~~bit intno) ||| bit intno }

/-- `deassert`: the line drops; a level input's request goes with it. -/
def deassert (s : I8259) (index : Index) (intno : Fin 8) : I8259 :=
  let c := s.chip index
  let irr := if has c.elcr intno ∨ c.ltim then c.irr &&& ~~~bit intno else c.irr
  s.refresh index { c with irr, lastIrr := c.lastIrr &&& ~~~bit intno }

/-- `set_line`: the request follows a level the device holds. -/
def setLine (s : I8259) (index : Index) (intno : Fin 8) (active : Bool) : I8259 :=
  let c := s.chip index
  let up := { c with irr := c.irr ||| bit intno, lastIrr := c.lastIrr ||| bit intno }
  let down := { c with irr := c.irr &&& ~~~bit intno, lastIrr := c.lastIrr &&& ~~~bit intno }
  if has c.elcr intno ∨ c.ltim then s.refresh index (if active then up else down)
  else if active then
    -- edge triggered: a held line gives no second edge
    s.refresh index (if has c.lastIrr intno then { c with lastIrr := c.lastIrr ||| bit intno } else up)
  else s.refresh index down

end I8259

/-- The entries of the class. -/
inductive Op where
  | read (index : Index) (address : Nat)
  | write (index : Index) (address : Nat) (data : BitVec 8)
  | readElcr (index : Index)
  | writeElcr (index : Index) (data : BitVec 8)
  | readVector
  | interrupt (index : Index) (intno : Fin 8)
  | deassert (index : Index) (intno : Fin 8)
  | setLine (index : Index) (intno : Fin 8) (active : Bool)
  deriving DecidableEq

/-- An operation: the pair after it and the byte it returns (0 where it returns none). -/
def Op.exec (s : I8259) : Op → I8259 × BitVec 8
  | .read index address => s.read index address
  | .write index address data => (s.write index address data, 0)
  | .readElcr index => (s, (s.chip index).elcr)
  | .writeElcr index data => (s.writeElcr index data, 0)
  | .readVector => s.readVector
  | .interrupt index intno => (s.interrupt index intno, 0)
  | .deassert index intno => (s.deassert index intno, 0)
  | .setLine index intno active => (s.setLine index intno active, 0)

/-- The operation acknowledges a request: a vector read or a poll that finds one. -/
def Op.Acks (s : I8259) : Op → Prop
  | .readVector => (getIrq .master s.master).isSome
  | .read index _ => (s.chip index).poll ∧ (getIrq index (s.chip index)).isSome
  | _ => False

/-- The operation drives the master's input 2, which is the slave's output's. -/
def Op.DrivesCascade : Op → Prop
  | .interrupt .master n | .deassert .master n | .setLine .master n _ => n = cascade
  | _ => False

end Alphabox.Isa
