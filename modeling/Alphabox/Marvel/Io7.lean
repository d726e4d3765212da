import Alphabox.Marvel.Ev7Csr

/-!
# The IO7 (`chipsets/marvel/Io7.cpp`)

Level-sensitive interrupts (LSIs) that go to a processor as interrupt identifiers, with the
registers that control them and the hot-plug state. An operation of this module is what the code
does under the IO7's lock before it calls `deliver`; it returns the LSIs to deliver.
-/

namespace Alphabox.Marvel

def kPorts : Nat := 4
def kLsis : Nat := 128
def kCsrOff : Nat := 0xFF800000
def POx_CACHE_CTL : Nat := 0x0040
def POx_ERR_SUM : Nat := 0x2000
def EOI_DAT : Nat := 0x2400
def AGP_CAP_ID : Nat := 0x0400
def HP_MISC : Nat := 0x4000
def HP_INTR_IN : Nat := 0x4080
def HP_DEV_CAP : Nat := 0x4100
def HP_PWR : Nat := 0x4180
def HP_CNTL : Nat := 0x41c0
def HP_EVNT : Nat := 0x4200
def IO_ASIC_REV : Nat := 0x300000
def IO_SYS_REV : Nat := 0x300040
def POx_RST : Nat := 0x300140
def PO7_ERROR_SUM : Nat := 0x302000
def LSI_CTL : Nat := 0x310000
def CTL_ENABLE : BitVec 64 := 1#64 <<< 24

/-- `ctl_target`. -/
def ctlTarget (ctl : BitVec 64) : Nat := ((ctl >>> 14) &&& 0x1ff#64).toNat

/-- The IID of LSI `n` of the IO7 on PE `pid`. -/
def iidOf (pid n : Nat) : BitVec 64 := (BitVec.ofNat 64 pid <<< 14) ||| BitVec.ofNat 64 n

/-- The PE in an IID, `<23:14>`: the IO7 that its end of interrupt is written to. -/
def iidPe (iid : BitVec 64) : Nat := ((iid >>> 14) &&& 0x3ff#64).toNat

/-- `CIo7::HotPlug`. -/
structure HotPlug where
  powered : BitVec 64
  connected : BitVec 64
  misc : BitVec 64

/-- `CIo7`; `regs` by port, 0 to 3 and 7. -/
structure Io7 where
  regs : Nat → Nat → BitVec 64
  level : Nat → Bool
  inService : Nat → Bool
  refused : Nat → Bool
  hp : Nat → HotPlug

namespace Io7

variable (io : Io7)

def reset (sysRev : BitVec 64) : Io7 where
  regs port off :=
    if port < kPorts ∧ off = POx_CACHE_CTL then 8
    else if port = 3 ∧ off = AGP_CAP_ID then 0x00200002
    else if port = 7 ∧ off = IO_ASIC_REV then 0x12
    else if port = 7 ∧ off = IO_SYS_REV then sysRev
    else if port = 7 ∧ off = POx_RST + 3 * 0x40 then 6 <<< 6
    else 0
  level _ := false
  inService _ := false
  refused _ := false
  hp _ := { powered := 0x3f, connected := 0x3f, misc := 0 }

def setReg (port off dsize : Nat) (data : BitVec 64) : Io7 :=
  let r := Function.update (io.regs port) off (merge dsize (io.regs port off) data)
  { io with regs := Function.update io.regs port r }

/-- The control register of LSI `n`. -/
def ctl (n : Nat) : BitVec 64 := io.regs 7 (LSI_CTL + n * 0x40)

/-- The PID that `deliver` sends LSI `n` to; `none` when it has nothing to send. -/
def ready (n : Nat) : Option Nat :=
  if !io.level n || io.inService n then none
  else if io.ctl n &&& CTL_ENABLE = 0 then none
  else some (ctlTarget (io.ctl n))

/-- What `deliver` notes of the answer of `post_iid`. -/
def answered (n : Nat) (taken : Bool) : Io7 :=
  if taken then
    { io with
      refused := Function.update io.refused n false
      inService := Function.update io.inService n true }
  else { io with refused := Function.update io.refused n true }

/-- `CIo7::lsi`. -/
def lsi (n : Nat) (assert : Bool) : Io7 × List Nat :=
  if kLsis ≤ n then (io, [])
  else ({ io with level := Function.update io.level n assert }, if assert then [n] else [])

/-- `end_of_interrupt`. -/
def endOfInterrupt (iid : BitVec 64) : Io7 × List Nat :=
  if iid &&& 1#64 <<< 13 ≠ 0 then (io, [])
  else
    let n := (iid &&& 0xff#64).toNat
    if kLsis ≤ n then (io, [])
    else ({ io with inService := Function.update io.inService n false }, [n])

/-- `hp_write`; `none` when the register simply holds what is written. -/
def hpWrite (port r : Nat) (data : BitVec 64) : Option Io7 :=
  let hp := io.hp port
  let on := (data >>> 8) &&& 0x3f#64
  let off := data &&& 0x3f#64
  let setHp (io : Io7) (hp : HotPlug) : Io7 := { io with hp := Function.update io.hp port hp }
  if r = HP_MISC then some (setHp io { hp with misc := hp.misc &&& ~~~data })
  else if r = HP_PWR then
    some ((setHp io { hp with
      powered := (hp.powered ||| on) &&& ~~~off
      misc := hp.misc ||| on ||| off }).setReg port r 64 data)
  else if r = HP_CNTL then
    some ((setHp io { hp with
      connected := (hp.connected ||| on) &&& ~~~off
      misc := hp.misc ||| (on ||| off) <<< 16 }).setReg port r 64 data)
  else if r ∈ [HP_EVNT, HP_INTR_IN, HP_DEV_CAP] then some io
  else none

/-- A write to register `r` of a PCI port. -/
def writePort (port r dsize : Nat) (data : BitVec 64) : Io7 × List Nat :=
  match if HP_MISC ≤ r ∧ r ≤ HP_EVNT then io.hpWrite port r data else none with
  | some io => (io, [])
  | none =>
    if r ∈ [POx_ERR_SUM, 0x20c0, 0x2100, 0x2140] then (io, [])
    else if r = EOI_DAT then (io.setReg port r dsize data).endOfInterrupt data
    else (io.setReg port r dsize data, [])

/-- A write to register `r` of port 7. -/
def writePort7 (r dsize : Nat) (data : BitVec 64) : Io7 × List Nat :=
  if r ∈ [IO_ASIC_REV, IO_SYS_REV, PO7_ERROR_SUM, 0x302100, 0x302140] then (io, [])
  else
    (io.setReg 7 r dsize data,
      if LSI_CTL ≤ r ∧ r < LSI_CTL + kLsis * 0x40 then [(r - LSI_CTL) / 0x40] else [])

/-- `CIo7::write`. -/
def write (port off dsize : Nat) (data : BitVec 64) : Io7 × List Nat :=
  if off < kCsrOff then (io, [])
  else if port < kPorts then io.writePort port (off - kCsrOff) dsize data
  else if port = 7 then io.writePort7 (off - kCsrOff) dsize data
  else (io, [])

/-- What `CIo7::save_state` writes. -/
structure Saved where
  regs : Nat → Nat → BitVec 64
  level : Nat → Bool
  inService : Nat → Bool
  hp : Nat → HotPlug

def save : Saved where
  regs := io.regs
  level := io.level
  inService := io.inService
  hp := io.hp

def restore (s : Saved) : Io7 :=
  { io with
    regs := s.regs
    level := s.level
    inService := s.inService
    hp := s.hp }

end Io7

end Alphabox.Marvel
