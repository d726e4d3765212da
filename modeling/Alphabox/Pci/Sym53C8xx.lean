import Alphabox.Lib.Numerals
import Mathlib.Data.BitVec
import Mathlib.Logic.Function.Basic

/-!
# The 53C8xx's interrupts (`devices/pci/sym53c8xx/Sym53C8xxInterrupts.cpp`)

One channel's status registers DSTAT, SIST0 and SIST1 with the second level behind each, the
enables, ISTAT and the interrupt pin: `set_interrupt`, `eval_interrupts`, the reads that clear a
status register and the register writes that evaluate the interrupts again
(`Sym53C8xxRegisters.cpp`). Every entry runs under `myRegLock`.

Of the SCRIPTS engine only the flags these functions set or test are kept. A DCNTL or ISTAT write
that starts it ends here where the program would begin to run: what the program then raises are
operations of their own.
-/

namespace Alphabox.Pci

/-- The status registers that stack. -/
inductive StatReg where
  | dstat
  | sist0
  | sist1
  deriving DecidableEq

/-- The parts of the family (`sym_chips`). -/
inductive SymChip where
  | c810
  | c825
  | c875
  | c895
  | c896
  deriving DecidableEq

namespace SymChip

/-- `reg_bytes`. -/
def regBytes : SymChip → Nat
  | .c896 => 256
  | _ => 128

def sien1Mask : SymChip → BitVec 8
  | .c895 | .c896 => 0x17
  | _ => 0x07

def sist1Rc : SymChip → BitVec 8
  | .c895 | .c896 => 0x17
  | _ => 0x07

def sist1Fatal : SymChip → BitVec 8
  | .c895 | .c896 => 0x14
  | _ => 0x04

/-- `DSTAT_RC`, `SIST0_RC` and `SIST1_RC`: the bits a read clears. -/
def rc (chip : SymChip) : StatReg → BitVec 8
  | .dstat => 0x7d
  | .sist0 => 0xff
  | .sist1 => chip.sist1Rc

/-- `DSTAT_FATAL`, `SIST0_FATAL` and `SIST1_FATAL`. -/
def fatal (chip : SymChip) : StatReg → BitVec 8
  | .dstat => 0x7d
  | .sist0 => 0x8f
  | .sist1 => chip.sist1Fatal

end SymChip

def DSTAT_DFE : BitVec 8 := 0x80
def DSTAT_ABRT : BitVec 8 := 0x10
def ISTAT_ABRT : BitVec 8 := 0x80
def ISTAT_SRST : BitVec 8 := 0x40
def ISTAT_SIGP : BitVec 8 := 0x20
def ISTAT_INTF : BitVec 8 := 0x04
def ISTAT_SIP : BitVec 8 := 0x02
def ISTAT_DIP : BitVec 8 := 0x01
def ISTAT_MASK : BitVec 8 := 0xf0
def ISTAT_W1C : BitVec 8 := 0x04
def ISTAT1_SIRQD : BitVec 8 := 0x01
def ISTAT1_MASK : BitVec 8 := 0x01
def DIEN_MASK : BitVec 8 := 0x7d
def DCNTL_STD : BitVec 8 := 0x04
def DCNTL_IRQD : BitVec 8 := 0x02
def DCNTL_MASK : BitVec 8 := 0xfb

/-- `TB_R8`: all the bits of `b` are set. -/
def tb (r b : BitVec 8) : Bool := r &&& b = b

/-- `SB_R8`. -/
def sb (r b : BitVec 8) (c : Bool) : BitVec 8 := (r &&& ~~~b) ||| (if c then b else 0)

/-- `WRM_R8`: only the bits of `mask` are written. -/
def wrm (r v mask : BitVec 8) : BitVec 8 := (r &&& ~~~mask) ||| (v &&& mask)

/-- `WRMW1C_R8`: and a 1 written to a bit of `w1c` clears it. -/
def wrmw1c (r v mask w1c : BitVec 8) : BitVec 8 :=
  (r &&& ~~~mask &&& ~~~w1c) ||| (v &&& mask) ||| (r &&& ~~~v &&& w1c)

/-- One channel's interrupt registers. -/
structure SymChannel where
  /-- DSTAT, SIST0 and SIST1. -/
  reg : StatReg → BitVec 8
  /-- `dstat_stack`, `sist0_stack` and `sist1_stack`: the second level. -/
  stack : StatReg → BitVec 8
  istat : BitVec 8
  istat1 : BitVec 8
  dien : BitVec 8
  sien0 : BitVec 8
  sien1 : BitVec 8
  dcntl : BitVec 8
  irqAsserted : Bool
  /-- The level last given to `do_pci_interrupt`. -/
  line : Bool
  executing : Bool
  waitReselect : Bool
  /-- `scripts_running`: the write comes from the SCRIPTS program itself. -/
  scriptsRunning : Bool

namespace SymChannel

/-- `chip_reset`. The pin is lowered if it was up. -/
def chipReset (s : SymChannel) : SymChannel where
  reg := fun r => if r = .dstat then DSTAT_DFE else 0
  stack := fun _ => 0
  istat := 0
  istat1 := 0
  dien := 0
  sien0 := 0
  sien1 := 0
  dcntl := 0
  irqAsserted := false
  line := if s.irqAsserted then false else s.line
  executing := false
  waitReselect := false
  scriptsRunning := s.scriptsRunning

/-- The zeroed state after `chip_reset`. -/
def init : SymChannel :=
  chipReset ⟨fun _ => 0, fun _ => 0, 0, 0, 0, 0, 0, 0, false, false, false, false, false⟩

variable (chip : SymChip) (s : SymChannel)

/-! ## `eval_interrupts` -/

/-- Nothing is posted: DSTAT's status bit DFE aside, the three registers are clear. -/
def drains : Bool := s.reg .sist0 = 0 && s.reg .sist1 = 0 && s.reg .dstat &&& chip.rc .dstat = 0

/-- The second level moves down where nothing is posted. -/
def moveDown : SymChannel :=
  if s.drains chip then { s with reg := fun r => s.reg r ||| s.stack r, stack := fun _ => 0 }
  else s

/-- A DMA condition is posted: always fatal. -/
def dmaPending : Bool := s.reg .dstat &&& chip.fatal .dstat ≠ 0

def dmaEnabled : Bool := s.reg .dstat &&& s.dien &&& chip.fatal .dstat ≠ 0

/-- A SCSI condition is posted that is fatal or enabled. -/
def scsiPending : Bool :=
  s.reg .sist0 &&& (chip.fatal .sist0 ||| s.sien0) ≠ 0 ||
    s.reg .sist1 &&& (chip.fatal .sist1 ||| s.sien1) ≠ 0

def scsiEnabled : Bool := s.reg .sist0 &&& s.sien0 ≠ 0 || s.reg .sist1 &&& s.sien1 ≠ 0

/-- `will_halt`. -/
def willHalt : Bool := s.dmaPending chip || s.scsiPending chip

/-- The pin is disabled: DCNTL's IRQD, and the 896's SIRQD. -/
def irqDisabled : Bool := tb s.dcntl DCNTL_IRQD || (chip.regBytes > 128 && tb s.istat1 ISTAT1_SIRQD)

/-- `will_assert`. -/
def willAssert : Bool :=
  ((s.dmaPending chip && s.dmaEnabled chip) || (s.scsiPending chip && s.scsiEnabled) ||
    tb s.istat ISTAT_INTF) && !s.irqDisabled chip

/-- DIP, SIP, the halt and the pin, from the registers as they stand. -/
def evaluate : SymChannel :=
  let assert := s.willAssert chip
  { s with
    istat := sb (sb s.istat ISTAT_DIP (s.dmaPending chip)) ISTAT_SIP (s.scsiPending chip)
    executing := if s.willHalt chip then false else s.executing
    line := if assert ≠ s.irqAsserted then assert else s.line
    irqAsserted := assert }

/-- `eval_interrupts`; its result is `willHalt` of the state it leaves. -/
def evalInterrupts : SymChannel := (s.moveDown chip).evaluate chip

/-! ## `set_interrupt` -/

/-- A condition is pending: the next ones stack. -/
def pending : Bool := tb s.istat ISTAT_DIP || tb s.istat ISTAT_SIP

/-- The bits go to the register, or behind it when a condition is pending. -/
def post (r : StatReg) (interrupt : BitVec 8) : SymChannel :=
  if s.pending then { s with stack := Function.update s.stack r (s.stack r ||| interrupt) }
  else { s with reg := Function.update s.reg r (s.reg r ||| interrupt) }

/-- `eval_interrupts` at the end of `set_interrupt`: a halt ends a WAIT RESELECT too. -/
def evalRaised : SymChannel :=
  let s := s.evalInterrupts chip
  { s with waitReselect := if s.willHalt chip then false else s.waitReselect }

/-- `set_interrupt` of DSTAT, SIST0 or SIST1. -/
def setInterrupt (r : StatReg) (interrupt : BitVec 8) : SymChannel :=
  (s.post r interrupt).evalRaised chip

/-- `set_interrupt` of ISTAT. -/
def setIstat (interrupt : BitVec 8) : SymChannel :=
  evalRaised chip { s with istat := s.istat ||| interrupt }

/-! ## Register reads and writes -/

/-- `RDCLR_R8`. -/
def rdclr (r : StatReg) : SymChannel :=
  { s with reg := Function.update s.reg r (s.reg r &&& ~~~chip.rc r) }

/-- `read_b_dstat` and `read_b_sist`. -/
def readB (r : StatReg) : SymChannel × BitVec 8 := ((s.rdclr chip r).evalInterrupts chip, s.reg r)

/-- `start_scripts`. -/
def startScripts : SymChannel :=
  { s with
    executing := true
    waitReselect := if s.scriptsRunning then s.waitReselect else false }

def writeDien (value : BitVec 8) : SymChannel :=
  evalInterrupts chip { s with dien := wrm s.dien value DIEN_MASK }

def setSien0 (value : BitVec 8) : SymChannel := { s with sien0 := value }

def writeSien0 (value : BitVec 8) : SymChannel := (s.setSien0 value).evalInterrupts chip

def setSien1 (value : BitVec 8) : SymChannel :=
  { s with sien1 := wrm s.sien1 value chip.sien1Mask }

def writeSien1 (value : BitVec 8) : SymChannel := (s.setSien1 chip value).evalInterrupts chip

/-- `write_b_dcntl`, up to the program's first instruction. -/
def writeDcntl (value : BitVec 8) : SymChannel :=
  let s := { s with dcntl := wrm s.dcntl value DCNTL_MASK }
  let s := if value &&& DCNTL_STD ≠ 0 then s.startScripts else s
  s.evalInterrupts chip

/-- ISTAT1 is decoded on the 896 only. -/
def writeIstat1 (value : BitVec 8) : SymChannel :=
  if chip.regBytes > 128 then
    evalInterrupts chip { s with istat1 := wrm s.istat1 value ISTAT1_MASK }
  else s

/-- `write_b_istat`'s register write: the high half, and INTF cleared by a 1. -/
def setIstatBits (value : BitVec 8) : SymChannel :=
  { s with istat := wrmw1c s.istat value ISTAT_MASK ISTAT_W1C }

/-- SIGP ends a WAIT RESELECT. -/
def signal : SymChannel :=
  if tb s.istat ISTAT_SIGP && s.waitReselect then startScripts { s with waitReselect := false }
  else s

/-- ABRT raises DSTAT's condition. -/
def abortRequest : SymChannel :=
  if tb s.istat ISTAT_ABRT then s.setInterrupt chip .dstat DSTAT_ABRT else s

/-- SRST, where it was clear, resets the chip. -/
def resetRequest (oldSrst : Bool) : SymChannel :=
  if tb s.istat ISTAT_SRST && !oldSrst then s.chipReset else s

/-- `write_b_istat`, up to the program's first instruction. -/
def writeIstat (value : BitVec 8) : SymChannel :=
  let oldSrst := tb s.istat ISTAT_SRST
  (((s.setIstatBits value).abortRequest chip).resetRequest oldSrst).signal.evalInterrupts chip

end SymChannel

/-! ## Runs -/

/-- One entry of the channel. -/
inductive SymOp where
  | setInterrupt (r : StatReg) (interrupt : BitVec 8)
  | setIstat (interrupt : BitVec 8)
  | read (r : StatReg)
  | writeDien (value : BitVec 8)
  | writeSien0 (value : BitVec 8)
  | writeSien1 (value : BitVec 8)
  | writeDcntl (value : BitVec 8)
  | writeIstat (value : BitVec 8)
  | writeIstat1 (value : BitVec 8)
  /-- SCRIPTS run, and leave the engine's flags so. -/
  | scripts (executing waitReselect running : Bool)

namespace SymChannel

def step (chip : SymChip) (s : SymChannel) : SymOp → SymChannel
  | .setInterrupt r interrupt => s.setInterrupt chip r interrupt
  | .setIstat interrupt => s.setIstat chip interrupt
  | .read r => (s.readB chip r).1
  | .writeDien value => s.writeDien chip value
  | .writeSien0 value => s.writeSien0 chip value
  | .writeSien1 value => s.writeSien1 chip value
  | .writeDcntl value => s.writeDcntl chip value
  | .writeIstat value => s.writeIstat chip value
  | .writeIstat1 value => s.writeIstat1 chip value
  | .scripts executing waitReselect running =>
    { s with executing := executing, waitReselect := waitReselect, scriptsRunning := running }

/-- The operation does not reset the chip: SRST is not raised in ISTAT. -/
def NoReset (s : SymChannel) : SymOp → Prop
  | .writeIstat value => tb s.istat ISTAT_SRST = true ∨ tb value ISTAT_SRST = false
  | _ => True

end SymChannel

end Alphabox.Pci
