import Alphabox.Lib.Numerals
import Mathlib.Data.BitVec
import Mathlib.Logic.Function.Basic

/-!
# The ISP10x0's queues and mailboxes (`devices/pci/isp1040/`)

The request and response queues in host memory, the mailboxes that mirror their pointers and the
mailbox commands: `run_request_queue`, `post_response`, `mailbox_command` and the register writes
that reach them. Everything runs under `myLock`, a slice of the request queue included.

Indices and mailboxes are 16-bit values kept as numbers: every index computed here is reduced
modulo a queue length. The two queues are arrays of entries: the driver keeps them apart in host
memory, and apart from the buffers. What a SCSI command comes to on the bus is an input of the
slice that runs it (`IspOutcome`).
-/

namespace Alphabox.Pci

/-- The fields of `isp_chip_config` that the mailbox commands use. -/
structure IspChip where
  buses : Nat
  wide : Bool
  ultra : Bool
  ultra2 : Bool
  gen1080 : Bool
  firmwareMajor : Nat
  firmwareMinor : Nat
  firmwareMicro : Nat

/-! ## Queue entries -/

def ISP_ENTRY_TYPE_REQUEST : BitVec 8 := 0x01
def ISP_ENTRY_TYPE_DATASEG : BitVec 8 := 0x02
def ISP_ENTRY_TYPE_RESPONSE : BitVec 8 := 0x03
def ISP_ENTRY_TYPE_MARKER : BitVec 8 := 0x04
def ISP_ENTRY_TYPE_CMDONLY : BitVec 8 := 0x05
def ISP_ENTRY_TYPE_A64 : BitVec 8 := 0x09
def ISP_ENTRY_TYPE_A64_CONT : BitVec 8 := 0x0a

/-- A request queue entry: what `run_request_queue` and `post_response` read of it. -/
structure IspEntry where
  type : BitVec 8
  /-- How many slots the entry takes, its continuations included. -/
  count : BitVec 8
  handle : BitVec 32
  deriving DecidableEq

namespace IspEntry

/-- A marker, or segments belonging to the entry before: taken without an answer. -/
def silent (e : IspEntry) : Bool :=
  e.type = ISP_ENTRY_TYPE_MARKER || e.type = ISP_ENTRY_TYPE_DATASEG ||
    e.type = ISP_ENTRY_TYPE_A64_CONT

/-- A SCSI command. -/
def isCommand (e : IspEntry) : Bool :=
  e.type = ISP_ENTRY_TYPE_REQUEST || e.type = ISP_ENTRY_TYPE_CMDONLY || e.type = ISP_ENTRY_TYPE_A64

/-- `entry[1] ? entry[1] : 1`. -/
def slots (e : IspEntry) : Nat := if e.count = 0 then 1 else e.count.toNat

end IspEntry

/-- What the bus made of a command: `post_response`'s arguments. -/
structure IspOutcome where
  completion : BitVec 16
  scsiStatus : BitVec 16
  stateFlags : BitVec 16
  residual : BitVec 32
  sense : List (BitVec 8)
  deriving DecidableEq

/-- A status entry as `post_response` writes it. -/
structure IspResponse where
  type : BitVec 8
  count : BitVec 8
  handle : BitVec 32
  scsiStatus : BitVec 8
  completion : BitVec 16
  stateFlags : BitVec 16
  statusFlags : BitVec 16
  senseLen : Nat
  residual : BitVec 32
  sense : List (BitVec 8)
  deriving DecidableEq

def ISP_STATUS_DMA_ERROR : BitVec 16 := 0x0002
def ISP_STATUS_FLAG_SENSE_VALID : BitVec 16 := 0x0200
def ISP_STATE_GOT_SENSE : BitVec 16 := 0x2000
def ISP_RSP_SENSE_MAX : Nat := 32

/-- The entry `post_response` builds. -/
def statusEntry (request : IspEntry) (o : IspOutcome) : IspResponse where
  type := ISP_ENTRY_TYPE_RESPONSE
  count := 1
  handle := request.handle
  scsiStatus := o.scsiStatus.setWidth 8
  completion := o.completion
  stateFlags := if o.sense = [] then o.stateFlags else o.stateFlags ||| ISP_STATE_GOT_SENSE
  statusFlags := if o.sense = [] then 0 else ISP_STATUS_FLAG_SENSE_VALID
  senseLen := min o.sense.length ISP_RSP_SENSE_MAX
  residual := o.residual
  sense := o.sense.take ISP_RSP_SENSE_MAX

/-- `execute_entry`: what is posted for the entry, if anything. -/
def executeEntry (e : IspEntry) (o : IspOutcome) : Option IspResponse :=
  if e.silent then none
  else if e.isCommand then some (statusEntry e o)
  else some (statusEntry e ⟨ISP_STATUS_DMA_ERROR, 0, 0, 0, []⟩)

/-! ## The adapter -/

def ISP_SEMA_LOCK : BitVec 16 := 0x0001
def ISP_SEMA_STATUS : BitVec 16 := 0x0002
def ISP_ISR_IPEND : BitVec 16 := 0x0002
def ISP_ISR_RISC_INT : BitVec 16 := 0x0004
def ISP_ICR_ENABLE_ALL : BitVec 16 := 0x0002
def ISP_ICR_ENABLE_RISC : BitVec 16 := 0x0004
def ISP_QUEUE_SLICE : Nat := 32

/-- `SIsp_state`'s queues, mailboxes and what the mailbox commands set, with the two queues'
memory. -/
structure Isp1040 where
  icr : BitVec 16
  isr : BitVec 16
  sema : BitVec 16
  conf1 : Nat
  mailbox : Nat → Nat
  mailboxOut : Nat → Nat
  riscReset : Bool
  firmwareRunning : Bool
  requestLength : Nat
  requestIn : Nat
  requestOut : Nat
  responseLength : Nat
  responseIn : Nat
  responseOut : Nat
  initiatorId : Nat → Nat
  pendingAsync : Nat
  irqAsserted : Bool
  queuePending : Bool
  /-- `m_risc_ram`. -/
  riscRam : Nat → Nat
  /-- The request queue's slots in host memory. -/
  requests : Nat → IspEntry
  /-- The response queue's slots in host memory. -/
  responses : Nat → IspResponse

namespace Isp1040

variable (s : Isp1040)

/-- The semaphore is clear: no mailbox result is waiting. -/
def semaClear : Bool := s.sema &&& ISP_SEMA_LOCK = 0

/-- `update_irq`, on a slot with an interrupt line. -/
def updateIrq : Isp1040 :=
  { s with
    irqAsserted := s.isr &&& ISP_ISR_RISC_INT ≠ 0 && s.icr &&& ISP_ICR_ENABLE_ALL ≠ 0 &&
      s.icr &&& ISP_ICR_ENABLE_RISC ≠ 0 }

/-- The interrupt status of something for the driver. -/
def raiseIsr : Isp1040 := updateIrq { s with isr := s.isr ||| ISP_ISR_RISC_INT ||| ISP_ISR_IPEND }

/-- `publish`: the pointers, in mailboxes 4 and 5. -/
def publish : Isp1040 :=
  { s with
    mailboxOut := Function.update (Function.update s.mailboxOut 4 s.requestOut) 5 s.responseIn }

/-- `post_response`. -/
def postResponse (r : IspResponse) : Isp1040 :=
  if s.responseLength = 0 then s
  else
    let s := { s with
      responses := Function.update s.responses s.responseIn r
      responseIn := (s.responseIn + 1) % s.responseLength }
    s.publish.raiseIsr

/-- The entry has been taken, whatever it is. -/
def advance (entry : IspEntry) : Isp1040 :=
  publish { s with requestOut := (s.requestOut + entry.slots) % s.requestLength }

/-- One turn of `run_request_queue`'s loop: the entry at `request_out` is taken and run. -/
def takeEntry (o : IspOutcome) : Isp1040 × List IspResponse :=
  let entry := s.requests s.requestOut
  match executeEntry entry o with
  | none => (s.advance entry, [])
  | some r => ((s.advance entry).postResponse r, [r])

/-- The loop of `run_request_queue`, `n` turns left: the adapter, what was posted, and whether the
queue was found empty. -/
def sliceLoop (outcomes : Nat → IspOutcome) : Nat → Isp1040 → Isp1040 × List IspResponse × Bool
  | 0, s => (s, [], false)
  | n + 1, s =>
    if s.requestLength = 0 ∨ s.requestOut = s.requestIn then (s, [], true)
    else
      let (s, posted) := s.takeEntry (outcomes n)
      let (s, later, empty) := sliceLoop outcomes n s
      (s, posted ++ later, empty)

/-- `run_request_queue`. -/
def runRequestQueue (outcomes : Nat → IspOutcome) : Isp1040 × List IspResponse :=
  let (s, posted, empty) := sliceLoop outcomes ISP_QUEUE_SLICE { s with queuePending := false }
  if empty then (s, posted)
  else ({ s with queuePending := s.requestOut ≠ s.requestIn }, posted)

/-! ## Mailbox commands -/

/-- `mailbox_done`. -/
def mailboxDone (status : Nat) : Isp1040 :=
  raiseIsr { s with mailboxOut := Function.update s.mailboxOut 0 status, sema := ISP_SEMA_LOCK }

/-- `raise_async`: an event waits while a result is unread. -/
def raiseAsync (event : Nat) : Isp1040 :=
  if s.semaClear then
    raiseIsr { s with mailboxOut := Function.update s.mailboxOut 0 event, sema := ISP_SEMA_LOCK }
  else { s with pendingAsync := event }

end Isp1040

/-- The mailbox commands by what they do; the numbers are `commandOf`'s. -/
inductive MboxCommand where
  /-- Accepted, and answered with the registers it was given. -/
  | accepted
  | loadRam
  | writeRamWord
  | readRamWord
  | execFirmware
  | stopFirmware
  | aboutFirmware
  | getFirmwareStatus
  | initReqQueue
  | initResQueue
  | busReset
  | setInitScsiId
  | getInitScsiId
  | getClockRate
  | getSelectTimeout
  | getRetryCount
  | getTagAgeLimit
  | getActNegState
  | getAsyncDataSetup
  | getPciParams
  | getTargetParams
  | getDevQueueParams
  | unsupported
  deriving DecidableEq

namespace MboxCommand

/-- The command of mailbox 0. -/
def commandOf (mailbox0 : Nat) : MboxCommand :=
  if mailbox0 ∈ [0x00, 0x06, 0x07, 0x15, 0x16, 0x17, 0x19, 0x1a, 0x31, 0x32, 0x33, 0x34, 0x35, 0x36,
      0x37, 0x38, 0x39, 0x3a, 0x45, 0x4a, 0x5a] then .accepted
  else if mailbox0 = 0x01 then .loadRam
  else if mailbox0 = 0x02 then .execFirmware
  else if mailbox0 = 0x04 then .writeRamWord
  else if mailbox0 = 0x05 then .readRamWord
  else if mailbox0 = 0x08 then .aboutFirmware
  else if mailbox0 = 0x10 ∨ mailbox0 = 0x52 then .initReqQueue
  else if mailbox0 = 0x11 ∨ mailbox0 = 0x53 then .initResQueue
  else if mailbox0 = 0x14 then .stopFirmware
  else if mailbox0 = 0x18 then .busReset
  else if mailbox0 = 0x1f then .getFirmwareStatus
  else if mailbox0 = 0x20 then .getInitScsiId
  else if mailbox0 = 0x21 then .getSelectTimeout
  else if mailbox0 = 0x22 then .getRetryCount
  else if mailbox0 = 0x23 then .getTagAgeLimit
  else if mailbox0 = 0x24 then .getClockRate
  else if mailbox0 = 0x25 then .getActNegState
  else if mailbox0 = 0x26 then .getAsyncDataSetup
  else if mailbox0 = 0x27 then .getPciParams
  else if mailbox0 = 0x28 then .getTargetParams
  else if mailbox0 = 0x29 then .getDevQueueParams
  else if mailbox0 = 0x30 then .setInitScsiId
  else .unsupported

/-- A command that sets up a queue. -/
def setsQueue : MboxCommand → Bool
  | .initReqQueue | .initResQueue => true
  | _ => false

end MboxCommand

namespace Isp1040

def ISP_MBOX_COMMAND_COMPLETE : Nat := 0x4000
def ISP_MBOX_INVALID_COMMAND : Nat := 0x4001
def ISP_ASYNC_BUS_RESET : Nat := 0x8001

variable (chip : IspChip) (s : Isp1040)

/-- One of mailboxes 1 to 3 of the answer. -/
def answer (n : Fin 3) (value : Nat) : Isp1040 :=
  { s with mailboxOut := Function.update s.mailboxOut (n.val + 1) value }

/-- LOAD RAM's loop: words of host memory at mailboxes 2 and 3 to RISC memory at mailbox 1. -/
def loadRam (dma16 : Nat → Nat) : Isp1040 :=
  { s with
    riscRam := fun a =>
      let i := (a + 0x10000 - s.mailbox 1) % 0x10000
      if i < s.mailbox 4 then dma16 ((s.mailbox 2 * 0x10000 + s.mailbox 3 + 2 * i) % 2 ^ 32)
      else s.riscRam a }

/-- Which bus a command is for. -/
def idBus : Nat := if chip.buses > 1 then s.mailbox 1 / 0x80 % 2 else 0

/-- GET TARGET PARAMETERS: everything the part can do, and its rates. -/
def targetParams : Isp1040 :=
  let flags := 0x01 + 0x04 + 0x08 + 0x10 + (if chip.wide then 0x20 else 0) + 0x40 + 0x80
  (s.answer 1 (flags * 0x100)).answer 2
    (if chip.gen1080 then 12 * 0x100 + 10 else 0x0f * 0x100 + (if chip.ultra then 0x0c else 0x19))

/-- What a command does before `mailbox_done`. -/
def perform (dma16 : Nat → Nat) : MboxCommand → Isp1040
  | .accepted | .busReset | .unsupported => s
  | .loadRam => s.loadRam dma16
  | .writeRamWord => { s with riscRam := Function.update s.riscRam (s.mailbox 1) (s.mailbox 2) }
  | .readRamWord => s.answer 1 (s.riscRam (s.mailbox 1))
  | .execFirmware => { s with firmwareRunning := true, riscReset := false }
  | .stopFirmware => { s with firmwareRunning := false }
  | .aboutFirmware =>
    ((s.answer 0 chip.firmwareMajor).answer 1 chip.firmwareMinor).answer 2 chip.firmwareMicro
  | .getFirmwareStatus => s.answer 0 0
  | .initReqQueue =>
    { s with requestLength := s.mailbox 1, requestIn := s.mailbox 4, requestOut := s.mailbox 4 }
  | .initResQueue =>
    { s with responseLength := s.mailbox 1, responseIn := s.mailbox 5, responseOut := s.mailbox 5 }
  | .setInitScsiId =>
    { s with initiatorId := Function.update s.initiatorId (s.idBus chip) (s.mailbox 1 % 0x10) }
  | .getInitScsiId => s.answer 0 (s.initiatorId (s.idBus chip))
  | .getClockRate => s.answer 0 (if chip.ultra2 then 100 else if chip.ultra then 60 else 40)
  | .getSelectTimeout => s.answer 0 250
  | .getRetryCount => (s.answer 0 4).answer 1 5
  | .getTagAgeLimit => s.answer 0 8
  | .getActNegState => s.answer 0 0
  | .getAsyncDataSetup => s.answer 0 6
  | .getPciParams => s.answer 0 s.conf1
  | .getTargetParams => s.targetParams chip
  | .getDevQueueParams => (s.answer 1 32).answer 2 0

/-- How a command ends: a bus reset is reported after its own result. -/
def finish : MboxCommand → Isp1040
  | .unsupported => s.mailboxDone ISP_MBOX_INVALID_COMMAND
  | .busReset => (s.mailboxDone ISP_MBOX_COMMAND_COMPLETE).raiseAsync ISP_ASYNC_BUS_RESET
  | _ => s.mailboxDone ISP_MBOX_COMMAND_COMPLETE

/-- `mailbox_command`: the answer starts as the registers the command was given. -/
def mailboxCommand (dma16 : Nat → Nat) : Isp1040 :=
  let command := MboxCommand.commandOf (s.mailbox 0)
  (perform chip { s with mailboxOut := s.mailbox } dma16 command).finish command

/-! ## Register writes -/

/-- A write of `ISP_BIU_SEMA`: clearing the semaphore lets a held event go. -/
def writeSema (value : BitVec 16) : Isp1040 :=
  let s := { s with sema := value &&& (ISP_SEMA_LOCK ||| ISP_SEMA_STATUS) }
  if s.semaClear ∧ s.pendingAsync ≠ 0 then
    raiseAsync { s with pendingAsync := 0 } s.pendingAsync
  else s

/-- A write of `ISP_BIU_REQINP`. -/
def writeReqinp (outcomes : Nat → IspOutcome) (value : BitVec 16) : Isp1040 × List IspResponse :=
  runRequestQueue { s with requestIn := value.toNat } outcomes

/-- A write of `ISP_BIU_RSPOUTP`. -/
def writeRspoutp (value : BitVec 16) : Isp1040 := { s with responseOut := value.toNat }

/-- A write of a mailbox: 4 announces requests, 5 reports responses, once the queues are there. -/
def writeMailbox (outcomes : Nat → IspOutcome) (n : Fin 8) (value : BitVec 16) :
    Isp1040 × List IspResponse :=
  let s := { s with mailbox := Function.update s.mailbox n.val value.toNat }
  if n.val = 4 ∧ s.requestLength ≠ 0 then s.writeReqinp outcomes value
  else if n.val = 5 ∧ s.responseLength ≠ 0 then (s.writeRspoutp value, [])
  else (s, [])

/-- HCCR's CLEAR RISC INT. -/
def clearRiscInt : Isp1040 :=
  updateIrq { s with isr := s.isr &&& ~~~(ISP_ISR_RISC_INT ||| ISP_ISR_IPEND) }

/-- A write of `ISP_BIU_ICR` without SOFT RESET. -/
def writeIcr (value : BitVec 16) : Isp1040 := updateIrq { s with icr := value }

end Isp1040

end Alphabox.Pci
