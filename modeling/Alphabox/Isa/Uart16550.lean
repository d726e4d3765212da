import Alphabox.Lib.Ring

/-!
# The 16550 UART (`devices/isa/Uart16550.cpp`)

The eight registers, the receive FIFO and the interrupt output. `Uart16550` is `SSrl_state` with
what the two callbacks have been given: the level last passed to `irq` and the bytes passed to
`tx`. Every entry of the class runs under its lock, so an operation is a function of that state.

`bTHR`, `serial_cycles` and `iNumber` are left out: no register access reads them.
-/

namespace Alphabox.Isa

/-- `UART_FIFO_SIZE`. -/
def uartFifoSize : Nat := 1024

instance : NeZero uartFifoSize := ⟨by decide⟩

/-! ## Register bits -/

def LCR_DLAB : BitVec 8 := 0x80
def IER_RDA : BitVec 8 := 0x01
def IER_THRE : BitVec 8 := 0x02
def IER_RLS : BitVec 8 := 0x04
def IER_MS : BitVec 8 := 0x08
def IIR_NONE : BitVec 8 := 0x01
def IIR_MS : BitVec 8 := 0x00
def IIR_THRE : BitVec 8 := 0x02
def IIR_RDA : BitVec 8 := 0x04
def IIR_RLS : BitVec 8 := 0x06
def IIR_FIFO : BitVec 8 := 0xc0
def FCR_ENABLE : BitVec 8 := 0x01
def FCR_RX_RESET : BitVec 8 := 0x02
def MCR_DTR : BitVec 8 := 0x01
def MCR_RTS : BitVec 8 := 0x02
def MCR_OUT1 : BitVec 8 := 0x04
def MCR_OUT2 : BitVec 8 := 0x08
def MCR_LOOP : BitVec 8 := 0x10
def LSR_DR : BitVec 8 := 0x01
def LSR_OE : BitVec 8 := 0x02
def LSR_THRE : BitVec 8 := 0x20
def LSR_TEMT : BitVec 8 := 0x40
def MSR_DCTS : BitVec 8 := 0x01
def MSR_DDSR : BitVec 8 := 0x02
def MSR_TERI : BitVec 8 := 0x04
def MSR_DDCD : BitVec 8 := 0x08
def MSR_DELTAS : BitVec 8 := 0x0f
def MSR_CTS : BitVec 8 := 0x10
def MSR_DSR : BitVec 8 := 0x20
def MSR_RI : BitVec 8 := 0x40
def MSR_DCD : BitVec 8 := 0x80

/-- C's truth of `r & m`. -/
def tests (r m : BitVec 8) : Bool := r &&& m ≠ 0

/-! ## The port -/

/-- The registers, the FIFO with its two indices, and what the callbacks were last given. -/
structure Uart16550 where
  bRDR : BitVec 8
  bBRB_LSB : BitVec 8
  bBRB_MSB : BitVec 8
  bIER : BitVec 8
  bIIR : BitVec 8
  bFCR : BitVec 8
  bLCR : BitVec 8
  bMCR : BitVec 8
  bLSR : BitVec 8
  bMSR : BitVec 8
  bSPR : BitVec 8
  rcvBuffer : Fin uartFifoSize → BitVec 8
  rcvW : Fin uartFifoSize
  rcvR : Fin uartFifoSize
  threPending : Bool
  /-- The level last given to `irq`. -/
  line : Bool
  /-- The bytes given to `tx`, in order. -/
  sent : List (BitVec 8)

namespace Uart16550

/-- The zeroed state after `reset`; `irq` has not been called and its receiver holds the line
low. -/
def init : Uart16550 where
  bRDR := 0x00
  bBRB_LSB := 0x00
  bBRB_MSB := 0x00
  bIER := 0x00
  bIIR := IIR_NONE
  bFCR := 0x00
  bLCR := 0x00
  bMCR := 0x00
  bLSR := LSR_THRE ||| LSR_TEMT
  bMSR := MSR_CTS ||| MSR_DSR
  bSPR := 0x00
  rcvBuffer := fun _ => 0x00
  rcvW := 0
  rcvR := 0
  threPending := false
  line := false
  sent := []

variable (u : Uart16550)

/-- `rx_empty_locked`. -/
def rxEmpty : Bool := u.rcvR = u.rcvW

/-- The cause `update_locked` finds: overrun, received data, the THRE latch, modem deltas. -/
def iirCause : BitVec 8 :=
  if tests u.bIER IER_RLS && tests u.bLSR LSR_OE then IIR_RLS
  else if tests u.bIER IER_RDA && !u.rxEmpty then IIR_RDA
  else if tests u.bIER IER_THRE && u.threPending then IIR_THRE
  else if tests u.bIER IER_MS && tests u.bMSR MSR_DELTAS then IIR_MS
  else IIR_NONE

/-- `update_locked`: recompute the interrupt identification and drive the line. -/
def updateLocked : Uart16550 :=
  let iir := u.iirCause
  { u with
    bIIR := if tests u.bFCR FCR_ENABLE then iir ||| IIR_FIFO else iir
    line := !tests iir IIR_NONE }

/-- `push_rx`: into the receive FIFO; `none` when it is full. -/
def pushRx (byte : BitVec 8) : Option Uart16550 :=
  if u.rcvW + 1 = u.rcvR then none
  else some { u with rcvBuffer := Function.update u.rcvBuffer u.rcvW byte, rcvW := u.rcvW + 1 }

/-- `set_modem_inputs`: MSR's high half takes new levels, its low half records the changes. -/
def setModemInputs (inputs : BitVec 8) : Uart16550 :=
  let old := u.bMSR &&& 0xf0
  let changed := old ^^^ inputs
  let deltas := u.bMSR &&& MSR_DELTAS
  let deltas := if tests changed MSR_CTS then deltas ||| MSR_DCTS else deltas
  let deltas := if tests changed MSR_DSR then deltas ||| MSR_DDSR else deltas
  let deltas := if tests old MSR_RI && !tests inputs MSR_RI then deltas ||| MSR_TERI else deltas
  let deltas := if tests changed MSR_DCD then deltas ||| MSR_DDCD else deltas
  updateLocked { u with bMSR := inputs ||| deltas }

/-- MCR's outputs on the modem inputs, in loopback. -/
def loopedInputs (value : BitVec 8) : BitVec 8 :=
  (if tests value MCR_DTR then MSR_DSR else 0) ||| (if tests value MCR_RTS then MSR_CTS else 0) |||
    (if tests value MCR_OUT1 then MSR_RI else 0) ||| (if tests value MCR_OUT2 then MSR_DCD else 0)

/-! ## Register reads -/

def readRbr : Uart16550 × BitVec 8 :=
  if tests u.bLCR LCR_DLAB then (u, u.bBRB_LSB)
  else
    let u := if u.rxEmpty then u
      else { u with bRDR := u.rcvBuffer u.rcvR, rcvR := u.rcvR + 1 }
    (u.updateLocked, u.bRDR)

def readIir : Uart16550 × BitVec 8 :=
  let iir := u.bIIR
  let u := if iir &&& 0x0f = IIR_THRE then { u with threPending := false } else u
  (u.updateLocked, iir)

def readLsr : Uart16550 × BitVec 8 :=
  let lsr := LSR_THRE ||| LSR_TEMT ||| (if u.rxEmpty then 0 else LSR_DR) ||| (u.bLSR &&& LSR_OE)
  (updateLocked { u with bLSR := lsr &&& ~~~LSR_OE }, lsr)

def readMsr : Uart16550 × BitVec 8 :=
  (updateLocked { u with bMSR := u.bMSR &&& ~~~MSR_DELTAS }, u.bMSR)

/-- `CUart16550::read`. -/
def read (reg : BitVec 32) : Uart16550 × BitVec 8 :=
  match (reg &&& 7).toNat with
  | 0 => u.readRbr
  | 1 => (u, if tests u.bLCR LCR_DLAB then u.bBRB_MSB else u.bIER)
  | 2 => u.readIir
  | 3 => (u, u.bLCR)
  | 4 => (u, u.bMCR)
  | 5 => u.readLsr
  | 6 => u.readMsr
  | _ => (u, u.bSPR)

/-! ## Register writes -/

/-- A byte into THR: back into the receive FIFO in loopback, out otherwise. -/
def transmit (value : BitVec 8) : Uart16550 :=
  if tests u.bMCR MCR_LOOP then (u.pushRx value).getD { u with bLSR := u.bLSR ||| LSR_OE }
  else { u with sent := u.sent ++ [value] }

def writeThr (value : BitVec 8) : Uart16550 :=
  if tests u.bLCR LCR_DLAB then { u with bBRB_LSB := value }
  else updateLocked { u.transmit value with threPending := true }

def writeIer (value : BitVec 8) : Uart16550 :=
  if tests u.bLCR LCR_DLAB then { u with bBRB_MSB := value }
  else
    let value := value &&& 0x0f
    let thre := tests value IER_THRE && !tests u.bIER IER_THRE || u.threPending
    updateLocked { u with threPending := thre, bIER := value }

/-- A write of FCR that empties the FIFO: turning it on or off, or bit 1 with it on. -/
def fcrResets (value : BitVec 8) : Bool :=
  let wasOn := tests u.bFCR FCR_ENABLE
  let on := tests value FCR_ENABLE
  wasOn != on || (on && tests value FCR_RX_RESET)

def writeFcr (value : BitVec 8) : Uart16550 :=
  updateLocked { u with
    rcvR := if u.fcrResets value then u.rcvW else u.rcvR
    bFCR := if tests value FCR_ENABLE then value else 0 }

def writeMcr (value : BitVec 8) : Uart16550 :=
  let value := value &&& 0x1f
  let u := { u with bMCR := value }
  u.setModemInputs (if tests value MCR_LOOP then loopedInputs value else MSR_CTS ||| MSR_DSR)

/-- `CUart16550::write`. -/
def write (reg : BitVec 32) (value : BitVec 8) : Uart16550 :=
  match (reg &&& 7).toNat with
  | 0 => u.writeThr value
  | 1 => u.writeIer value
  | 2 => u.writeFcr value
  | 3 => { u with bLCR := value }
  | 4 => u.writeMcr value
  | 5 => u
  | 6 => u
  | _ => { u with bSPR := value }

/-! ## The line -/

/-- `receive`'s loop: push until one does not fit, recomputing after each. -/
def receiveLoop (u : Uart16550) : List (BitVec 8) → Uart16550 × Nat
  | [] => (u, 0)
  | byte :: data =>
    match u.pushRx byte with
    | none => (u, 0)
    | some u' =>
      let (u'', taken) := receiveLoop u'.updateLocked data
      (u'', taken + 1)

/-- `receive`: nothing is taken in loopback. -/
def receive (data : List (BitVec 8)) : Uart16550 × Nat :=
  if tests u.bMCR MCR_LOOP then (u, 0) else u.receiveLoop data

end Uart16550

/-! ## Histories -/

/-- One call of the class. -/
inductive UartOp where
  | receive (data : List (BitVec 8))
  | read (reg : BitVec 32)
  | write (reg : BitVec 32) (value : BitVec 8)

namespace Uart16550

/-- The queue the FIFO's cells hold, oldest byte first. -/
def fifo (u : Uart16550) : List (BitVec 8) := Lib.Ring.contents u.rcvBuffer u.rcvR u.rcvW

/-- The access is one of RBR or THR: offset 0 with DLAB clear. -/
def isData (u : Uart16550) (reg : BitVec 32) : Bool :=
  (reg &&& 7).toNat = 0 && !tests u.bLCR LCR_DLAB

/-- The port and what has passed through it, as its callers saw it. -/
structure History where
  uart : Uart16550
  /-- The bytes `receive` took and the loopback bytes that fitted, in order. -/
  accepted : List (BitVec 8)
  /-- The bytes returned by RBR reads that found the FIFO non-empty, in order. -/
  returned : List (BitVec 8)
  /-- The bytes waiting in the FIFO at the FCR writes that emptied it, in order. -/
  discarded : List (BitVec 8)
  /-- A loopback byte did not fit since LSR was last read. -/
  lost : Bool

namespace History

def init : History := ⟨Uart16550.init, [], [], [], false⟩

def receive (h : History) (data : List (BitVec 8)) : History :=
  { h with
    uart := (h.uart.receive data).1
    accepted := h.accepted ++ data.take (h.uart.receive data).2 }

def read (h : History) (reg : BitVec 32) : History :=
  { h with
    uart := (h.uart.read reg).1
    returned := if h.uart.isData reg && !h.uart.rxEmpty then h.returned ++ [(h.uart.read reg).2]
      else h.returned
    lost := if (reg &&& 7).toNat = 5 then false else h.lost }

/-- The write is a byte looped back, and whether it fits. -/
def loops (u : Uart16550) (reg : BitVec 32) (value : BitVec 8) : Option Bool :=
  if u.isData reg && tests u.bMCR MCR_LOOP then some (u.pushRx value).isSome else none

def write (h : History) (reg : BitVec 32) (value : BitVec 8) : History :=
  { h with
    uart := h.uart.write reg value
    accepted := if loops h.uart reg value = some true then h.accepted ++ [value] else h.accepted
    discarded := if (reg &&& 7).toNat = 2 && h.uart.fcrResets value
      then h.discarded ++ h.uart.fifo else h.discarded
    lost := h.lost || loops h.uart reg value = some false }

def step (h : History) : UartOp → History
  | .receive data => h.receive data
  | .read reg => h.read reg
  | .write reg value => h.write reg value

/-- The history of a sequence of calls on a port that was just reset. -/
def run (ops : List UartOp) : History := ops.foldl step init

end History

end Uart16550

end Alphabox.Isa
