import Alphabox.Pci.TulipTx

/-!
# The Tulip's interrupt line (`devices/pci/tulip/Tulip.cpp`)

`update_irq` and the changes of CSR5 and CSR7 before it, by any number of threads. A section under
`m_lock` is one step; a call of `do_pci_interrupt` is two, where it begins and where it returns.
-/

namespace Alphabox.Pci

def STATUS_TPS : BitVec 32 := 0x00000002
def STATUS_TJT : BitVec 32 := 0x00000008
def STATUS_LNPANC : BitVec 32 := 0x00000010
def STATUS_UNF : BitVec 32 := 0x00000020
def STATUS_RI : BitVec 32 := 0x00000040
def STATUS_RU : BitVec 32 := 0x00000080
def STATUS_RPS : BitVec 32 := 0x00000100
def STATUS_RWT : BitVec 32 := 0x00000200
def STATUS_ETI : BitVec 32 := 0x00000400
def STATUS_TM : BitVec 32 := 0x00000800
def STATUS_LNF : BitVec 32 := 0x00001000
def STATUS_SE : BitVec 32 := 0x00002000
def STATUS_ER : BitVec 32 := 0x00004000
def STATUS_AIS : BitVec 32 := 0x00008000
def STATUS_NIS : BitVec 32 := 0x00010000
def STATUS_GPPI : BitVec 32 := 0x04000000
def STATUS_LC : BitVec 32 := 0x08000000

/-- `normal` of `update_irq`. -/
def STATUS_NORMAL : BitVec 32 := STATUS_TI ||| STATUS_TU ||| STATUS_RI ||| STATUS_TM ||| STATUS_ER

/-- `abnormal` of `update_irq`. -/
def STATUS_ABNORMAL : BitVec 32 :=
  STATUS_LC ||| STATUS_GPPI ||| STATUS_SE ||| STATUS_LNF ||| STATUS_ETI ||| STATUS_RWT |||
    STATUS_RPS ||| STATUS_RU ||| STATUS_UNF ||| STATUS_LNPANC ||| STATUS_TJT ||| STATUS_TPS

/-- The registers that the line depends on: CSR5 and CSR7. -/
structure IrqRegs where
  csr5 : BitVec 32
  csr7 : BitVec 32
  deriving DecidableEq

namespace IrqRegs

/-- What `reset_locked` makes of them. -/
def reset : IrqRegs := ⟨0xF0000000, 0xF3FE0000⟩

variable (r : IrqRegs)

/-- CSR5 with its summary bits computed anew. -/
def summary : BitVec 32 :=
  let ie := r.csr5 &&& r.csr7
  let csr5 := r.csr5 &&& ~~~(STATUS_NIS ||| STATUS_AIS)
  let csr5 := if ie &&& STATUS_NORMAL ≠ 0 then csr5 ||| STATUS_NIS else csr5
  if ie &&& STATUS_ABNORMAL ≠ 0 then csr5 ||| STATUS_AIS else csr5

/-- The level that the registers ask for. -/
def asserted : Bool := r.csr5 &&& r.csr7 &&& (STATUS_AIS ||| STATUS_NIS) ≠ 0

end IrqRegs

/-- A change under `m_lock`: a write of CSR5 or of CSR7, a software reset, and whatever a write of
CSR6 or a section of the NIC thread makes of CSR5. -/
inductive IrqChange where
  | status (data : BitVec 32)
  | inten (data : BitVec 32)
  | reset
  | set (csr5 : BitVec 32)

def IrqChange.apply (r : IrqRegs) : IrqChange → IrqRegs
  | .status data => { r with csr5 := r.csr5 &&& ~~~(data &&& STATUS_W1C) }
  | .inten data => { r with csr7 := data }
  | .reset => .reset
  | .set csr5 => { r with csr5 }

/-- Where a thread is: elsewhere, past a change with `update_irq` still to come, in `update_irq`
before the lock, in `do_pci_interrupt`, or back from it before the lock. -/
inductive IrqPc where
  | out
  | changed
  | called
  | driving (level : Bool)
  | driven (level : Bool)
  deriving DecidableEq

/-- The device as `update_irq` sees it, and the threads `T`. `calls` are the levels that
`do_pci_interrupt` was called with, the last one first. -/
structure TulipIrq (T : Type) where
  regs : IrqRegs
  irqBusy : Bool
  irqWasAsserted : Bool
  pc : T → IrqPc
  calls : List Bool

namespace TulipIrq

variable {T : Type} [DecidableEq T]

/-- As `init` leaves it. -/
def start : TulipIrq T where
  regs := .reset
  irqBusy := false
  irqWasAsserted := false
  pc := fun _ => .out
  calls := []

def goto (s : TulipIrq T) (t : T) (pc : IrqPc) : TulipIrq T :=
  { s with pc := Function.update s.pc t pc }

/-- One turn of the loop of `update_irq`, under the lock. -/
def look (s : TulipIrq T) (t : T) : TulipIrq T :=
  let s := { s with regs := { s.regs with csr5 := s.regs.summary } }
  let asserted := s.regs.asserted
  if asserted = s.irqWasAsserted then s.goto t .out
  else { s.goto t (.driving asserted) with irqBusy := true, calls := asserted :: s.calls }

inductive IrqAct where
  | change (c : IrqChange)
  | call
  | go

/-- A thread's next step; nothing where it cannot take it. -/
def step (s : TulipIrq T) (t : T) : IrqAct → TulipIrq T
  | .change c =>
    if s.pc t = .out ∨ s.pc t = .changed then { s.goto t .changed with regs := c.apply s.regs }
    else s
  | .call => if s.pc t = .out ∨ s.pc t = .changed then s.goto t .called else s
  | .go =>
    match s.pc t with
    | .called => if s.irqBusy then s.goto t .out else s.look t
    | .driving level => s.goto t (.driven level)
    | .driven level => look { s with irqBusy := false, irqWasAsserted := level } t
    | _ => s

/-- The threads' steps in the order they are taken. -/
def run (acts : List (T × IrqAct)) : TulipIrq T := acts.foldl (fun s a => s.step a.1 a.2) start

/-- The level of the line, low before the first call. -/
def line (s : TulipIrq T) : Bool := s.calls.headD false

end TulipIrq

end Alphabox.Pci
