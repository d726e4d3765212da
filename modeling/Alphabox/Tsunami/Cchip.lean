import Alphabox.Lib.Numerals
import Mathlib.Data.BitVec

/-!
# The Tsunami Cchip's interrupt registers (`chipsets/tsunami/TsunamiCchip.cpp`, `Tsunami.cpp`)

MISC, DIM0-3 and DRIR, and the processors' interrupt lines that they drive. Each operation runs
under the chipset's lock and is one step. `irq_h` sets or clears its line; the delay of a device
line is its processor's business.
-/

namespace Alphabox.Tsunami

/-- `state.cchip`, and the lines of `m_sys->get_cpu(i)`: by processor, then by number. -/
structure Cchip where
  dim : Nat → BitVec 64
  drir : BitVec 64
  misc : BitVec 64
  csc : BitVec 64
  irq : Nat → Nat → Bool

namespace Cchip

/-- `power_on_state` of a machine whose lines are low; `rev` is `m_rev.cchip_rev`. -/
def powerOnState (rev : BitVec 32) : Cchip where
  dim _ := 0
  drir := 0
  misc := rev.setWidth 64 <<< 32
  csc := 0x3142444014157803
  irq _ _ := false

variable (cpuNum : Nat)

/-- `m_sys->get_cpu(i)->irq_h(number, assert, delay)`. -/
def irqH (c : Cchip) (i number : Nat) (assert : Bool) : Cchip :=
  { c with irq := fun p l => if p = i ∧ l = number then assert else c.irq p l }

/-- `drive_lines`. -/
def driveLines (c : Cchip) (i : Nat) : Cchip :=
  let c := if c.drir &&& c.dim i &&& 0x00ffffffffffffff ≠ 0 then c.irqH i 1 true
    else c.irqH i 1 false
  if c.drir &&& c.dim i &&& 0xfc00000000000000 ≠ 0 then c.irqH i 0 true else c.irqH i 0 false

/-- `interrupt`. -/
def interrupt (c : Cchip) (number : Int) (assert : Bool) : Cchip :=
  if number < 0 then c
  else
    let c :=
      if assert then { c with drir := c.drir ||| (1#64 <<< number.toNat) }
      else { c with drir := c.drir &&& ~~~(1#64 <<< number.toNat) }
    (List.range cpuNum).foldl driveLines c

/-- The ITINTR bits a tick of `cpu` sets: processor 0's also those of the processors there are not.
-/
def itintr (cpu : Nat) : BitVec 64 :=
  if cpu = 0 then
    (List.range' cpuNum (4 - cpuNum)).foldl (fun b i => b ||| (0x10#64 <<< i)) (0x10#64 <<< cpu)
  else 0x10#64 <<< cpu

/-- `interval_tick`. -/
def intervalTick (c : Cchip) (cpu : Nat) : Cchip :=
  let c := { c with misc := c.misc ||| itintr cpuNum cpu }
  (c.irqH cpu 2 true).driveLines cpu

/-- The registers of a MISC write, in the order the source changes them: set, clear, arbitration. -/
def miscRegister (misc data : BitVec 64) : BitVec 64 :=
  let misc := misc ||| (data &&& 0x00000f0000f00000)
  let misc := misc &&& ~~~(data &&& 0x10000ff0)
  let misc := if data &&& 0x01000000 ≠ 0 then misc &&& ~~~0xff0000 else misc
  if data &&& 0xf0000 ≠ 0 then
    if misc &&& 0xf0000 = 0 then misc ||| (data &&& 0xf0000) else misc
  else misc

/-- The loop of a MISC write that stops a line's interrupts; `field` is its processor 0's bit. -/
def stopLines (c : Cchip) (data field : BitVec 64) (number : Nat) : Cchip :=
  (List.range cpuNum).foldl
    (fun c i => if data &&& (field <<< i) ≠ 0 then c.irqH i number false else c) c

/-- The loop of a MISC write that sets interprocessor interrupts. -/
def setIpis (c : Cchip) (data : BitVec 64) : Cchip :=
  (List.range cpuNum).foldl
    (fun c i =>
      if data &&& (0x1000#64 <<< i) ≠ 0 then
        { c with misc := c.misc ||| (0x100#64 <<< i) }.irqH i 3 true
      else c) c

/-- `cchip_csr_write` of MISC. -/
def miscWrite (c : Cchip) (data : BitVec 64) : Cchip :=
  let c := { c with misc := miscRegister c.misc data }
  let c := if data &&& 0x00f0 ≠ 0 then stopLines cpuNum c data 0x10 2 else c
  let c := if data &&& 0x0f00 ≠ 0 then stopLines cpuNum c data 0x100 3 else c
  if data &&& 0xf000 ≠ 0 then setIpis cpuNum c data else c

/-- The number of the DIM register at a CSR address. -/
def dimIndex (a : BitVec 32) : Nat := (((a >>> 9) &&& 2) ||| ((a >>> 6) &&& 1)).toNat

/-- `cchip_csr_write` of DIMn. -/
def dimWrite (c : Cchip) (n : Nat) (data : BitVec 64) : Cchip :=
  let c := { c with dim := fun i => if i = n then data else c.dim i }
  if n < cpuNum then c.driveLines n else c

/-- `cchip_csr_write`. MPD reaches the presence-detect bus only. -/
def csrWrite (c : Cchip) (a : BitVec 32) (data : BitVec 64) : Cchip :=
  if a = 0x000 then
    { c with csc := (c.csc &&& ~~~0x0777777fff3f0000) ||| (data &&& 0x0777777fff3f0000) }
  else if a = 0x080 then miscWrite cpuNum c data
  else if a = 0x200 ∨ a = 0x240 ∨ a = 0x600 ∨ a = 0x640 then dimWrite cpuNum c (dimIndex a) data
  else c

end Cchip

/-! ## Runs -/

inductive CchipOp where
  | interrupt (number : Int) (assert : Bool)
  | tick (cpu : Nat)
  | csrWrite (a : BitVec 32) (data : BitVec 64)

/-- A tick is a processor's own, so of one the machine has. -/
def CchipOp.Ok (cpuNum : Nat) : CchipOp → Prop
  | .tick cpu => cpu < cpuNum
  | _ => True

instance (cpuNum : Nat) : DecidablePred (CchipOp.Ok cpuNum)
  | .interrupt _ _ => isTrue trivial
  | .tick cpu => inferInstanceAs (Decidable (cpu < cpuNum))
  | .csrWrite _ _ => isTrue trivial

def Cchip.step (cpuNum : Nat) (c : Cchip) : CchipOp → Cchip
  | .interrupt number assert => c.interrupt cpuNum number assert
  | .tick cpu => c.intervalTick cpuNum cpu
  | .csrWrite a data => c.csrWrite cpuNum a data

/-! ## What the lines and the arbitration are for -/

/-- Some device interrupt in `low..high` is requested and let through to processor `i`. -/
def Cchip.Requested (c : Cchip) (i low high : Nat) : Prop :=
  ∃ b, low ≤ b ∧ b ≤ high ∧ c.drir.getLsbD b = true ∧ (c.dim i).getLsbD b = true

/-- The values written to MISC, in order. -/
def miscWrites (ops : List CchipOp) : List (BitVec 64) :=
  ops.filterMap fun
    | .csrWrite a data => if a = 0x080 then some data else none
    | _ => none

/-- ACL of a MISC value. -/
def clears (w : BitVec 64) : Bool := w.getLsbD 24

/-- ABW of a MISC value. -/
def abw (w : BitVec 64) : BitVec 4 := w.extractLsb' 16 4

/-- The writes from the last arbitration clear on, itself included. -/
def sinceClear : List (BitVec 64) → List (BitVec 64)
  | [] => []
  | w :: ws => if ws.any clears then sinceClear ws else w :: ws

/-- The ABW field of the first write that requested arbitration, 0 where none has. -/
def winner (ws : List (BitVec 64)) : BitVec 4 :=
  match ws.find? (abw · ≠ 0) with
  | some w => abw w
  | none => 0

end Alphabox.Tsunami
