import Alphabox.Marvel.Gio

/-!
# The register block of a processor (`chipsets/marvel/Ev7Csr.cpp`)

The Rbox interrupt registers, the queue of interrupt identifiers, the GIO port and the start
hand-off of a parked processor, in the EV7 mode and in the 21464 mode. Every other named register
holds what is written to it. The interval timer's schedule, the traces, the statistics and the
waits of `halt_wait` are left out, and so is `VCTL`, which the processor keeps.
-/

namespace Alphabox.Marvel

/-- `kMaxPids`. -/
def kMaxPids : Nat := 256

/-- What the configuration fixes. -/
structure Board where
  /-- `mode_21464()`. -/
  m21464 : Bool
  /-- `csr(pid)` finds a register block. -/
  csr : Nat → Bool
  /-- `io7(pid)` finds an IO7. -/
  io7 : Nat → Bool
  /-- The TPUs that share a block. -/
  tpus : Nat
  /-- `cpu()` of a block finds its processor. -/
  cpu : Nat → Bool
  /-- `tpu_cpu(t)` of a block finds its processor. -/
  tpuCpu : Nat → Nat → Bool
  /-- The other named registers of a block and what `reset` leaves in them. -/
  named : Nat → Nat → Option (BitVec 64)
  /-- `RBOX_IO_CFG<8:5>` in the EV7 mode. -/
  ioClock : Nat → BitVec 64
  /-- `IO_SYS_REV` of an IO7. -/
  ioSysRev : Nat → BitVec 64
  csr_lt : ∀ pid, csr pid → pid < kMaxPids
  io7_lt : ∀ pid, io7 pid → pid < kMaxPids

def RBOX_WHOAMI : Nat := 0x030
def RBOX_INT : Nat := 0x050
def RBOX_IMASK : Nat := 0x060
def RBOX_IREQ : Nat := 0x070
def RBOX_INTQ : Nat := 0x080
def RBOX_INTA : Nat := 0x090
def RBOX_IT : Nat := 0x0a0
def RBOX_SCRATCH1 : Nat := 0x0b0
def RBOX_IO_CFG : Nat := 0xc000
def GIO_CFG : Nat := 0x100
def GIO_DAT : Nat := 0x110
def GIO_CTL : Nat := 0x120
def GIO_LOCK : Nat := 0x80000
def R_INT_MASK_TPU : Nat := 0x3f0000

/-- `INT8_QUEUE`, and `INT_IOQ` of the EV7: an IID is queued. -/
def INT_QUEUE : BitVec 64 := 1#64 <<< 12
def INT_SYNC : BitVec 64 := 1#64 <<< 23
def INT8_REQUESTABLE : BitVec 64 := 0xf#64 ||| 0xf00#64 ||| 0xfffc0000#64
def INTQ_VALID : BitVec 64 := 1#64 <<< 24
def kIntQueue21464 : Nat := 4

/-- The low half of a register replaced by a 32-bit write. -/
def merge (dsize : Nat) (old data : BitVec 64) : BitVec 64 :=
  if dsize = 32 then (old &&& ~~~0xffffffff#64) ||| (data &&& 0xffffffff#64) else data

/-! ## Interrupt lines -/

/-- `int_level_21464`; `none` for the source's -1. -/
def intLevel21464 (bit : Nat) : Option Nat :=
  if bit < 4 then some 3
  else if bit < 8 then some 2
  else if bit < 12 then some 4
  else if bit = 12 then some 1
  else if bit = 13 ∨ bit = 14 then some 4
  else if bit = 15 ∨ bit = 16 then some 0
  else if bit = 17 then some 5
  else if bit < 32 then some 3 else none

/-- `int_line`. -/
def intLine (bit : Nat) : Option Nat :=
  if bit ≤ 10 ∨ bit ≥ 24 then some 0
  else if bit = 12 ∨ bit = 14 then some 1
  else if bit ≥ 15 ∧ bit ≤ 17 then some 2
  else if bit = 18 ∨ bit = 19 then some 3
  else if bit ≥ 21 ∧ bit ≤ 23 then some 4 else none

/-- The bits below `bits` that drive `line`: `level_mask_21464` and `line_mask`. -/
def driving (of : Nat → Option Nat) (bits line : Nat) : BitVec 64 :=
  (List.range bits).foldl (fun m b => if of b = some line then m ||| 1#64 <<< b else m) 0

def levelMask21464 (level : Nat) : BitVec 64 := driving intLevel21464 32 level

def lineMask (line : Nat) : BitVec 64 := driving intLine 64 line

/-- The six lines that `pending` asserts. -/
def assertedLines (mask : Nat → BitVec 64) (pending : BitVec 64) : Nat :=
  (List.range 6).foldl (fun ls l => if pending &&& mask l ≠ 0 then ls ||| 1 <<< l else ls) 0

/-- `CEv7Csr`. -/
structure Csr where
  regs : Nat → Option (BitVec 64)
  gio : GioPort
  /-- `m_lines`, and `m_lines8` for each TPU. -/
  lines : Nat
  lines8 : Nat → Nat
  startHi : BitVec 64
  startHiValid : Bool
  /-- Oldest first. -/
  intq : List (BitVec 64)
  syncWaiting : Bool
  syncHeld : Bool

namespace Csr

variable {σ : Type} (M : Management σ) (b : Board) (pid : Nat) (c : Csr) (w : World σ)

def reg (off : Nat) : BitVec 64 := (c.regs off).getD 0

def setReg (off : Nat) (v : BitVec 64) : Csr := { c with regs := Function.update c.regs off (some v) }

/-- The register of TPU `t`'s `R_INT_MASK`. -/
def maskReg (t : Nat) : Nat := if t = 0 then RBOX_IMASK else R_INT_MASK_TPU + t * 0x40

/-- `int_mask_tpu`. -/
def isMaskReg (off : Nat) : Bool :=
  off = RBOX_IMASK ||
    (R_INT_MASK_TPU ≤ off && off < R_INT_MASK_TPU + 4 * 0x40 && off &&& 0x3f = 0)

def reset : Csr where
  regs off :=
    if off ∈ [RBOX_INT, RBOX_IMASK, RBOX_IREQ, RBOX_INTQ, RBOX_INTA, RBOX_IT, RBOX_SCRATCH1] then
      some 0
    else if b.m21464 ∧ off ∈ [maskReg 1, maskReg 2, maskReg 3] then some 0
    else if off = RBOX_IO_CFG then some (if b.io7 pid then 5 else 0)
    else b.named pid off
  gio := .reset b.m21464
  lines := 0
  lines8 _ := 0
  startHi := 0
  startHiValid := false
  intq := []
  syncWaiting := true
  syncHeld := false

/-! ## Interrupts -/

/-- `update_irq_21464`. -/
def updateIrq21464 : Csr :=
  let stat := c.reg RBOX_INT &&& 0xffffffff#64
  { c with
    lines8 := fun t =>
      if t < b.tpus ∧ t < 4 ∧ b.tpuCpu pid t then
        assertedLines levelMask21464 (stat &&& c.reg (maskReg t))
      else c.lines8 t }

def updateIrq : Csr :=
  if b.m21464 then c.updateIrq21464 b pid
  else if b.cpu pid then
    { c with lines := assertedLines lineMask (c.reg RBOX_INT &&& c.reg RBOX_IMASK) }
  else c

/-- `queue_iid`; `none` when the queue is full. -/
def queueIid (iid : BitVec 64) : Option Csr :=
  if b.m21464 ∧ kIntQueue21464 ≤ c.intq.length then none
  else
    some ({ c with intq := c.intq ++ [iid &&& (INTQ_VALID - 1)] }.setReg RBOX_INT
      (c.reg RBOX_INT ||| INT_QUEUE))

/-- `post_iid`; `none` when it is refused. -/
def postIid (iid : BitVec 64) : Option Csr := (c.queueIid b iid).map (updateIrq b pid)

/-! ## Writes -/

/-- A write of `R_INT_QUE` in 21464 mode, and whether the queue now has room. -/
def writeIntq21464 (data : BitVec 64) : Csr × Bool :=
  let room := !c.intq.isEmpty
  let c := { c.setReg RBOX_INTQ data with intq := c.intq.drop 1 }
  let c := if c.intq.isEmpty then c.setReg RBOX_INT (c.reg RBOX_INT &&& ~~~INT_QUEUE) else c
  (c.updateIrq b pid, room)

/-- `write_ireq_21464`. -/
def writeIreq21464 (data : BitVec 64) : Csr :=
  let c := c.setReg RBOX_IREQ data
  (c.setReg RBOX_INT (c.reg RBOX_INT ||| (data &&& INT8_REQUESTABLE))).updateIrq b pid

/-- `write_ireq`. A broadcast that comes before the processor waits for it is held. -/
def writeIreq (data : BitVec 64) : Csr :=
  let c := c.setReg RBOX_IREQ data
  let sync := data &&& INT_SYNC != 0
  let early := sync && !c.syncWaiting
  let data := if early then data &&& ~~~INT_SYNC else data
  let c := { c with
    syncWaiting := c.syncWaiting && !sync
    syncHeld := c.syncHeld || early }
  (c.setReg RBOX_INT (c.reg RBOX_INT ||| data)).updateIrq b pid

/-- `write_21464`; `none` for a register that the EV7's code serves alike. -/
def write21464 (off : Nat) (data : BitVec 64) : Option Csr :=
  let off := if off = R_INT_MASK_TPU then RBOX_IMASK else off
  if isMaskReg off then some ((c.setReg off (data &&& 0xffffffff#64)).updateIrq b pid)
  else if off = GIO_LOCK then some c
  else if off = RBOX_INT then
    some ((c.setReg RBOX_INT
      (c.reg RBOX_INT &&& ~~~(data &&& 0xffffffff#64 &&& ~~~INT_QUEUE))).updateIrq b pid)
  else if off = RBOX_INTA then
    let c := c.setReg RBOX_INTA data
    some (((c.queueIid b data).getD c).updateIrq b pid)
  else none

/-- A write of `RBOX_INT` on the EV7: ones clear, and the queue's bit stays while it holds an
IID. -/
def writeInt (data : BitVec 64) : Csr :=
  let stat := c.reg RBOX_INT &&& ~~~data
  let sync := data &&& INT_SYNC != 0
  let stat := if sync && c.syncHeld then stat ||| INT_SYNC else stat
  let stat := if c.intq.isEmpty then stat else stat ||| INT_QUEUE
  let c := { c with
    syncWaiting := if sync then !c.syncHeld else c.syncWaiting
    syncHeld := c.syncHeld && !sync }
  (c.setReg RBOX_INT stat).updateIrq b pid

/-- `write_scratch` and `scratch_written`: a parked processor's wait for its start address. -/
def writeScratch (v : BitVec 64) : Csr × World σ :=
  let c := c.setReg RBOX_SCRATCH1 v
  let tag := (v >>> 24) &&& 0xff#64
  if !w.parked pid then (c, w)
  else if tag = 0xf1 then
    let hi := v &&& 0xffffff#64
    ({ c with startHi := hi, startHiValid := true }.setReg RBOX_SCRATCH1 (0xf2#64 <<< 24 ||| hi), w)
  else if tag = 0xf3 ∧ c.startHiValid then
    let addr := c.startHi <<< 24 ||| (v &&& 0xffffff#64)
    ({ c with startHiValid := false },
      { w with parked := Function.update w.parked pid false }.note (.start pid (addr ||| 1)))
  else (c, w)

/-- The registers of the GIO port. -/
def writeGio (off : Nat) (data : BitVec 64) : GioPort × World σ :=
  if off = GIO_CFG then c.gio.writeCfg M b.m21464 pid w data
  else if off = GIO_DAT then c.gio.writeDat M b.m21464 pid w data
  else if off = GIO_CTL then c.gio.writeCtl M b.m21464 pid w data
  else ({ c.gio with lockWord := data }, w)

/-- The registers with nothing but their contents. -/
def writePlain (off dsize : Nat) (data : BitVec 64) : Csr :=
  if off = RBOX_WHOAMI ∨ off = RBOX_IO_CFG then c
  else if off = RBOX_IT then c.setReg RBOX_IT data
  else
    match c.regs off with
    | none => c
    | some old => c.setReg off (merge dsize old data)

/-- The registers that both modes serve alike. -/
def writeCommon (off dsize : Nat) (data : BitVec 64) : Csr × World σ :=
  if off ∈ [GIO_CFG, GIO_DAT, GIO_CTL, GIO_LOCK] then
    let r := c.writeGio M b pid w off data
    ({ c with gio := r.1 }, r.2)
  else if off = RBOX_INT then (c.writeInt b pid data, w)
  else if off = RBOX_INTQ then ({ c.setReg RBOX_INTQ data with intq := c.intq.drop 1 }, w)
  else if off = RBOX_IMASK then ((c.setReg RBOX_IMASK data).updateIrq b pid, w)
  else if off = RBOX_SCRATCH1 then c.writeScratch pid w data
  else (c.writePlain off dsize data, w)

/-- `CEv7Csr::write`, and whether it goes on to `resend_iids`. -/
def write (off dsize : Nat) (data : BitVec 64) : Csr × World σ × Bool :=
  if b.m21464 ∧ off = RBOX_INTQ then
    let r := c.writeIntq21464 b pid data
    (r.1, w, r.2)
  else if off = RBOX_IREQ then
    (if b.m21464 then c.writeIreq21464 b pid data else c.writeIreq b pid data, w, false)
  else
    match if b.m21464 then c.write21464 b pid off data else none with
    | some c => (c, w, false)
    | none =>
      let r := c.writeCommon M b pid w off dsize data
      (r.1, r.2, false)

/-! ## Reads -/

/-- The registers that a read leaves as they are. -/
def readReg (off : Nat) : BitVec 64 :=
  if off = GIO_CFG then c.gio.cfg
  else if off = GIO_CTL then c.gio.ctl
  else if off = RBOX_INTQ then
    match c.intq with
    | [] => 0
    | iid :: _ => iid ||| INTQ_VALID
  else if off = RBOX_IO_CFG ∧ b.io7 pid ∧ ¬ b.m21464 then c.reg off ||| b.ioClock pid
  else if off = 0x28020 then c.reg off &&& ~~~(1#64 <<< 19)
  else c.reg off

/-- `CEv7Csr::read`. -/
def read (off dsize : Nat) : BitVec 64 × Csr × World σ :=
  let narrowed v := if dsize = 32 then v &&& 0xffffffff#64 else v
  if off = GIO_DAT then
    let r := c.gio.readDat M b.m21464 pid w
    (narrowed r.1, { c with gio := r.2.1 }, r.2.2)
  else if off = GIO_LOCK ∧ b.m21464 then (0, c, w)
  else if off = GIO_LOCK then
    let r := c.gio.readLock
    (narrowed r.1, { c with gio := r.2 }, w)
  else
    let off := if b.m21464 ∧ off = R_INT_MASK_TPU then RBOX_IMASK else off
    (narrowed (c.readReg b pid off), c, w)

/-! ## The state file -/

/-- What `CEv7Csr::save_state` writes. -/
structure Saved where
  regs : Nat → Option (BitVec 64)
  gio : GioPort.State
  startHi : BitVec 64
  startHiValid : Bool
  intq : List (BitVec 64)

def save : Saved where
  regs := c.regs
  gio := c.gio.save
  startHi := c.startHi
  startHiValid := c.startHiValid
  intq := c.intq

def restore (s : Saved) : Csr :=
  let c := { c with
    regs := s.regs
    gio := c.gio.restore s.gio
    startHi := s.startHi
    startHiValid := s.startHiValid
    intq := s.intq }
  { c with
    syncWaiting := c.reg RBOX_INT &&& INT_SYNC == 0
    syncHeld := false
    lines := 0
    lines8 := fun _ => 0 }.updateIrq b pid

end Csr

end Alphabox.Marvel
