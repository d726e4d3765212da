import Alphabox.Lib.Bytes

/-!
# virtio-blk (`devices/pci/virtio/VirtioPci.cpp`, `devices/pci/virtio/VirtioBlk.cpp`)

The legacy transport's one queue of 256 and the block device on it. The driver and the device's
thread share guest memory, of which this model has the bytes as the device addresses them on the
PCI bus. The thread sleeps until it is kicked, then pops chains until the available ring is empty,
answers each and hands it back in the used ring, and raises the interrupt once.

Numbers read from memory are natural numbers below the size of their field.
-/

namespace Alphabox.Pci

open Lib (leNat leBytes store fetch)

/-! ## Guest memory -/

/-- Bus addresses have 32 bits. -/
abbrev busSize : Nat := 2 ^ 32

abbrev GuestMem : Type := Nat → BitVec 8

/-- `dma_read`: none beyond a 32-bit bus address. The end is computed in 64 bits. -/
def dmaRead (m : GuestMem) (a n : Nat) : Option (List (BitVec 8)) :=
  if n = 0 then some []
  else if busSize < (a + n) % 2 ^ 64 then none
  else some (fetch busSize m a n)

/-- `dma_write`. -/
def dmaWrite (m : GuestMem) (a : Nat) (bs : List (BitVec 8)) : Option GuestMem :=
  if bs = [] then some m
  else if busSize < (a + bs.length) % 2 ^ 64 then none
  else some (store busSize m a bs)

/-! ## The queue's layout -/

/-- `kQueueSize`. -/
abbrev kQueueSize : Nat := 256

/-- `kPage`. -/
abbrev kPage : Nat := 4096

/-- `desc_base`. -/
def descBase (pfn : Nat) : Nat := pfn * kPage

/-- `avail_base`. -/
def availBase (pfn : Nat) : Nat := descBase pfn + 16 * kQueueSize

/-- `used_base`: at the next page. -/
def usedBase (pfn : Nat) : Nat :=
  (availBase pfn + 6 + 2 * kQueueSize + kPage - 1) / kPage * kPage

/-- Where the available ring has buffer `k`. -/
def availSlot (pfn k : Nat) : Nat := availBase pfn + 4 + 2 * (k % kQueueSize)

/-- Where the used ring has entry `k`. -/
def usedSlot (pfn k : Nat) : Nat := usedBase pfn + 4 + 8 * (k % kQueueSize)

/-- The bytes of the two rings. -/
def InRings (pfn x : Nat) : Prop :=
  availBase pfn ≤ x ∧ x < availBase pfn + 4 + 2 * kQueueSize ∨
    usedBase pfn ≤ x ∧ x < usedBase pfn + 4 + 8 * kQueueSize

instance (pfn x : Nat) : Decidable (InRings pfn x) := inferInstanceAs (Decidable (_ ∨ _))

/-! ## Descriptor chains -/

/-- `Seg`: a descriptor of a chain. -/
structure Seg where
  addr : Nat
  len : Nat
  /-- Device-writable. -/
  write : Bool
  deriving DecidableEq

/-- `Chain`: a buffer the driver made available. -/
structure Chain where
  head : Nat
  segs : List Seg
  readable : Nat
  writable : Nat
  deriving DecidableEq

namespace Chain

/-- What a malformed chain is handed back as. -/
def broken (head : Nat) : Chain := ⟨head, [], 0, 0⟩

def push (c : Chain) (s : Seg) : Chain :=
  { c with
    segs := c.segs ++ [s]
    readable := if s.write then c.readable else c.readable + s.len
    writable := if s.write then c.writable + s.len else c.writable }

end Chain

/-- A descriptor as it lies in memory. -/
structure Descr where
  addr : Nat
  len : Nat
  flags : Nat
  next : Nat

namespace Descr

def ofBytes (d : List (BitVec 8)) : Descr where
  addr := leNat (d.take 8)
  len := leNat ((d.drop 8).take 4)
  flags := leNat ((d.drop 12).take 2)
  next := leNat ((d.drop 14).take 2)

/-- `D_NEXT`. -/
def hasNext (d : Descr) : Bool := d.flags.testBit 0

/-- `D_WRITE`. -/
def isWrite (d : Descr) : Bool := d.flags.testBit 1

/-- `D_INDIRECT`. -/
def isIndirect (d : Descr) : Bool := d.flags.testBit 2

end Descr

/-- The walk of `pop_chain` through a table of `entries` descriptors, from descriptor `i`, with
`fuel` more to come before the chain is said to loop. `indirect` takes an indirect descriptor;
`none` is a malformed chain. -/
def walkTable (m : GuestMem) (table entries : Nat) (indirect : Descr → Chain → Option Chain) :
    Nat → Nat → Chain → Option Chain
  | 0, _, _ => none
  | fuel + 1, i, c =>
    if entries ≤ i then none
    else
      match dmaRead m ((table + 16 * i) % 2 ^ 64) 16 with
      | none => none
      | some bytes =>
        let d := Descr.ofBytes bytes
        if d.isIndirect then indirect d c
        else
          let c := c.push ⟨d.addr, d.len, d.isWrite⟩
          if d.hasNext then walkTable m table entries indirect fuel d.next c else some c

/-- The walk enters an indirect table, in which no other may be. -/
def walkIndirect (m : GuestMem) (d : Descr) (c : Chain) : Option Chain :=
  if d.hasNext || decide (d.len < 16) || decide (d.len % 16 ≠ 0) then none
  else walkTable m d.addr (d.len / 16) (fun _ _ => none) (d.len / 16) 0 c

/-- The chain from descriptor `head`. -/
def walkChain (m : GuestMem) (pfn head : Nat) : Option Chain :=
  if kQueueSize ≤ head then none
  else walkTable m (descBase pfn) kQueueSize (walkIndirect m) kQueueSize head ⟨head, [], 0, 0⟩

/-- `chain_read`, over the segments left. -/
def chainRead (m : GuestMem) : List Seg → Nat → Nat → List (BitVec 8)
  | [], _, _ => []
  | s :: segs, off, n =>
    if s.write then chainRead m segs off n
    else if s.len ≤ off then chainRead m segs (off - s.len) n
    else
      let take := min (s.len - off) n
      match dmaRead m ((s.addr + off) % 2 ^ 64) take with
      | none => []
      | some bs => if take = n then bs else bs ++ chainRead m segs 0 (n - take)

/-- `chain_write`, over the segments left: how many bytes it wrote, and the memory then. -/
def chainWrite (m : GuestMem) : List Seg → Nat → List (BitVec 8) → Nat × GuestMem
  | [], _, _ => (0, m)
  | s :: segs, off, bs =>
    if !s.write then chainWrite m segs off bs
    else if s.len ≤ off then chainWrite m segs (off - s.len) bs
    else
      let take := min (s.len - off) bs.length
      match dmaWrite m ((s.addr + off) % 2 ^ 64) (bs.take take) with
      | none => (0, m)
      | some m =>
        if take = bs.length then (take, m)
        else
          let r := chainWrite m segs 0 (bs.drop take)
          (take + r.1, r.2)

/-! ## Requests -/

/-- `kSector`. -/
abbrev kSector : Nat := 512

/-- What virtio-blk asks of a `CDisk`. A write is `none` when it throws, as a host device's does on
an error. -/
structure BlkDisk (δ : Type*) where
  byteSize : δ → Nat
  ro : δ → Bool
  serial : δ → List (BitVec 8)
  seekByte : δ → Nat → Option δ
  readBytes : δ → Nat → List (BitVec 8) × δ
  writeBytes : δ → List (BitVec 8) → Option (Nat × δ)
  flush : δ → δ

/-- The status byte of a request. -/
inductive BlkStatus where
  | ok
  | ioerr
  | unsupp
  deriving DecidableEq

/-- `S_OK`, `S_IOERR`, `S_UNSUPP`. -/
def BlkStatus.byte : BlkStatus → BitVec 8
  | .ok => 0
  | .ioerr => 1
  | .unsupp => 2

/-- What `request` leaves: its status, the bytes it says it wrote (32 bits), the memory and the
disk. -/
structure Answer (δ : Type*) where
  status : BlkStatus
  written : Nat
  mem : GuestMem
  disk : Option δ

section Request

variable {δ : Type*} (D : BlkDisk δ)

/-- A transfer of `len` bytes at a sector is within the disk. -/
def inDisk (d : δ) (sector len : Nat) : Bool :=
  len % kSector == 0 && decide (sector ≤ D.byteSize d / kSector) &&
    decide (len ≤ D.byteSize d - sector * kSector)

/-- `T_IN`. -/
def requestIn (c : Chain) (sector : Nat) (m : GuestMem) (disk : Option δ) : Answer δ :=
  match disk with
  | none => ⟨.ioerr, 0, m, disk⟩
  | some d =>
    let len := c.writable - 1
    if !inDisk D d sector len then ⟨.ioerr, 0, m, disk⟩
    else
      match D.seekByte d (sector * kSector) with
      | none => ⟨.ioerr, 0, m, disk⟩
      | some d =>
        let (bs, d) := D.readBytes d len
        if bs.length ≠ len then ⟨.ioerr, 0, m, some d⟩
        else
          let (n, m) := chainWrite m c.segs 0 bs
          ⟨if n % 2 ^ 32 = len then .ok else .ioerr, n % 2 ^ 32, m, some d⟩

/-- `T_OUT`; `none` when the disk's write throws. -/
def requestOut (c : Chain) (sector : Nat) (m : GuestMem) (disk : Option δ) : Option (Answer δ) :=
  match disk with
  | none => some ⟨.ioerr, 0, m, disk⟩
  | some d =>
    let len := c.readable - 16
    if D.ro d || !inDisk D d sector len then some ⟨.ioerr, 0, m, disk⟩
    else
      let bs := chainRead m c.segs 16 len
      if bs.length ≠ len then some ⟨.ioerr, 0, m, disk⟩
      else
        match D.seekByte d (sector * kSector) with
        | none => some ⟨.ioerr, 0, m, disk⟩
        | some d =>
          match D.writeBytes d bs with
          | none => none
          | some (n, d) => some ⟨if n = len then .ok else .ioerr, 0, m, some d⟩

/-- `T_GET_ID`: the serial number, padded to 20 bytes. -/
def requestGetId (c : Chain) (m : GuestMem) (disk : Option δ) : Answer δ :=
  let serial := (disk.map D.serial).getD []
  let id := (serial.take 20) ++ List.replicate (20 - serial.length) 0
  let (n, m) := chainWrite m c.segs 0 (id.take (min 20 (c.writable - 1)))
  ⟨.ok, n % 2 ^ 32, m, disk⟩

/-- `request`, of a chain the device may write to; `none` when the disk throws. -/
def request (c : Chain) (m : GuestMem) (disk : Option δ) : Option (Answer δ) :=
  let hdr := chainRead m c.segs 0 16
  if hdr.length ≠ 16 then some ⟨.ioerr, 0, m, disk⟩
  else
    let type := leNat (hdr.take 4)
    let sector := leNat ((hdr.drop 8).take 8)
    if type = 0 then some (requestIn D c sector m disk)
    else if type = 1 then requestOut D c sector m disk
    else if type = 4 then some ⟨.ok, 0, m, disk.map D.flush⟩
    else if type = 8 then some (requestGetId D c m disk)
    else some ⟨.unsupp, 0, m, disk⟩

/-- What `process_queue` does with a chain before it hands it back: the request, and its status
byte, which is last. The length for the used ring. -/
def answer (c : Chain) (m : GuestMem) (disk : Option δ) : Option (Nat × GuestMem × Option δ) :=
  if c.segs = [] ∨ c.writable = 0 then some (0, m, disk)
  else
    (request D c m disk).map fun r =>
      ((r.written + 1) % 2 ^ 32, (chainWrite r.mem c.segs (c.writable - 1) [r.status.byte]).2, r.disk)

end Request

/-! ## The device and its thread -/

/-- Where the thread is: asleep, in `process_queue` before `pop_chain` (with its `any`), with a
chain in hand, with one to hand back, before `queue_interrupt`; or ended by an exception. -/
inductive BlkPc where
  | waiting
  | popping (any : Bool)
  | requesting (c : Chain)
  | pushing (head len : Nat)
  | interrupting
  | dead
  deriving DecidableEq

/-- The device with guest memory. -/
structure VirtioBlk (δ : Type*) where
  mem : GuestMem
  pfn : Nat
  lastAvail : Nat
  usedIdx : Nat
  isr : BitVec 8
  /-- `m_kicked`. -/
  kicked : Bool
  brokenReported : Bool
  disk : Option δ
  pc : BlkPc

/-- A 16-bit number in memory. -/
def word16 (m : GuestMem) (a : Nat) : Nat := leNat (fetch busSize m a 2)

namespace VirtioBlk

variable {δ : Type*}

/-- `pop_chain` of the next available buffer. -/
def popChain (s : VirtioBlk δ) : Option (Chain × VirtioBlk δ) :=
  match dmaRead s.mem (availBase s.pfn + 2) 2 with
  | none => none
  | some idx =>
    if leNat idx = s.lastAvail then none
    else
      match dmaRead s.mem (availSlot s.pfn s.lastAvail) 2 with
      | none => none
      | some head =>
        let s := { s with lastAvail := (s.lastAvail + 1) % 2 ^ 16 }
        match walkChain s.mem s.pfn (leNat head) with
        | some c => some (c, s)
        | none => some (Chain.broken (leNat head), { s with brokenReported := true })

/-- `push_used`. -/
def pushUsed (s : VirtioBlk δ) (head len : Nat) : VirtioBlk δ :=
  let m := (dmaWrite s.mem (usedSlot s.pfn s.usedIdx) (leBytes 4 head ++ leBytes 4 len)).getD s.mem
  let usedIdx := (s.usedIdx + 1) % 2 ^ 16
  { s with
    usedIdx
    mem := (dmaWrite m (usedBase s.pfn + 2) (leBytes 2 usedIdx)).getD m }

/-- `AVAIL_F_NO_INTERRUPT`, as `queue_interrupt` reads it. -/
def noInterrupt (s : VirtioBlk δ) : Bool :=
  (leNat ((dmaRead s.mem (availBase s.pfn) 2).getD [0, 0])).testBit 0

/-- `queue_interrupt`. -/
def queueInterrupt (s : VirtioBlk δ) : VirtioBlk δ :=
  if s.noInterrupt then s else { s with isr := s.isr ||| 1 }

/-- `kick`. -/
def kick (s : VirtioBlk δ) : VirtioBlk δ := { s with kicked := true }

/-- The thread's next step: of `run`, or of `process_queue` in it. -/
def threadStep (D : BlkDisk δ) (s : VirtioBlk δ) : VirtioBlk δ :=
  match s.pc with
  | .waiting =>
    if s.kicked then
      { s with kicked := false, pc := if s.pfn = 0 then .waiting else .popping false }
    else s
  | .popping any =>
    match s.popChain with
    | some (c, s) => { s with pc := .requesting c }
    | none => { s with pc := if any then .interrupting else .waiting }
  | .requesting c =>
    match answer D c s.mem s.disk with
    | some (len, mem, disk) => { s with mem, disk, pc := .pushing c.head len }
    | none => { s with pc := .dead }
  | .pushing head len => { s.pushUsed head len with pc := .popping true }
  | .interrupting => { s.queueInterrupt with pc := .waiting }
  | .dead => s

end VirtioBlk

/-! ## The driver -/

/-- The device with what has passed: the heads the driver has published and the entries the device
has handed back, in order, how many buffers were published at the last notify and handed back at
the last read of ISR, and for each buffer whose `queue_interrupt` has run whether it raised the
interrupt. -/
structure BlkHistory (δ : Type*) where
  dev : VirtioBlk δ
  published : List Nat
  used : List (Nat × Nat)
  notified : Nat
  seen : Nat
  signals : List Bool

/-- The driver's steps, and the device thread's. -/
inductive BlkOp where
  /-- The driver writes the ring slot `j` after those it has published. -/
  | writeSlot (j head : Nat)
  /-- The driver advances the available index by `n`. -/
  | advance (n : Nat)
  | notify
  | readIsr
  /-- The driver writes the available ring's flags. -/
  | setFlags (flags : Nat)
  /-- The driver writes memory outside the rings. -/
  | writeMem (a : Nat) (b : BitVec 8)
  | thread

namespace BlkHistory

variable {δ : Type*}

/-- The heads in the `n` ring slots after those published. -/
def nextHeads (h : BlkHistory δ) (n : Nat) : List Nat :=
  (List.range n).map fun j => word16 h.dev.mem (availSlot h.dev.pfn (h.published.length + j))

def setMem (h : BlkHistory δ) (mem : GuestMem) : BlkHistory δ := { h with dev := { h.dev with mem } }

/-- A step of the thread, with what it adds to the history. -/
def threadStep (D : BlkDisk δ) (h : BlkHistory δ) : BlkHistory δ :=
  let h' := { h with dev := h.dev.threadStep D }
  match h.dev.pc with
  | .pushing head len => { h' with used := h.used ++ [(head, len)] }
  | .interrupting =>
    { h' with
      signals := h.signals ++
        List.replicate (h.used.length - h.signals.length) (!h.dev.noInterrupt) }
  | _ => h'

def step (D : BlkDisk δ) (h : BlkHistory δ) : BlkOp → BlkHistory δ
  | .writeSlot j head =>
    h.setMem (store busSize h.dev.mem (availSlot h.dev.pfn (h.published.length + j))
      (leBytes 2 head))
  | .advance n =>
    { h.setMem (store busSize h.dev.mem (availBase h.dev.pfn + 2)
        (leBytes 2 (h.published.length + n))) with
      published := h.published ++ h.nextHeads n }
  | .notify => { h with dev := h.dev.kick, notified := h.published.length }
  | .readIsr => { h with dev := { h.dev with isr := 0 }, seen := h.used.length }
  | .setFlags flags => h.setMem (store busSize h.dev.mem (availBase h.dev.pfn) (leBytes 2 flags))
  | .writeMem a b => h.setMem (Function.update h.dev.mem a b)
  | .thread => h.threadStep D

/-- The queue is set up within the bus's reach, and empty. -/
structure Start (h : BlkHistory δ) : Prop where
  pfn : h.dev.pfn ≠ 0
  reach : usedBase h.dev.pfn + 4 + 8 * kQueueSize ≤ busSize
  availIdx : word16 h.dev.mem (availBase h.dev.pfn + 2) = 0
  usedMem : word16 h.dev.mem (usedBase h.dev.pfn + 2) = 0
  lastAvail : h.dev.lastAvail = 0
  usedIdx : h.dev.usedIdx = 0
  pc : h.dev.pc = .waiting
  published : h.published = []
  used : h.used = []
  notified : h.notified = 0
  seen : h.seen = 0
  signals : h.signals = []

/-- The driver has at most 256 buffers outstanding, and leaves their ring slots alone. -/
def DriverOk (h : BlkHistory δ) : BlkOp → Prop
  | .writeSlot j _ => h.published.length + j < h.used.length + kQueueSize
  | .advance n => h.published.length + n ≤ h.used.length + kQueueSize
  | .writeMem a _ => ¬InRings h.dev.pfn a
  | _ => True

end BlkHistory

end Alphabox.Pci
