import Alphabox.Lib.Reach
import Mathlib.Data.BitVec
import Mathlib.Logic.Function.Basic

/-!
# The Tulip's transmitter (`devices/pci/tulip/`)

`CTulip::dec21143_tx` as the NIC thread runs it: a first section under `m_lock`, the descriptor's
fetch, a second section, the buffers and the frame, the status written back, the last section. The
guest's register writes and its own writes to the ring fall between any two of these.

The transmitter is started, and neither a reset nor a write of CSR4 or CSR6 comes in between, so
that `m_tx_epoch` stands. Descriptors are kept as words after CSR0's byte swap, by address; the
driver keeps them apart from each other and from the buffers.
-/

namespace Alphabox.Pci

/-! ## Descriptors -/

def TDSTAT_OWN : BitVec 32 := 0x80000000
def TDSTAT_ES : BitVec 32 := 0x00008000
def TDSTAT_Tx_TO : BitVec 32 := 0x00004000
def TDSTAT_Tx_LO : BitVec 32 := 0x00000800
def TDSTAT_Tx_NC : BitVec 32 := 0x00000400
def TDSTAT_Tx_LC : BitVec 32 := 0x00000200
def TDSTAT_Tx_EC : BitVec 32 := 0x00000100
def TDSTAT_Tx_UF : BitVec 32 := 0x00000002
def TDCTL_SIZE1 : BitVec 32 := 0x000007ff
def TDCTL_SIZE2 : BitVec 32 := 0x003ff800
def TDCTL_SIZE2_SHIFT : Nat := 11
def TDCTL_ER : BitVec 32 := 0x02000000
def TDCTL_CH : BitVec 32 := 0x01000000
def TDCTL_Tx_IC : BitVec 32 := 0x80000000
def TDCTL_Tx_LS : BitVec 32 := 0x40000000
def TDCTL_Tx_FS : BitVec 32 := 0x20000000
def TDCTL_Tx_FT1 : BitVec 32 := 0x10000000
def TDCTL_Tx_SET : BitVec 32 := 0x08000000
def TDCTL_Tx_AC : BitVec 32 := 0x04000000
def TDCTL_Tx_DPD : BitVec 32 := 0x00800000
def TDCTL_Tx_FT0 : BitVec 32 := 0x00400000

def ETH_MIN_PACKET_RAW : Nat := 60
def ETH_MAX_PACKET_RAW : Nat := 1514

/-- The scratch buffer's size. -/
def TX_CAP : Nat := 2048

/-- A transmit descriptor, and what the driver keeps in its buffers while the chip owns it. -/
structure TxDescr where
  tdes0 : BitVec 32
  tdes1 : BitVec 32
  tdes2 : BitVec 32
  tdes3 : BitVec 32
  memory : BitVec 32 → BitVec 8

namespace TxDescr

variable (d : TxDescr)

def own : Bool := d.tdes0 &&& TDSTAT_OWN ≠ 0

/-- A bit of TDES1. -/
def has (bit : BitVec 32) : Bool := d.tdes1 &&& bit ≠ 0

def buf1Size : Nat := (d.tdes1 &&& TDCTL_SIZE1).toNat

def buf2Size : Nat := ((d.tdes1 &&& TDCTL_SIZE2) >>> TDCTL_SIZE2_SHIFT).toNat

/-- `do_pci_read` of bytes. -/
def read (address : BitVec 32) (n : Nat) : List (BitVec 8) :=
  (List.range n).map fun i => d.memory (address + BitVec.ofNat 32 i)

/-- The descriptor after this one: the list's base, the chain address or the next in memory. -/
def next (txlist skip address : BitVec 32) : BitVec 32 :=
  if d.has TDCTL_ER then txlist
  else if d.has TDCTL_CH then d.tdes3
  else address + 16 + skip

end TxDescr

/-! ## The chip -/

def OPMODE_HP : BitVec 32 := 0x00000001
def OPMODE_SR : BitVec 32 := 0x00000002
def OPMODE_HO : BitVec 32 := 0x00000004
def OPMODE_IF : BitVec 32 := 0x00000010
def OPMODE_OM : BitVec 32 := 0x00000c00
def OPMODE_ST : BitVec 32 := 0x00002000
def OPMODE_FILTER_MODE : BitVec 32 := OPMODE_HP ||| OPMODE_HO ||| OPMODE_IF
def STATUS_TI : BitVec 32 := 0x00000001
def STATUS_TU : BitVec 32 := 0x00000004
def STATUS_TS : BitVec 32 := 0x00700000
def STATUS_TS_FETCH : BitVec 32 := 0x00100000
def STATUS_TS_READING : BitVec 32 := 0x00300000
def STATUS_TS_SETUP : BitVec 32 := 0x00500000
def STATUS_TS_SUSPENDED : BitVec 32 := 0x00600000
def STATUS_TS_CLOSE : BitVec 32 := 0x00700000

/-- The bits of CSR5 that clear when written with 1. -/
def STATUS_W1C : BitVec 32 := 0x0c01ffff

/-- Where the NIC thread is: out of `run`'s transmit loop, at its head, or between the sections of
`dec21143_tx` with what it holds there. -/
inductive TxPc where
  | rest
  | top
  | begun (addr : BitVec 32) (buf : List (BitVec 8))
  | fetched (addr : BitVec 32) (buf : List (BitVec 8)) (d : TxDescr)
  | owned (addr : BitVec 32) (buf : List (BitVec 8)) (d : TxDescr) (opmode : BitVec 32)
  | ready (addr next : BitVec 32) (buf : List (BitVec 8)) (tdes0 : BitVec 32) (ti : Bool)
  | written (next : BitVec 32) (buf : List (BitVec 8)) (ti : Bool)

/-- The transmitter's state. `curBuf` holds the `cur_buf_len` bytes of the frame in hand. -/
structure TulipTx where
  /-- CSR6. -/
  opmode : BitVec 32
  /-- CSR5. -/
  status : BitVec 32
  /-- CSR4. -/
  txlist : BitVec 32
  descrSkip : BitVec 32
  curAddr : BitVec 32
  curBuf : List (BitVec 8)
  suspend : Bool
  txPoll : Bool
  txFirstCtl : BitVec 32
  setupFilter : List (BitVec 8)
  setupLoaded : Bool
  filterDirty : Bool
  /-- What has been put into the receive queue, with whether a CRC was added. -/
  looped : List (List (BitVec 8) × Bool)
  /-- What has been handed to the back end. -/
  sent : List (List (BitVec 8))
  pc : TxPc

namespace TulipTx

variable (s : TulipTx)

/-- `set_tx_state`. -/
def setTxState (state : BitVec 32) : TulipTx :=
  { s with status := (s.status &&& ~~~STATUS_TS) ||| (state &&& STATUS_TS) }

/-- A write of CSR1. -/
def writeTxpoll : TulipTx := { s with txPoll := s.suspend || s.txPoll, suspend := false }

/-- A write of CSR5. -/
def writeStatus (data : BitVec 32) : TulipTx :=
  { s with status := s.status &&& ~~~(data &&& STATUS_W1C) }

/-! ## The sections of `dec21143_tx` -/

/-- The first locked section; `dec21143_tx` returns 0 while the process is suspended. -/
def begin : TulipTx :=
  if s.opmode &&& OPMODE_ST = 0 ∨ s.suspend then { s with pc := .rest }
  else { s.setTxState STATUS_TS_FETCH with pc := .begun s.curAddr s.curBuf }

/-- The second locked section, on a descriptor that was not the chip's. -/
def giveUp : TulipTx :=
  let s' := if s.txPoll then s else { s with status := s.status ||| STATUS_TU }
  let s'' := if s.opmode &&& OPMODE_ST ≠ 0 then s'.setTxState STATUS_TS_SUSPENDED else s'
  { s'' with txPoll := false, suspend := true, pc := .rest }

/-- The second locked section, on one that was. -/
def accept (addr : BitVec 32) (buf : List (BitVec 8)) (d : TxDescr) : TulipTx :=
  let s' := if s.opmode &&& OPMODE_ST ≠ 0 then
      s.setTxState (if d.has TDCTL_Tx_SET then STATUS_TS_SETUP else STATUS_TS_READING)
    else s
  { s' with txPoll := false, pc := .owned addr buf d s.opmode }

/-- The filtering type of a setup frame. -/
def setupMode (d : TxDescr) : BitVec 32 :=
  if d.has TDCTL_Tx_FT1 then
    if d.has TDCTL_Tx_FT0 then OPMODE_HP ||| OPMODE_HO else OPMODE_IF
  else if d.has TDCTL_Tx_FT0 then OPMODE_HP else 0

/-- A setup frame: 192 bytes of whichever buffer has a size. -/
def loadSetup (d : TxDescr) : TulipTx :=
  { s with
    setupFilter := d.read (if d.buf1Size ≠ 0 then d.tdes2 else d.tdes3) 192
    opmode := (s.opmode &&& ~~~OPMODE_FILTER_MODE) ||| setupMode d
    setupLoaded := true
    filterDirty := true }

/-- A buffer's bytes, as many as the scratch buffer still takes. -/
def copyIn (d : TxDescr) (buf : List (BitVec 8)) (address : BitVec 32) (size : Nat) :
    List (BitVec 8) :=
  buf ++ d.read address (min size (TX_CAP - buf.length))

/-- The scratch buffer with the descriptor's bytes; a first segment starts it afresh. -/
def gather (d : TxDescr) (buf : List (BitVec 8)) : List (BitVec 8) :=
  let buf := copyIn d (if d.has TDCTL_Tx_FS then [] else buf) d.tdes2 d.buf1Size
  if d.has TDCTL_CH then buf else copyIn d buf d.tdes3 d.buf2Size

/-- Zeros up to the minimum length, unless the first descriptor set DPD. -/
def pad (firstCtl : BitVec 32) (buf : List (BitVec 8)) : List (BitVec 8) :=
  if buf.length < ETH_MIN_PACKET_RAW ∧ firstCtl &&& TDCTL_Tx_DPD = 0 then
    buf ++ List.replicate (ETH_MIN_PACKET_RAW - buf.length) 0
  else buf

/-- Whether a CRC is added. -/
def addCrc (firstCtl : BitVec 32) (buf : List (BitVec 8)) : Bool :=
  firstCtl &&& TDCTL_Tx_AC = 0 ||
    (buf.length < ETH_MIN_PACKET_RAW ∧ firstCtl &&& TDCTL_Tx_DPD = 0 : Bool)

/-- The frame of a last segment: to the back end, or back into the receive queue. -/
def deliver (opmode : BitVec 32) (buf : List (BitVec 8)) : TulipTx :=
  if buf.length > ETH_MAX_PACKET_RAW then s
  else if opmode &&& OPMODE_OM = 0 then { s with sent := s.sent ++ [pad s.txFirstCtl buf] }
  else if opmode &&& OPMODE_SR ≠ 0 then
    { s with looped := s.looped ++ [(pad s.txFirstCtl buf, addCrc s.txFirstCtl buf)] }
  else s

/-- The error bits of TDES0. -/
def TX_ERRORS : BitVec 32 :=
  TDSTAT_Tx_UF ||| TDSTAT_Tx_EC ||| TDSTAT_Tx_LC ||| TDSTAT_Tx_NC ||| TDSTAT_Tx_LO ||| TDSTAT_Tx_TO

/-- TDES0 of a data descriptor as it is written back. -/
def closingStatus (tdes0 : BitVec 32) (tooLong : Bool) : BitVec 32 :=
  let t := tdes0 &&& ~~~(TX_ERRORS ||| TDSTAT_ES)
  let t := if tooLong then t ||| TDSTAT_Tx_TO ||| TDSTAT_ES else t
  let t := t &&& ~~~TDSTAT_OWN
  if t &&& TX_ERRORS ≠ 0 then t ||| TDSTAT_ES else t

/-- A data descriptor: its bytes are added to the frame, and a last segment ends it. -/
def execData (addr : BitVec 32) (buf : List (BitVec 8)) (d : TxDescr) (opmode : BitVec 32) :
    TulipTx :=
  let s := { s with txFirstCtl := if d.has TDCTL_Tx_FS then d.tdes1 else s.txFirstCtl }
  let buf := gather d buf
  let next := d.next s.txlist s.descrSkip addr
  if d.has TDCTL_Tx_LS then
    { s.deliver opmode buf with
      pc := .ready addr next [] (closingStatus d.tdes0 (buf.length > ETH_MAX_PACKET_RAW))
        (d.has TDCTL_Tx_IC) }
  else { s with pc := .ready addr next buf (closingStatus d.tdes0 false) false }

/-- The buffers and the frame, without the lock. -/
def exec (addr : BitVec 32) (buf : List (BitVec 8)) (d : TxDescr) (opmode : BitVec 32) : TulipTx :=
  if d.has TDCTL_Tx_SET then
    { s.loadSetup d with
      pc := .ready addr (d.next s.txlist s.descrSkip addr) buf 0x7fffffff (d.has TDCTL_Tx_IC) }
  else s.execData addr buf d opmode

/-- The last locked section. -/
def commit (next : BitVec 32) (buf : List (BitVec 8)) (ti : Bool) : TulipTx :=
  let s' := { s with
    curAddr := next
    curBuf := buf
    status := if ti then s.status ||| STATUS_TI else s.status }
  let s'' := if s.opmode &&& OPMODE_ST ≠ 0 then s'.setTxState STATUS_TS_CLOSE else s'
  { s'' with pc := .top }

end TulipTx

/-! ## The driver and the thread -/

/-- The chip, the ring in memory, and what has passed between driver and chip. -/
structure TxHistory where
  nic : TulipTx
  mem : BitVec 32 → TxDescr
  /-- Where the chip's list starts, and `m_tx_first_ctl` there. -/
  first : BitVec 32
  firstCtl : BitVec 32
  /-- Where the driver fills its next descriptor. -/
  prod : BitVec 32
  /-- Every descriptor given to the chip, in order. -/
  posted : List TxDescr
  /-- Every status the chip has written back, with its address, in order. -/
  closed : List (BitVec 32 × BitVec 32)
  /-- How many descriptors were posted at the last write of CSR1. -/
  demanded : Nat
  /-- The thread has finished a pass since. -/
  finished : Bool

/-- A step of the driver or of the NIC thread. -/
inductive TxOp where
  | post (d : TxDescr)
  | txpoll
  | clear (data : BitVec 32)
  | thread

namespace TxHistory

variable (h : TxHistory)

/-- One step of the NIC thread; out of the loop it starts its next pass. -/
def thread : TxHistory :=
  match h.nic.pc with
  | .rest => { h with nic := { h.nic with pc := .top } }
  | .top =>
    { h with
      nic := h.nic.begin
      finished := h.finished || decide (h.nic.opmode &&& OPMODE_ST = 0 ∨ h.nic.suspend = true) }
  | .begun addr buf => { h with nic := { h.nic with pc := .fetched addr buf (h.mem addr) } }
  | .fetched addr buf d =>
    if d.own then { h with nic := h.nic.accept addr buf d }
    else { h with nic := h.nic.giveUp, finished := true }
  | .owned addr buf d opmode => { h with nic := h.nic.exec addr buf d opmode }
  | .ready addr next buf tdes0 ti =>
    { h with
      nic := { h.nic with pc := .written next buf ti }
      mem := Function.update h.mem addr { h.mem addr with tdes0 := tdes0 }
      closed := h.closed ++ [(addr, tdes0)] }
  | .written next buf ti => { h with nic := h.nic.commit next buf ti }

def step : TxOp → TxHistory
  | .post d =>
    { h with
      mem := Function.update h.mem h.prod d
      prod := d.next h.nic.txlist h.nic.descrSkip h.prod
      posted := h.posted ++ [d] }
  | .txpoll =>
    { h with nic := h.nic.writeTxpoll, demanded := h.posted.length, finished := false }
  | .clear data => { h with nic := h.nic.writeStatus data }
  | .thread => h.thread

/-- The driver posts a descriptor with OWN set where the chip does not own one. -/
def Allowed : TxOp → Prop
  | .post d => d.own = true ∧ (h.mem h.prod).own = false
  | _ => True

/-- No poll demand comes while the thread holds a descriptor that it fetched before the driver gave
it to the chip. -/
def Safe : TxOp → Prop
  | .txpoll => ∀ addr buf d, h.nic.pc = .fetched addr buf d → d.own = false →
    (h.mem addr).own = false
  | _ => True

/-- The transmitter started on a ring of which the chip owns nothing. -/
structure Init : Prop where
  started : h.nic.opmode &&& OPMODE_ST ≠ 0
  pc : h.nic.pc = .rest
  first : h.nic.curAddr = h.first ∧ h.prod = h.first ∧ h.nic.txFirstCtl = h.firstCtl
  empty : h.nic.curBuf = [] ∧ h.nic.sent = []
  mem : ∀ a, (h.mem a).own = false
  history : h.posted = [] ∧ h.closed = [] ∧ h.demanded = 0

def Reachable (ok : TxHistory → TxOp → Prop) : TxHistory → Prop := Lib.Reach Init ok step

end TxHistory

end Alphabox.Pci
