import Alphabox.Storage.Medium

/-!
# SCSI READ and WRITE (`devices/storage/Disk.cpp`)

A disk as a SCSI target: an initiator selects it, sends a command, moves data in transfers of its
own choosing and takes the status. A READ or a WRITE goes through a buffer of 256 KiB a piece at a
time.

The handlers of the other commands and of messages are parameters.
-/

namespace Alphabox.Storage

open Lib

/-- The bus phases. -/
inductive Phase
  | dataOut | dataIn | command | status | msgOut | msgIn | free
  deriving DecidableEq

/-! ## Sense data -/

/-- The error codes of `do_scsi_error` that a READ or a WRITE ends with. -/
inductive ScsiErr
  | illCmd | invalidField | invalidLun | lbaRange | mediaChange | resetOccurred
  | noMediaTrayClosed | noMediaTrayOpen | readError | writeProtected | writeFault
  deriving DecidableEq

/-- Sense key, additional sense code and its qualifier. -/
def ScsiErr.sense : ScsiErr → UInt8 × UInt8 × UInt8
  | illCmd => (0x05, 0x20, 0x00)
  | invalidField => (0x05, 0x24, 0x00)
  | invalidLun => (0x05, 0x25, 0x00)
  | lbaRange => (0x05, 0x21, 0x00)
  | mediaChange => (0x06, 0x28, 0x00)
  | resetOccurred => (0x06, 0x29, 0x00)
  | noMediaTrayClosed => (0x02, 0x3a, 0x01)
  | noMediaTrayOpen => (0x02, 0x3a, 0x02)
  | readError => (0x03, 0x11, 0x00)
  | writeProtected => (0x07, 0x27, 0x00)
  | writeFault => (0x04, 0x03, 0x00)

structure Sense where
  code : UInt8 × UInt8 × UInt8
  /-- The information bytes, 32 bits. -/
  info : Nat
  deriving DecidableEq

/-! ## The target's state -/

/-- `DATI_BUFSZ` and `DATO_BUFSZ`. -/
abbrev bufSize : Nat := 256 * 1024

/-- A block length for which the buffers hold a block. -/
abbrev BlockSize : Type := { n : Nat // 0 < n ∧ n ≤ bufSize }

/-- What the target has for the initiator: `available` bytes of `data`, `read` of them taken. -/
structure InBuf where
  data : List UInt8
  available : Nat
  read : Nat
  deriving DecidableEq

/-- What the target takes from the initiator: `data` are the bytes `written` so far. -/
structure OutBuf where
  data : List UInt8
  expected : Nat
  deriving DecidableEq

def OutBuf.written (b : OutBuf) : Nat := b.data.length

/-- `state.scsi.cmd`. -/
structure Cmd where
  data : Nat → UInt8
  written : Nat

/-- `SDisk_stream`. -/
structure Stream where
  lba : Nat
  blocks : Nat
  write : Bool
  active : Bool
  deriving DecidableEq

/-- All zeros. -/
def Stream.none : Stream := ⟨0, 0, false, false⟩

/-- `CDisk`, over a medium with states `σ`. -/
structure CDisk (σ : Type) where
  medium : σ
  blockSize : BlockSize
  isCdrom : Bool
  readOnly : Bool
  isRemovable : Bool
  atapiMode : Bool
  phase : Phase
  identifyReceived : Bool
  lunSelected : Bool
  /-- The flags of `media_changed`. -/
  resetUnitAttention : Bool
  mediaUnitAttention : Bool
  mediaTrayOpen : Bool
  cmd : Cmd
  msgo : List UInt8
  dati : InBuf
  dato : OutBuf
  stat : InBuf
  msgi : InBuf
  /-- `none` where no sense data is available. -/
  sense : Option Sense
  stream : Stream

/-- The handlers of what is not modelled: the other commands, answering whether they want DATA OUT,
and the messages, answering the next phase. -/
structure Handlers (σ : Type) where
  command : CDisk σ → Bool × CDisk σ
  message : CDisk σ → Phase × CDisk σ

/-! ## Command descriptor blocks -/

/-- `get_be32`. -/
def getBe32 (c : Nat → UInt8) (i : Nat) : Nat :=
  (c i).toNat <<< 24 ||| (c (i + 1)).toNat <<< 16 ||| (c (i + 2)).toNat <<< 8 ||| (c (i + 3)).toNat

/-- `cdb_lba_length`: the address and the length in blocks, of READ, WRITE, VERIFY, READ CD and READ
LONG. -/
def cdbLbaLength (c : Nat → UInt8) : Option (Nat × Nat) :=
  let op := c 0
  if op = 0x08 ∨ op = 0x0a then
    some ((c 1 &&& 0x1f).toNat <<< 16 ||| (c 2).toNat <<< 8 ||| (c 3).toNat,
      if c 4 ≠ 0 then (c 4).toNat else 256)
  else if op = 0x28 ∨ op = 0x2a ∨ op = 0x2f then
    some (getBe32 c 2, (c 7).toNat <<< 8 ||| (c 8).toNat)
  else if op = 0xa8 ∨ op = 0xaa then
    some (getBe32 c 2, getBe32 c 6)
  else if op = 0x88 ∨ op = 0x8a ∨ op = 0x8f then
    some (getBe32 c 2 <<< 32 ||| getBe32 c 6, getBe32 c 10)
  else if op = 0xbe then
    some (getBe32 c 2, (c 6).toNat <<< 16 ||| (c 7).toNat <<< 8 ||| (c 8).toNat)
  else if op = 0x3e then some (getBe32 c 2, 1)
  else none

/-- The opcodes of READ. -/
def isRead (op : UInt8) : Bool := op == 0x08 || op == 0x28 || op == 0xa8 || op == 0x88

/-- The opcodes of WRITE. -/
def isWrite (op : UInt8) : Bool := op == 0x0a || op == 0x2a || op == 0xaa || op == 0x8a

/-- The opcodes that work through a unit attention: INQUIRY, REQUEST SENSE, GET CONFIGURATION and
GET EVENT STATUS NOTIFICATION. -/
def passesAttention (op : UInt8) : Bool := op == 0x12 || op == 0x03 || op == 0x46 || op == 0x4a

/-- `cmd_needs_media`. -/
def cmdNeedsMedia (op : UInt8) : Bool :=
  isRead op || isWrite op ||
    [0x00, 0xbe, 0x3e, 0x2f, 0x8f, 0x25, 0x9e, 0x2b, 0x43, 0x42].contains op

namespace CDisk

variable {σ : Type} (M : Medium σ) (hs : Handlers σ)

/-! ## The medium in blocks -/

/-- `get_lba_size`. -/
def lbaSize (d : CDisk σ) : Nat := (M.image d.medium).size / d.blockSize

/-- `lba_range_ok`. -/
def lbaRangeOk (d : CDisk σ) (lba blocks : Nat) : Bool :=
  let n := d.lbaSize M
  decide (lba ≤ n) && decide (blocks ≤ n - lba)

/-- `stream_piece_blocks`. -/
def streamPieceBlocks (d : CDisk σ) : Nat := bufSize / d.blockSize

/-- `seek_block`. -/
def seekBlock (d : CDisk σ) (lba : Nat) : Bool × CDisk σ :=
  let r := M.seekByte d.medium (lba * d.blockSize % 2 ^ 64)
  (r.1, { d with medium := r.2 })

/-- `read_blocks`, with the bytes read. -/
def readBlocks (d : CDisk σ) (blocks : Nat) : Nat × List UInt8 × CDisk σ :=
  let r := M.readBytes d.medium (blocks * d.blockSize)
  (r.1.length / d.blockSize, r.1, { d with medium := r.2 })

/-- `write_blocks`. -/
def writeBlocks (d : CDisk σ) (src : List UInt8) (blocks : Nat) : Nat × CDisk σ :=
  let r := M.writeBytes d.medium (src.take (blocks * d.blockSize))
  (r.1 / d.blockSize, { d with medium := r.2 })

/-! ## Commands -/

/-- `do_scsi_error`: `none` is `SCSI_OK`. -/
def doScsiError (d : CDisk σ) (err : Option ScsiErr) (info : Nat) : CDisk σ :=
  let d := { d with stat := ⟨[0], 1, 0⟩, msgi := ⟨[0], 1, 0⟩ }
  match err with
  | none => d
  | some e =>
    { d with
      dati := ⟨d.dati.data, 0, 0⟩
      stat := ⟨[0x02], 1, 0⟩
      sense := some ⟨e.sense, info % 2 ^ 32⟩ }

/-- `stream_read_next`. -/
def streamReadNext (d : CDisk σ) : Bool × CDisk σ :=
  let n := min d.stream.blocks d.streamPieceBlocks
  let start := d.stream.lba
  let failed (d : CDisk σ) : Bool × CDisk σ :=
    (false, ({ d with stream := .none }).doScsiError (some .readError) start)
  let s := d.seekBlock M start
  if s.1 then
    let r := s.2.readBlocks M n
    if r.1 = n then
      (true, { r.2.2 with
        stream := { r.2.2.stream with lba := start + n, blocks := r.2.2.stream.blocks - n }
        dati := ⟨r.2.1, n * d.blockSize, 0⟩ })
    else failed r.2.2
  else failed s.2

/-- `stream_write_piece`. -/
def streamWritePiece (d : CDisk σ) : Phase × CDisk σ :=
  let n := d.dato.written / d.blockSize
  let start := d.stream.lba - n
  let s := d.seekBlock M start
  if s.1 then
    let r := s.2.writeBlocks M d.dato.data n
    if r.1 = n then
      if r.2.stream.blocks ≠ 0 then
        let next := min r.2.stream.blocks d.streamPieceBlocks
        (.dataOut, { r.2 with
          stream := { r.2.stream with
            lba := r.2.stream.lba + next, blocks := r.2.stream.blocks - next }
          dato := ⟨[], next * d.blockSize⟩ })
      else (.status, ({ r.2 with stream := .none }).doScsiError none 0)
    else (.status, ({ r.2 with stream := .none }).doScsiError (some .writeFault) start)
  else (.status, ({ s.2 with stream := .none }).doScsiError (some .lbaRange) 0)

/-- READ in `do_scsi_command`. -/
def doRead (d : CDisk σ) : CDisk σ :=
  let (lba, blocks) := (cdbLbaLength d.cmd.data).getD (0, 0)
  if d.lbaRangeOk M lba blocks then
    let n := min blocks d.streamPieceBlocks
    let done (d : CDisk σ) (data : List UInt8) : CDisk σ :=
      ({ d with
        dati := ⟨data, n * d.blockSize, 0⟩
        stream := ⟨lba + n, blocks - n, false, decide (blocks - n ≠ 0)⟩ }).doScsiError none 0
    if 0 < n then
      let s := d.seekBlock M lba
      if s.1 then
        let r := s.2.readBlocks M n
        if r.1 = n then done r.2.2 r.2.1 else r.2.2.doScsiError (some .readError) lba
      else s.2.doScsiError (some .lbaRange) 0
    else done d d.dati.data
  else d.doScsiError (some .lbaRange) 0

/-- WRITE in `do_scsi_command`: whether DATA OUT follows. -/
def doWrite (d : CDisk σ) : Bool × CDisk σ :=
  if d.isCdrom then (false, d.doScsiError (some .illCmd) 0)
  else if d.readOnly then (false, d.doScsiError (some .writeProtected) 0)
  else
    let (lba, blocks) := (cdbLbaLength d.cmd.data).getD (0, 0)
    if d.lbaRangeOk M lba blocks then
      if blocks = 0 then (false, d.doScsiError none 0)
      else
        let n := min blocks d.streamPieceBlocks
        (true, { d with
          dato := ⟨[], n * d.blockSize⟩
          stream := ⟨lba + n, blocks - n, true, true⟩ })
    else (false, d.doScsiError (some .lbaRange) 0)

/-- Sense data is cleared and the logical unit is named by a command. -/
def receive (d : CDisk σ) : CDisk σ :=
  { d with
    sense := if d.cmd.data 0 = 0x03 then d.sense else none
    lunSelected :=
      d.lunSelected || (!d.identifyReceived && decide (d.cmd.data 1 &&& 0xe0 ≠ 0)) }

/-- What keeps a command from being looked at: a logical unit that is not here, a unit attention,
no medium. -/
def refuse (d : CDisk σ) : Option (CDisk σ) :=
  let op := d.cmd.data 0
  if d.lunSelected && op != 0x12 && op != 0x03 then
    some (d.doScsiError (some .invalidLun) 0)
  else if d.resetUnitAttention && !passesAttention op then
    some (({ d with resetUnitAttention := false }).doScsiError (some .resetOccurred) 0)
  else if d.isRemovable && d.mediaUnitAttention && !passesAttention op then
    some (({ d with mediaUnitAttention := false }).doScsiError (some .mediaChange) 0)
  else if d.isRemovable && decide ((M.image d.medium).size = 0) && cmdNeedsMedia op then
    some (d.doScsiError
      (some (if d.mediaTrayOpen then .noMediaTrayOpen else .noMediaTrayClosed)) 0)
  else none

/-- `do_scsi_command`: whether it returns 2. -/
def doScsiCommand (d : CDisk σ) : Bool × CDisk σ :=
  if d.cmd.written < 1 then (false, d)
  else
    let d := d.receive
    match d.refuse M with
    | some d => (false, d)
    | none =>
      let op := d.cmd.data 0
      if isRead op then (false, d.doRead M)
      else if op = 0xbe then
        if d.cmd.data 9 ≠ 0x00 ∧ d.cmd.data 9 ≠ 0x10 then
          (false, d.doScsiError (some .invalidField) 0)
        else (false, d.doRead M)
      else if isWrite op then d.doWrite M
      else hs.command d

/-! ## Selection and transfers -/

/-- `scsi_select_me`. -/
def select (d : CDisk σ) (atn : Bool) : CDisk σ :=
  { d with
    msgo := []
    msgi := ⟨d.msgi.data, 0, 0⟩
    cmd := ⟨d.cmd.data, 0⟩
    dati := ⟨d.dati.data, 0, 0⟩
    dato := ⟨[], 0⟩
    stat := ⟨d.stat.data, 0, 0⟩
    lunSelected := false
    identifyReceived := false
    stream := .none
    phase := if d.atapiMode || !atn then .command else .msgOut }

/-- `scsi_expected_xfer_me`: nothing when the bus is free. -/
def expectedXfer (d : CDisk σ) : Nat :=
  match d.phase with
  | .dataOut => d.dato.expected - d.dato.written
  | .dataIn => d.dati.available - d.dati.read
  | .command => 256 - d.cmd.written
  | .status => d.stat.available - d.stat.read
  | .msgOut => 256 - d.msgo.length
  | .msgIn => d.msgi.available - d.msgi.read
  | .free => 0

/-- `scsi_xfer_ptr_me` where the initiator reads `bytes` bytes. -/
def xferIn (d : CDisk σ) (bytes : Nat) : List UInt8 × CDisk σ :=
  let part (b : InBuf) : List UInt8 := (b.data.drop b.read).take bytes
  match d.phase with
  | .dataIn => (part d.dati, { d with dati := { d.dati with read := d.dati.read + bytes } })
  | .status => (part d.stat, { d with stat := { d.stat with read := d.stat.read + bytes } })
  | .msgIn => (part d.msgi, { d with msgi := { d.msgi with read := d.msgi.read + bytes } })
  | _ => ([], d)

/-- `scsi_xfer_ptr_me` where the initiator writes `src`. -/
def xferOut (d : CDisk σ) (src : List UInt8) : CDisk σ :=
  match d.phase with
  | .dataOut => { d with dato := { d.dato with data := d.dato.data ++ src } }
  | .command =>
    let w := d.cmd.written
    { d with cmd := ⟨fun i => if w ≤ i ∧ i < w + src.length then src.getD (i - w) 0
        else d.cmd.data i, w + src.length⟩ }
  | .msgOut => { d with msgo := d.msgo ++ src }
  | _ => d

/-- Where `do_scsi_command` leaves the bus. -/
def afterCommand (r : Bool × CDisk σ) : CDisk σ :=
  { r.2 with phase := if r.1 then .dataOut else if r.2.dati.available ≠ 0 then .dataIn
      else .status }

/-- `scsi_xfer_done_me`. -/
def xferDone (d : CDisk σ) : CDisk σ :=
  match d.phase with
  | .dataOut =>
    if d.dato.written < d.dato.expected then d
    else if d.stream.active && d.stream.write then
      let r := d.streamWritePiece M
      { r.2 with phase := r.1 }
    else
      -- A command that has had its DATA OUT wants no other.
      afterCommand (false, (d.doScsiCommand M hs).2)
  | .dataIn =>
    if d.dati.read < d.dati.available then d
    else if d.stream.active && !d.stream.write && decide (d.stream.blocks ≠ 0) then
      let r := d.streamReadNext M
      if r.1 then r.2 else { r.2 with phase := .status }
    else { d with phase := .status }
  | .command => afterCommand (d.doScsiCommand M hs)
  | .status =>
    if d.stat.read < d.stat.available then d
    else if d.atapiMode then { d with phase := .free }
    else { d with phase := .msgIn }
  | .msgOut =>
    let r := hs.message d
    { r.2 with phase := r.1 }
  | .msgIn =>
    if d.msgi.read < d.msgi.available then d
    else if d.cmd.written ≠ 0 then { d with phase := .free }
    else { d with phase := .command }
  | .free => d

/-! ## Initiators -/

/-- An initiator sends a command. -/
def sendCommand (d : CDisk σ) (cdb : List UInt8) : CDisk σ := (d.xferOut cdb).xferDone M hs

/-- An initiator takes data while the target has some, in transfers of `cuts` bytes where as many
are expected, else of what is expected. -/
def readRun (d : CDisk σ) : List Nat → List UInt8 × CDisk σ
  | [] => ([], d)
  | k :: cuts =>
    if d.phase = .dataIn then
      let r := d.xferIn (min k d.expectedXfer)
      let rest := (r.2.xferDone M hs).readRun cuts
      (r.1 ++ rest.1, rest.2)
    else ([], d)

/-- An initiator sends data of `src` while the target wants some, likewise. -/
def writeRun (d : CDisk σ) (src : List UInt8) : List Nat → List UInt8 × CDisk σ
  | [] => ([], d)
  | k :: cuts =>
    if d.phase = .dataOut then
      let part := src.take (min k d.expectedXfer)
      let rest := ((d.xferOut part).xferDone M hs).writeRun (src.drop (min k d.expectedXfer)) cuts
      (part ++ rest.1, rest.2)
    else ([], d)

end CDisk

end Alphabox.Storage
