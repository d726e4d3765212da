import Alphabox.Lib.Bytes
import Alphabox.Pci.Isp1040

/-!
# A command of the ISP10x0 on the bus (`devices/pci/isp1040/Isp1040Queues.cpp`)

`gather_segments` collects a command's buffer segments from its entry and the continuation entries
that follow it in the ring; `execute_entry` runs the command and spreads the target's data phases
over the segments. Host memory is bytes at 32-bit bus addresses. What the target does once selected
is given as the phases it goes through.
-/

namespace Alphabox.Pci

open Lib (leNat fetch)

/-- Bus addresses have 32 bits. -/
abbrev ispBus : Nat := 2 ^ 32

/-- The request queue in host memory: `request_base` and `request_length`. -/
structure IspRing where
  base : Nat
  length : Nat

/-- `ISP_QUEUE_ENTRY_SIZE`. -/
abbrev entrySize : Nat := 64

/-! ## Segments -/

/-- Where an entry has a segment: `wide` is the 64-bit form. -/
structure SegPlace where
  entry : List (BitVec 8)
  start : Nat
  wide : Bool

namespace SegPlace

variable (p : SegPlace)

def dword (i : Nat) : Nat := leNat ((p.entry.drop i).take 4)

/-- The low 32 bits of the address. -/
def address : Nat := p.dword p.start

def high : Nat := if p.wide then p.dword (p.start + 4) else 0

def count : Nat := p.dword (if p.wide then p.start + 8 else p.start + 4)

end SegPlace

/-- `seg_address` and `seg_count`. -/
structure IspSegment where
  address : Nat
  count : Nat
  deriving DecidableEq

/-- The places for segments in a command entry. -/
def entryPlaces (entry : List (BitVec 8)) : List SegPlace :=
  let a64 := entry.getD 0 0 = ISP_ENTRY_TYPE_A64
  let inEntry := if a64 then 2 else 4
  let stride := if a64 then 12 else 8
  (List.range inEntry).map fun i => ⟨entry, 0x20 + i * stride, a64⟩

/-- The places in a continuation entry. -/
def contPlaces (cont : List (BitVec 8)) : List SegPlace :=
  let c64 := cont.getD 0 0 = ISP_ENTRY_TYPE_A64_CONT
  let n := if c64 then 5 else 7
  let cstride := if c64 then 12 else 8
  let cbase := if c64 then 0x04 else 0x08
  (List.range n).map fun i => ⟨cont, cbase + i * cstride, c64⟩

theorem length_contPlaces (cont : List (BitVec 8)) : 0 < (contPlaces cont).length := by
  simp only [contPlaces, List.length_map, List.length_range]
  split <;> decide

/-- The walk through the continuation entries from `slot` on, while fewer than `limit` segments are
found. -/
def continuations (m : Nat → BitVec 8) (q : IspRing) (limit slot : Nat) (found : List SegPlace) :
    List SegPlace :=
  if _h : found.length < limit then
    let cont := fetch ispBus m (q.base + slot * entrySize) entrySize
    if cont.getD 0 0 ≠ ISP_ENTRY_TYPE_DATASEG ∧ cont.getD 0 0 ≠ ISP_ENTRY_TYPE_A64_CONT then found
    else
      continuations m q limit ((slot + 1) % q.length)
        (found ++ (contPlaces cont).take (limit - found.length))
  else found
termination_by limit - found.length
decreasing_by
  have := length_contPlaces (fetch ispBus m (q.base + slot * entrySize) entrySize)
  simp only [List.length_append, List.length_take]
  omega

/-- The places `gather_segments` goes through. -/
def segmentPlaces (m : Nat → BitVec 8) (q : IspRing) (entryAddress maxSegments : Nat) :
    List SegPlace :=
  let entry := fetch ispBus m entryAddress entrySize
  let wanted := leNat (fetch ispBus m (entryAddress + 0x12) 2)
  let limit := min wanted maxSegments
  let slot := ((entryAddress + ispBus - q.base) % ispBus / entrySize + 1) % q.length
  continuations m q limit slot ((entryPlaces entry).take limit)

/-- `gather_segments`. -/
def gatherSegments (m : Nat → BitVec 8) (q : IspRing) (entryAddress maxSegments : Nat) :
    List IspSegment :=
  (segmentPlaces m q entryAddress maxSegments).map fun p => ⟨p.address, p.count⟩

/-! ## Data phases -/

/-- What the target does: a phase and, where the target gives something, what. -/
inductive TargetPhase where
  | msgOut
  | command
  | dataIn (bytes : List (BitVec 8))
  | dataOut (count : Nat)
  | status (byte : BitVec 8)
  | msgIn (bytes : List (BitVec 8))
  deriving DecidableEq

/-- Selection: the bus is not had, no target answers, or one does, goes through phases and has sense
data for a CHECK CONDITION. -/
inductive IspTarget where
  | noBus
  | absent
  | selected (phases : List TargetPhase) (sense : List (BitVec 8))

/-- A byte moved between host memory and the target. -/
structure IspMove where
  address : Nat
  byte : BitVec 8
  toMemory : Bool
  deriving DecidableEq

/-- Where the `left` bytes of a data phase go: the bus addresses, what is left of the segments from
`offset` in the first one on, and how many bytes have no place. -/
def spread (left offset : Nat) : List IspSegment → List Nat × List IspSegment × Nat × Nat
  | [] => ([], [], offset, left)
  | s :: rest =>
    if left = 0 then ([], s :: rest, offset, 0)
    else
      let now := min left (s.count - offset)
      let here := (List.range now).map fun i => (s.address + offset + i) % ispBus
      if offset + now = s.count then
        let r := spread (left - now) 0 rest
        (here ++ r.1, r.2)
      else (here, s :: rest, offset + now, left - now)

/-- Bytes into memory, each at its address. -/
def storeAll (m : Nat → BitVec 8) (l : List (Nat × BitVec 8)) : Nat → BitVec 8 :=
  l.foldl (fun m x => Function.update m x.1 x.2) m

/-! ## The command -/

def ISP_STATUS_COMPLETE : BitVec 16 := 0x0000
def ISP_STATUS_INCOMPLETE : BitVec 16 := 0x0001
def ISP_STATUS_DATA_OVERRUN : BitVec 16 := 0x0007
def ISP_STATUS_DATA_UNDERRUN : BitVec 16 := 0x0015
def ISP_STATUS_BUS_RESET : BitVec 16 := 0x0017
def ISP_STATE_GOT_BUS : BitVec 16 := 0x0100
def ISP_STATE_GOT_TARGET : BitVec 16 := 0x0200
def ISP_STATE_SENT_CDB : BitVec 16 := 0x0400
def ISP_STATE_XFRD_DATA : BitVec 16 := 0x0800
def ISP_STATE_GOT_STATUS : BitVec 16 := 0x1000

/-- The command while it is on the bus. `segments` are those from `segment` on. -/
structure IspRun where
  mem : Nat → BitVec 8
  segments : List IspSegment
  offset : Nat
  moved : BitVec 32
  completion : BitVec 16
  scsiStatus : BitVec 16
  stateFlags : BitVec 16
  /-- The bytes moved so far. -/
  moves : List IspMove
  /-- What the target was given in each phase so far. -/
  given : List (List (BitVec 8))

namespace IspRun

variable (r : IspRun)

/-- A data phase: `bytes` are the target's on DATA IN. -/
def dataPhase (toMemory : Bool) (chunk : Nat) (bytes : List (BitVec 8)) : IspRun :=
  let (addresses, segments, offset, left) := spread chunk r.offset r.segments
  let moved := if toMemory then addresses.zip bytes else addresses.map fun a => (a, r.mem a)
  { r with
    mem := if toMemory then storeAll r.mem moved else r.mem
    segments, offset
    moved := r.moved + BitVec.ofNat 32 addresses.length
    completion := if left ≠ 0 then
        if toMemory then ISP_STATUS_DATA_OVERRUN else ISP_STATUS_COMPLETE
      else r.completion
    stateFlags := r.stateFlags ||| ISP_STATE_XFRD_DATA
    moves := r.moves ++ moved.map fun x => ⟨x.1, x.2, toMemory⟩
    given := r.given ++ [if toMemory then [] else moved.map (·.2) ++ List.replicate left 0] }

/-- The command block with the logical unit in it. -/
def cdbOf (entry : List (BitVec 8)) (cdbLength : Nat) (lun : BitVec 8) : List (BitVec 8) :=
  (((entry.drop 0x14).take cdbLength).set 1
    ((entry.getD 0x15 0 &&& 0x1f) ||| ((lun &&& 7) <<< 5)))

/-- The loop of `execute_entry`, until COMMAND COMPLETE. -/
def phases (cdb : List (BitVec 8)) (lun : BitVec 8) (r : IspRun) : List TargetPhase → IspRun
  | [] => r
  | .command :: rest =>
    phases cdb lun { r with
      stateFlags := r.stateFlags ||| ISP_STATE_SENT_CDB, given := r.given ++ [cdb] } rest
  | .msgOut :: rest => phases cdb lun { r with given := r.given ++ [[0x80 ||| (lun &&& 7)]] } rest
  | .dataIn bytes :: rest => phases cdb lun (r.dataPhase true bytes.length bytes) rest
  | .dataOut count :: rest => phases cdb lun (r.dataPhase false count []) rest
  | .status byte :: rest =>
    phases cdb lun { r with
      scsiStatus := byte.setWidth 16, stateFlags := r.stateFlags ||| ISP_STATE_GOT_STATUS } rest
  | .msgIn bytes :: rest => if bytes.head? = some 0 then r else phases cdb lun r rest

end IspRun

/-- What a command comes to: what is posted, host memory and the bytes moved. -/
structure IspResult where
  outcome : IspOutcome
  mem : Nat → BitVec 8
  moves : List IspMove

/-- `execute_entry` of a SCSI command at `entryAddress`. -/
def executeCommand (m : Nat → BitVec 8) (q : IspRing) (entryAddress : Nat) (target : IspTarget) :
    IspResult :=
  let entry := fetch ispBus m entryAddress entrySize
  let lun := entry.getD 0x08 0
  let length := leNat (fetch ispBus m (entryAddress + 0x0a) 2)
  let cdbLength := if length = 0 ∨ 12 < length then 12 else length
  let segments := gatherSegments m q entryAddress 64
  let wanted : BitVec 32 := BitVec.ofNat 32 (segments.map (·.count)).sum
  match target with
  | .noBus => ⟨⟨ISP_STATUS_BUS_RESET, 0, 0, wanted, []⟩, m, []⟩
  | .absent => ⟨⟨ISP_STATUS_INCOMPLETE, 0, ISP_STATE_GOT_BUS, wanted, []⟩, m, []⟩
  | .selected phases sense =>
    let r := IspRun.phases (IspRun.cdbOf entry cdbLength lun) lun
      { mem := m, segments, offset := 0, moved := 0, completion := ISP_STATUS_COMPLETE
        scsiStatus := 0, stateFlags := ISP_STATE_GOT_BUS ||| ISP_STATE_GOT_TARGET
        moves := [], given := [] } phases
    let completion := if r.moved < wanted ∧ r.completion = ISP_STATUS_COMPLETE ∧
        r.scsiStatus &&& 0xff = 0 then ISP_STATUS_DATA_UNDERRUN
      else r.completion
    ⟨⟨completion, r.scsiStatus, r.stateFlags, wanted - r.moved,
      if r.scsiStatus &&& 0xff = 0x02 then sense.take ISP_RSP_SENSE_MAX else []⟩, r.mem, r.moves⟩

end Alphabox.Pci
