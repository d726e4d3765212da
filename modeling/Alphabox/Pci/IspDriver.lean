import Alphabox.Lib.Reach
import Alphabox.Lib.Ring
import Alphabox.Pci.Isp1040

/-!
# A driver of the ISP10x0's queues

The driver fills blocks of the request queue (a command or a marker with its continuations),
announces them, reads mailbox 5 while the semaphore is clear, consumes the responses up to it,
reports how far it has come and issues mailbox commands. `IspHistory` is the adapter and the
driver's own indices, with what has passed between them. `Allowed` is what the driver promises.
-/

namespace Alphabox.Pci

/-- A block of the request queue: an entry, and its continuations in the slots its count names. -/
structure IspBlock where
  head : IspEntry
  rest : List IspEntry
  deriving DecidableEq

namespace IspBlock

def entries (b : IspBlock) : List IspEntry := b.head :: b.rest

structure WellFormed (b : IspBlock) : Prop where
  head : b.head.isCommand = true ∨ b.head.type = ISP_ENTRY_TYPE_MARKER
  count : b.head.slots = b.entries.length
  rest : ∀ e ∈ b.rest, e.type = ISP_ENTRY_TYPE_DATASEG ∨ e.type = ISP_ENTRY_TYPE_A64_CONT

end IspBlock

/-- The adapter, the driver's indices, and what has passed between them. -/
structure IspHistory where
  isp : Isp1040
  /-- Where the driver writes its next block. -/
  prod : Nat
  /-- The next response the driver consumes. -/
  cons : Nat
  /-- Mailbox 5 as the driver last read it. -/
  seen : Nat
  /-- Every block written, in order. -/
  blocks : List IspBlock
  /-- How many of them the driver has announced. -/
  announced : Nat
  /-- How many of them the adapter has taken. -/
  taken : Nat
  /-- Every status entry the adapter has written, in order. -/
  posted : List IspResponse
  /-- Every status entry the driver has consumed, in order. -/
  consumed : List IspResponse
  /-- The queues have moved since the last mailbox command, or that command was issued with
  mailboxes 4 and 5 at the queues' pointers. -/
  fresh : Bool

/-- A step of the driver or of the adapter's thread. -/
inductive IspOp where
  | submit (b : IspBlock)
  | announce (byMailbox : Bool) (outcomes : Nat → IspOutcome)
  | thread (outcomes : Nat → IspOutcome)
  | readIn
  | consume
  | report (byMailbox : Bool)
  | mailbox (n : Fin 8) (value : BitVec 16)
  | command (dma16 : Nat → Nat)
  | sema (value : BitVec 16)
  | clearInt
  | icr (value : BitVec 16)

namespace IspHistory

variable (chip : IspChip) (h : IspHistory)

/-- The blocks announced and not yet taken, in order. -/
def waiting (announced : Nat) : List IspBlock := (h.blocks.take announced).drop h.taken

/-- How many responses the driver has yet to consume. -/
def unread : Nat := h.posted.length - h.consumed.length

/-- A slice was run on what stood announced. -/
def slice (announced : Nat) (r : Isp1040 × List IspResponse) : IspHistory :=
  { h with
    isp := r.1
    announced := announced
    taken := h.taken + min ISP_QUEUE_SLICE (announced - h.taken)
    posted := h.posted ++ r.2
    fresh := h.fresh || decide (h.taken < announced) }

def step : IspOp → IspHistory
  | .submit b =>
    { h with
      isp := { h.isp with
        requests := Lib.Ring.fill h.isp.requestLength h.isp.requests h.prod b.entries }
      prod := (h.prod + b.entries.length) % h.isp.requestLength
      blocks := h.blocks ++ [b] }
  | .announce byMailbox outcomes =>
    let value := BitVec.ofNat 16 h.prod
    h.slice h.blocks.length
      (if byMailbox then h.isp.writeMailbox outcomes 4 value else h.isp.writeReqinp outcomes value)
  | .thread outcomes =>
    if h.isp.queuePending then h.slice h.announced (h.isp.runRequestQueue outcomes) else h
  | .readIn => { h with seen := h.isp.mailboxOut 5 }
  | .consume =>
    if h.cons = h.seen then h
    else
      { h with
        cons := (h.cons + 1) % h.isp.responseLength
        consumed := h.consumed ++ [h.isp.responses h.cons] }
  | .report byMailbox =>
    let value := BitVec.ofNat 16 h.cons
    { h with isp := if byMailbox then (h.isp.writeMailbox (fun _ => ⟨0, 0, 0, 0, []⟩) 5 value).1
      else h.isp.writeRspoutp value }
  | .mailbox n value =>
    { h with isp := (h.isp.writeMailbox (fun _ => ⟨0, 0, 0, 0, []⟩) n value).1 }
  | .command dma16 =>
    { h with
      isp := h.isp.mailboxCommand chip dma16
      fresh := h.isp.mailbox 4 = h.isp.requestOut ∧ h.isp.mailbox 5 = h.isp.responseIn }
  | .sema value => { h with isp := h.isp.writeSema value }
  | .clearInt => { h with isp := h.isp.clearRiscInt }
  | .icr value => { h with isp := h.isp.writeIcr value }

/-- What the driver promises: its blocks are well formed and do not overrun `request_out`, it reads
mailbox 5 with the semaphore clear, writes mailboxes 4 and 5 only to announce and to report, and
its commands leave the queues alone and do not reset the part. -/
def Allowed : IspOp → Prop
  | .submit b =>
    b.WellFormed ∧
      (h.prod + h.isp.requestLength - h.isp.requestOut) % h.isp.requestLength + b.entries.length <
        h.isp.requestLength
  | .readIn => h.isp.semaClear = true
  | .mailbox n _ => n.val ≠ 4 ∧ n.val ≠ 5
  | .command _ => (MboxCommand.commandOf (h.isp.mailbox 0)).setsQueue = false
  | .icr value => value &&& 0x0001 = 0
  | _ => True

/-- The step neither posts into a full response queue nor releases the semaphore on pointers that a
mailbox command has overwritten. -/
def Safe : IspOp → Prop
  | .announce _ _ =>
    h.unread + ((h.waiting h.blocks.length).take ISP_QUEUE_SLICE).countP (·.head.isCommand) ≤
      h.isp.responseLength
  | .thread _ =>
    h.isp.queuePending = true →
      h.unread + ((h.waiting h.announced).take ISP_QUEUE_SLICE).countP (·.head.isCommand) ≤
        h.isp.responseLength
  | .sema value => value &&& ISP_SEMA_LOCK = 0 → h.fresh = true
  | _ => True

/-- Queues that have just been set up: both empty, of at least two slots, with their pointers in
mailboxes 4 and 5 as the two commands left them. -/
structure Initialised (s : Isp1040) : Prop where
  requestLength : 2 ≤ s.requestLength ∧ s.requestLength < 2 ^ 16
  responseLength : 2 ≤ s.responseLength ∧ s.responseLength < 2 ^ 16
  request : s.requestIn = s.requestOut ∧ s.requestOut < s.requestLength
  response : s.responseOut = s.responseIn ∧ s.responseIn < s.responseLength
  pointers : s.mailboxOut 4 = s.requestOut ∧ s.mailboxOut 5 = s.responseIn
  idle : s.queuePending = false

/-- The history before the first step. -/
def start (s : Isp1040) : IspHistory where
  isp := s
  prod := s.requestOut
  cons := s.responseIn
  seen := s.responseIn
  blocks := []
  announced := 0
  taken := 0
  posted := []
  consumed := []
  fresh := true

/-- The histories of initialised queues, by steps allowed where they are taken. -/
def Reachable (ok : IspHistory → IspOp → Prop) : IspHistory → Prop :=
  Lib.Reach (fun h => ∃ s, Initialised s ∧ h = start s) ok (step chip)

end IspHistory

end Alphabox.Pci
