import Alphabox.Jit.EmitA64

/-!
# The choice of pins (`jit/jitengine.cpp`)

The dispatcher samples the blocks it enters and counts the guest registers that their instructions
name. Once a window `pin_decide` asks whether the hottest sixteen registers would cover clearly more
than the set compiled code uses; if so it stages them, and the reclaim that frees all compiled code
installs them. The counts are below 2^64 (`PinInv.use_le`), so they are natural numbers here.
-/

namespace Alphabox.Jit

open Fp Cpu

def kPinSlots : Nat := 16

/-- One dispatch in this many is sampled. -/
def kPinEvery : Nat := 64

/-- Samples between decisions. -/
def kPinWindow : Nat := 4096

def kGainPct : Nat := 8

/-- `pin_defaults`. -/
def pinDefaults : List (Option GReg) :=
  [26, 16, 27, 30, 29, 0, 8, 13, 1, 9, 17, 2, 10, 18, 3, 11].map some

/-- What `pin_count` counts of the registers named. -/
def pinnable (pal : Bool) (r : GReg) : Bool := r != 31 && !(pal && shadowReg r)

/-- `pin_count`: the registers whose counts go up by one. -/
def pinCount (w : Ins) (pal : Bool) : List GReg :=
  let op := opcodeOf w
  let named : List GReg :=
    if (0x08 ≤ op ∧ op ≤ 0x0f) ∨ (0x28 ≤ op ∧ op ≤ 0x2f) ∨ op = 0x1a ∨ op = 0x1b ∨ op = 0x1f then
      [raOf w, rbOf w]
    else if 0x20 ≤ op ∧ op ≤ 0x27 then [rbOf w]
    else if (0x10 ≤ op ∧ op ≤ 0x13) ∨ op = 0x1c then
      if isLit w then [raOf w, rcOf w] else [raOf w, rbOf w, rcOf w]
    else if op = 0x30 ∨ op = 0x34 ∨ 0x38 ≤ op ∨ op = 0x14 ∨ op = 0x19 ∨ op = 0x1d then [raOf w]
    else if op = 0x18 ∧ w &&& 0xffff = 0xc000 then [raOf w]
    else []
  named.filter (pinnable pal)

structure PinState where
  /-- `m_pin_guest`. -/
  guest : List (Option GReg)
  /-- `m_pin_next`. -/
  next : List (Option GReg)
  staged : Bool
  reclaimPending : Bool
  /-- `m_pin_use`. -/
  use : GReg → Nat
  countdown : Nat
  samples : Nat
  /-- Windows since the last change of set. -/
  quiet : BitVec 32
  /-- The pins that each compiled body now alive was compiled for. -/
  bodies : List (List (Option GReg))

/-! ## Decisions -/

/-- R0 to R30. -/
def pinRegs : List GReg := (List.range 31).map (BitVec.ofNat 5)

/-- The accesses that a set of pins covers. -/
def covered (use : GReg → Nat) (pins : List (Option GReg)) : Nat :=
  ((pins.filterMap id).map use).sum

/-- The registers by their counts, the hottest first, with the shadow bank behind the others. -/
def pinOrder (use : GReg → Nat) : List GReg :=
  let order := pinRegs.mergeSort fun x y => decide (use y ≤ use x)
  order.filter (!shadowReg ·) ++ order.filter (shadowReg ·)

def pinTotal (use : GReg → Nat) : Nat := (pinRegs.map use).sum

/-- What the hottest sixteen would cover. -/
def pinBest (use : GReg → Nat) : Nat := (((pinOrder use).take kPinSlots).map use).sum

/-- The hottest sixteen; a register nothing touched stays unpinned. -/
def pinNext (use : GReg → Nat) : List (Option GReg) :=
  ((pinOrder use).take kPinSlots).map fun r => if use r ≠ 0 then some r else none

namespace PinState

variable (s : PinState)

/-- The gain is large enough, and the last change three windows ago. -/
def gains : Bool :=
  pinTotal s.use != 0 && decide (3 ≤ s.quiet) &&
    decide ((pinBest s.use - covered s.use s.guest) * 100 > pinTotal s.use * kGainPct)

/-- `pin_decide`. -/
def pinDecide : PinState :=
  let s := { s with samples := 0, quiet := s.quiet + 1 }
  let s := if s.gains then
      { s with next := pinNext s.use, staged := true, reclaimPending := true, quiet := 0 }
    else s
  { s with use := fun r => s.use r - s.use r / 2 }

/-- `pin_sample_slow`. -/
def pinSampleSlow (tag : Word) (words : List Ins) : PinState :=
  let named := words.flatMap fun w => pinCount w (tag.getLsbD 0)
  let s := { s with
    countdown := kPinEvery
    use := fun r => s.use r + named.count r
    samples := s.samples + 1 }
  if kPinWindow ≤ s.samples then s.pinDecide else s

/-- `pin_sample`, on a block with those words. -/
def pinSample (tag : Word) (words : List Ins) : PinState :=
  let s := { s with countdown := s.countdown - 1 }
  if s.countdown = 0 then s.pinSampleSlow tag words else s

/-- `reclaim_code`: all compiled code goes, and the staged set is the one to compile for. -/
def reclaimCode : PinState :=
  let s := { s with bodies := [] }
  if s.staged then { s with guest := s.next, staged := false } else s

/-- `reclaim_if_pending`. -/
def reclaimIfPending : PinState :=
  if s.reclaimPending then { s with reclaimPending := false }.reclaimCode else s

end PinState

/-! ## Runs -/

inductive PinEvent
  /-- The dispatcher enters a block; `prefix_len` has 32 bits. -/
  | enter (tag : Word) (words : List Ins) (fits : words.length < 2 ^ 32)
  /-- A block is compiled, for the pins as they are. -/
  | compile
  /-- Something else asks for a reclaim. -/
  | request
  /-- A point with no compiled frame alive. -/
  | reclaim

def PinState.start : PinState where
  guest := pinDefaults
  next := []
  staged := false
  reclaimPending := false
  use := fun _ => 0
  countdown := kPinEvery
  samples := 0
  quiet := 0
  bodies := []

def PinState.step (s : PinState) : PinEvent → PinState
  | .enter tag words _ => s.pinSample tag words
  | .compile => { s with bodies := s.guest :: s.bodies }
  | .request => { s with reclaimPending := true }
  | .reclaim => s.reclaimIfPending

def pinRun (events : List PinEvent) : PinState := events.foldl PinState.step PinState.start

end Alphabox.Jit
