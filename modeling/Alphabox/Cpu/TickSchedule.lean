import Alphabox.Lib.Numerals
import Mathlib.Algebra.Order.Ring.Int

/-!
# A processor's interval-timer schedule (`cpu/TickSchedule.hpp`)

The schedule has the instant the next tick is due at by the count, the instant its spacing is
measured from and the gap after that. Instants and durations are nanoseconds: integers here, of
which none comes near the `2 ^ 63` of the clock (292 years). The counters are 32 bits wide, as in
the source.
-/

namespace Alphabox.Cpu

/-- `TickSchedule`. -/
structure TickSchedule where
  next : Int
  last : Int
  firedDue : Int
  dropped : Int
  gapNs : Nat
  lcg : BitVec 32
  idx : BitVec 32
  fired : BitVec 32
  deriving DecidableEq

namespace TickSchedule

/-- A schedule that has not begun. -/
def new : TickSchedule := ⟨0, 0, 0, 0, 0, 0x9e3779b9, 0, 0⟩

/-- `start`. -/
def start (s : TickSchedule) (now : Int) : TickSchedule :=
  { s with next := now, last := now, gapNs := 0 }

/-- `shift`. -/
def shift (s : TickSchedule) (d : Int) : TickSchedule :=
  { s with next := s.next + d, last := s.last + d, firedDue := s.firedDue + d }

/-- `due`. -/
def due (s : TickSchedule) : Int :=
  let paced := s.last + s.gapNs
  if s.next < paced then paced else s.next

/-- The generator's next value. -/
def nextLcg (s : TickSchedule) : BitVec 32 := s.lcg * 1664525 + 1013904223

/-- `next_gap`: half a period, a triangle wave and noise. -/
def nextGap (s : TickSchedule) (periodNs : Nat) : Nat :=
  let ph := (s.idx + 1).toNat % 277
  let tri := if ph ≤ 138 then ph else 277 - ph
  periodNs / 2 + periodNs * tri / 400 + periodNs * ((s.nextLcg >>> 24) &&& 0x3f).toNat / 1024

/-- How far the instant of the phase's schedule nearest to `t` is from it. -/
def phaseMove (t : Int) (periodNs : Nat) (phaseNs : Int) : Int :=
  let r := (phaseNs - t).tmod periodNs
  let r := if r < 0 then r + periodNs else r
  if r > periodNs / 2 then r - periodNs else r

/-- `nearest`. -/
def nearest (t : Int) (periodNs : Nat) (phaseNs : Int) : Int := t + phaseMove t periodNs phaseNs

/-- A second. -/
def second : Int := 1000000000

/-- The tick of a `poll` that fires with a period set. -/
def fire (s : TickSchedule) (now : Int) (periodNs : Nat) (phaseNs : Int) : TickSchedule :=
  let gap := s.nextGap periodNs
  let next := s.next + periodNs
  let behind := now - next
  let counted := if behind > second then now else next
  { next := if phaseNs ≠ 0 then nearest counted periodNs phaseNs else counted
    last := if now - s.next ≤ (periodNs / 2 : Nat) then s.next else now
    firedDue := s.next
    dropped := if behind > second then behind else 0
    gapNs := if behind > 32 * periodNs then gap / 8 else gap
    lcg := s.nextLcg
    idx := s.idx + 1
    fired := s.fired + 1 }

/-- `poll`. -/
def poll (s : TickSchedule) (now : Int) (periodNs unsetNs : Nat) (phaseNs : Int) :
    TickSchedule × Bool :=
  if now < s.next then (s, false)
  else if periodNs = 0 then
    ({ s with
        firedDue := s.next
        dropped := 0
        last := now
        next := now + unsetNs
        fired := s.fired + 1 }, true)
  else if now - s.last < s.gapNs then (s, false)
  else (s.fire now periodNs phaseNs, true)

end TickSchedule

/-! ## Runs -/

/-- A run of a schedule begun at `t0`: the time, the ticks fired, and the sums of the backlogs its
polls reported dropped and of the shifts. -/
structure TickRun where
  t0 : Int
  sched : TickSchedule
  now : Int
  ticks : Nat
  drops : Int
  shifts : Int

inductive TickOp where
  | poll (now : Int) (unsetNs : Nat) (phaseNs : Int)
  | shift (d : Int)

namespace TickRun

def begin (t0 : Int) : TickRun := ⟨t0, TickSchedule.new.start t0, t0, 0, 0, 0⟩

/-- An operation, the period being `periodNs`. -/
def step (periodNs : Nat) (s : TickRun) : TickOp → TickRun
  | .poll now unsetNs phaseNs =>
    match s.sched.poll now periodNs unsetNs phaseNs with
    | (sched, true) =>
      { s with sched := sched, now := now, ticks := s.ticks + 1, drops := s.drops + sched.dropped }
    | (sched, false) => { s with sched := sched, now := now }
  | .shift d => { s with sched := s.sched.shift d, shifts := s.shifts + d }

/-- Time does not run back. -/
def Forward (s : TickRun) : TickOp → Prop
  | .poll now _ _ => s.now ≤ now
  | .shift _ => True

/-- Processor 0's polls: no phase. -/
def Unphased (s : TickRun) : TickOp → Prop
  | .poll now _ phaseNs => s.now ≤ now ∧ phaseNs = 0
  | .shift _ => True

end TickRun

end Alphabox.Cpu
