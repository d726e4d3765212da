import Alphabox.Cpu.TickSchedule

/-!
# The cycle counter (`cpu/AlphaCPU.hpp`, `cpu/TickSchedule.hpp`)

The counter follows the host's clock at the processor's speed, in 32.32 fixed point, within the
bound its interval timer sets after each tick. The host's ticks and the counter are 64 bits wide;
ticks are only compared and subtracted where the result is not negative, so their width does not
show, and a product or sum that could wrap is taken modulo `2 ^ 64`.
-/

namespace Alphabox.Cpu

/-- The counter's part of a processor. `lag` and `lim` bound what it may be billed up to. -/
structure CycleCounter where
  lastSync : Nat
  cyclesPerTickQ32 : Nat
  tickHz : Nat
  wallRemainder : Nat
  lastRead : Nat
  borrow : Nat
  lag : Nat
  lim : Nat
  cc : Nat
  ccEna : Bool
  ccOffset : BitVec 32
  deriving DecidableEq

/-- `cc_cycles_per_tick_q32` as `init` settles it. -/
def cyclesPerTick (cpuHz tickHz : Nat) : Nat := cpuHz * 2 ^ 32 / (if tickHz = 0 then 1 else tickHz)

/-- Nanoseconds as host ticks: where the host's counter is not read directly, ticks are
nanoseconds. -/
def nsToHostTicks (hz ns : Nat) : Nat := if hz = 1000000000 then ns else ns * hz / 1000000000

namespace CycleCounter

/-- No bound, `~0`. -/
def unlimited : Nat := 2 ^ 64 - 1

/-- `cc_bound_reset`. -/
def boundReset (c : CycleCounter) : CycleCounter := { c with lag := 0, lim := unlimited }

/-- `cc_billable`. -/
def billable (c : CycleCounter) (now : Nat) : Nat :=
  let at_ := if c.lag ≤ now then now - c.lag else 0
  if at_ < c.lim then at_ else c.lim

/-- Where a sync at `now` bills from: a position the clock is behind of is given up. -/
def billFrom (c : CycleCounter) (now : Nat) : Nat := if now < c.lastSync then now else c.lastSync

/-- Where it bills to. -/
def billTo (c : CycleCounter) (now : Nat) : Nat :=
  if c.billable now < c.billFrom now then c.billFrom now else c.billable now

/-- The host ticks it bills: a second's at most. -/
def billed (c : CycleCounter) (now : Nat) : Nat :=
  let delta := c.billTo now - c.billFrom now
  if c.tickHz < delta then c.tickHz else delta

/-- The cycles of so many host ticks, with the remainder carried. -/
def scaled (c : CycleCounter) (delta : Nat) : Nat :=
  (delta * c.cyclesPerTickQ32 % 2 ^ 64 + c.wallRemainder) % 2 ^ 64

/-- `sync_cc_wallclock`. -/
def sync (c : CycleCounter) (now : Nat) : CycleCounter :=
  let scaled := c.scaled (c.billed now)
  let c := { c with lastSync := c.billTo now }
  if c.ccEna then
    let add := scaled / 2 ^ 32
    let repay := if c.borrow < add then c.borrow else add
    { c with
      wallRemainder := scaled % 2 ^ 32
      borrow := c.borrow - repay
      cc := (c.cc + (add - repay)) % 2 ^ 64 }
  else c

/-- The floor of `rpcc_read`: a count not past the last one read is lent the cycles it lacks. -/
def floorRead (c : CycleCounter) : CycleCounter :=
  let c :=
    if c.ccEna = true ∧ c.cc ≤ c.lastRead then
      { c with
        borrow := (c.borrow + (c.lastRead + 1 - c.cc)) % 2 ^ 64
        cc := (c.lastRead + 1) % 2 ^ 64 }
    else c
  { c with lastRead := c.cc }

/-- `rpcc_read`. -/
def rpccRead (c : CycleCounter) (now : Nat) : BitVec 64 × CycleCounter :=
  let c := (c.sync now).floorRead
  (c.ccOffset.setWidth 64 <<< 32 ||| (BitVec.ofNat 64 c.cc &&& 0xffffffff), c)

end CycleCounter

/-! ## The bound -/

/-- `CcBound`. -/
structure CcBound where
  lag : Int
  limit : Int
  skip : Int
  bounded : Bool
  deriving DecidableEq

/-- `cc_bound_after_tick` of the schedule, after a tick fired at `now`. -/
def ccBoundAfterTick (s : TickSchedule) (now : Int) (periodNs : Nat) (present : Bool) : CcBound :=
  if periodNs = 0 then ⟨0, 0, 0, false⟩
  else
    let margin : Int := (periodNs / 4 : Nat)
    let late := now - s.firedDue
    { lag := if margin < late ∧ present = false then late - margin else 0
      limit := s.next + margin
      skip := s.dropped
      bounded := true }

/-- `CAlphaCPU::cc_bound_after_tick`: the bound in host ticks, `t` being the host's counter at
`now`. -/
def CycleCounter.setBound (c : CycleCounter) (b : CcBound) (now : Int) (t : Nat) : CycleCounter :=
  if b.bounded = false then c.boundReset
  else
    let toLimit := b.limit - now
    let c := { c with
      lim := if 0 ≤ toLimit then t + nsToHostTicks c.tickHz toLimit.toNat
        else t - nsToHostTicks c.tickHz (-toLimit).toNat
      lag := nsToHostTicks c.tickHz b.lag.toNat }
    if 0 < b.skip then { c with lastSync := c.lastSync + nsToHostTicks c.tickHz b.skip.toNat } else c

/-! ## Reads and syncs in any order -/

/-- The counter with an account of the Q32 cycles its syncs have billed and the counts its reads
have left, the last first. -/
structure CcRun where
  counter : CycleCounter
  billedQ32 : Nat
  reads : List Nat

inductive CcOp where
  | sync (now : Nat)
  | read (now : Nat)
  | bound (lag lim : Nat)

namespace CcRun

/-- The account of a sync. -/
def bill (s : CcRun) (now : Nat) : Nat :=
  s.billedQ32 + s.counter.billed now * s.counter.cyclesPerTickQ32

def step (s : CcRun) : CcOp → CcRun
  | .sync now => { s with counter := s.counter.sync now, billedQ32 := s.bill now }
  | .read now =>
    let c := (s.counter.rpccRead now).2
    { counter := c, billedQ32 := s.bill now, reads := c.cc :: s.reads }
  | .bound lag lim => { s with counter := { s.counter with lag := lag, lim := lim } }

/-- A counter that has been set up, enabled, at a speed below `2 ^ 32`, and not read yet. -/
structure Start (cpuHz : Nat) (s : CcRun) : Prop where
  speed : cpuHz < 2 ^ 32
  tickHz : 0 < s.counter.tickHz
  cycles : s.counter.cyclesPerTickQ32 = cyclesPerTick cpuHz s.counter.tickHz
  ena : s.counter.ccEna = true
  remainder : s.counter.wallRemainder = 0
  borrow : s.counter.borrow = 0
  lastRead : s.counter.lastRead ≤ s.counter.cc
  cc : s.counter.cc < 2 ^ 64
  billed : s.billedQ32 = 0
  reads : s.reads = []

end CcRun

/-! ## The counter beside its interval timer -/

/-- A processor's schedule with its counter; the log has the due instant of each tick, and where
the counter stood when read at once after it, the last first. -/
structure CcTickRun where
  sched : TickSchedule
  counter : CycleCounter
  now : Int
  log : List (Int × Int)

inductive CcTickOp where
  | poll (now : Int) (phaseNs : Int)
  | sync (now : Int)

namespace CcTickRun

/-- What `interval_timer_poll` does when the schedule has fired: it sets the bound. -/
def tick (s : CcTickRun) (sched : TickSchedule) (now : Int) (periodNs : Nat) : CcTickRun :=
  let c := s.counter.setBound (ccBoundAfterTick sched now periodNs false) now now.toNat
  { sched, counter := c
    now := now
    log := (sched.firedDue, ((c.sync now.toNat).lastSync : Int)) :: s.log }

def step (periodNs : Nat) (s : CcTickRun) : CcTickOp → CcTickRun
  | .poll now phaseNs =>
    match s.sched.poll now periodNs 0 phaseNs with
    | (sched, true) => s.tick sched now periodNs
    | (sched, false) => { s with sched := sched, now := now }
  | .sync now => { s with counter := s.counter.sync now.toNat, now := now }

/-- Time does not run back, no tick drops a backlog, and the counter is read once its bound is
set. -/
def Ok (periodNs : Nat) (s : CcTickRun) : CcTickOp → Prop
  | .poll now phaseNs => s.now ≤ now ∧ (s.sched.poll now periodNs 0 phaseNs).1.dropped = 0
  | .sync now => s.now ≤ now ∧ s.log ≠ []

/-- A processor as its thread starts it: the host's clock is not negative and its ticks are
nanoseconds. -/
structure Start (s : CcTickRun) : Prop where
  clock : 0 ≤ s.now
  sched : s.sched = TickSchedule.new.start s.now
  lastSync : s.counter.lastSync = s.now.toNat
  tickHz : s.counter.tickHz = 1000000000
  log : s.log = []

end CcTickRun

end Alphabox.Cpu
