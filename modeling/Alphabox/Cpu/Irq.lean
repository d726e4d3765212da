import Alphabox.Lib.Numerals
import Mathlib.Logic.Function.Basic

/-!
# A processor's interrupt lines and its timer checks (`cpu/AlphaCPU.hpp`, `cpu/AlphaCPU.cpp`)

Device threads assert and release the six lines (`irq_h`) and ask for a flush of the page cache
(`request_dpc_flush`); the processor's own thread looks at `check_timers`, honours the request and
counts the delayed lines down (`count_down_irq`). The fields they share are atomics: one access is
one step here, and the accesses of all threads interleave. `eir` is kept as its six bits. The
interrupt itself (`check_int`), the wake-ups and the statistics are left out.
-/

namespace Alphabox.Cpu.Irq

open Function (update)

/-- An external interrupt line. -/
abbrev Line := Fin 6

/-- The atomics. -/
structure IrqState where
  eir : Line → Bool
  irqHTimer : Line → Nat
  checkInt : Bool
  checkTimers : Bool
  dpcFlushReq : Bool

/-! ## The device threads -/

/-- Where a device thread is: before the access named. -/
inductive DevPos where
  | idle
  /-- `irq_h`: the load of `eir` for `active`. -/
  | loadEir (line : Line) (assert : Bool) (delay : Nat)
  /-- The load of the timer for `active`. -/
  | loadTimer (line : Line) (assert : Bool) (delay : Nat)
  | storeTimer (line : Line) (delay : Nat)
  | setTimers (line : Line)
  | orEir (line : Line)
  | setInt (line : Line)
  /-- The load of `eir` of an assert of an active line. -/
  | loadEirAgain (line : Line)
  | andEir (line : Line)
  | cancelTimer (line : Line)
  | clearTimers (line : Line)
  /-- A release's loop: the load of timer `i`. -/
  | scan (line i : Line)
  | scanSet (line i : Line)
  /-- `request_dpc_flush`. -/
  | storeReq
  | setTimersReq
  deriving DecidableEq

namespace DevPos

/-- After a release has looked at timer `i`. -/
def scanned (line i : Line) : DevPos :=
  if h : i.val + 1 < 6 then .scan line ⟨i.val + 1, h⟩ else .idle

/-- `irq_h` once it knows the line is active. -/
def active (line : Line) (assert : Bool) : DevPos :=
  if assert then .loadEirAgain line else .andEir line

/-- `irq_h` once it knows the line is not active. -/
def inactive (line : Line) (assert : Bool) (delay : Nat) : DevPos :=
  if assert then (if delay ≠ 0 then .storeTimer line delay else .orEir line) else .idle

/-- The line and the sense of the `irq_h` in progress. -/
def call : DevPos → Option (Line × Bool)
  | .loadEir l a _ | .loadTimer l a _ => some (l, a)
  | .storeTimer l _ | .setTimers l | .orEir l | .setInt l | .loadEirAgain l => some (l, true)
  | .andEir l | .cancelTimer l | .clearTimers l | .scan l _ | .scanSet l _ => some (l, false)
  | .idle | .storeReq | .setTimersReq => none

/-- The access sets the line's timer. -/
def arms : DevPos → Line → Bool
  | .storeTimer l' _, l => l' == l
  | _, _ => false

end DevPos

/-- The next access of a device thread. -/
def devStep (s : IrqState) : DevPos → IrqState × DevPos
  | .idle => (s, .idle)
  | .loadEir l a delay => (s, if s.eir l then .active l a else .loadTimer l a delay)
  | .loadTimer l a delay =>
    (s, if s.irqHTimer l ≠ 0 then .active l a else .inactive l a delay)
  | .storeTimer l delay => ({ s with irqHTimer := update s.irqHTimer l delay }, .setTimers l)
  | .setTimers _ => ({ s with checkTimers := true }, .idle)
  | .orEir l => ({ s with eir := update s.eir l true }, .setInt l)
  | .setInt _ => ({ s with checkInt := true }, .idle)
  | .loadEirAgain l => (s, if s.eir l then .setInt l else .idle)
  | .andEir l => ({ s with eir := update s.eir l false }, .cancelTimer l)
  | .cancelTimer l => ({ s with irqHTimer := update s.irqHTimer l 0 }, .clearTimers l)
  | .clearTimers l => ({ s with checkTimers := false }, .scan l 0)
  | .scan l i => (s, if s.irqHTimer i ≠ 0 then .scanSet l i else .scanned l i)
  | .scanSet l i => ({ s with checkTimers := true }, .scanned l i)
  | .storeReq => ({ s with dpcFlushReq := true }, .setTimersReq)
  | .setTimersReq => ({ s with checkTimers := true }, .idle)

/-! ## The processor -/

/-- What follows `honour_dpc_flush_request`: `execute` counts the lines down by `step`, a QUIESCE
looks for a delayed line, a barrier does nothing more. -/
inductive Work where
  | countDown (step : Nat)
  | look
  | nothing
  deriving DecidableEq

/-- Where the processor's thread is: before the access named. -/
inductive CpuPos where
  | idle
  | clearTimers (w : Work)
  /-- `honour_dpc_flush_request`: the exchange of the request. -/
  | honour (w : Work)
  /-- The flush, the request being taken. -/
  | flush (w : Work)
  /-- `count_down_irq`: the load of the timer. -/
  | load (line : Line) (step : Nat)
  /-- The compare and exchange, the timer having been `t`. -/
  | swap (line : Line) (step t : Nat)
  | orEir (line : Line) (step : Nat)
  | setInt (line : Line) (step : Nat)
  | setTimers (line : Line) (step : Nat)
  /-- A QUIESCE's load of a timer. -/
  | look (line : Line) (delayed : Bool)
  | lookSet
  deriving DecidableEq

namespace CpuPos

/-- After `count_down_irq` of a line. -/
def counted (line : Line) (step : Nat) : CpuPos :=
  if h : line.val + 1 < 6 then .load ⟨line.val + 1, h⟩ step else .idle

/-- `count_down_irq`'s loop with `t` read from the timer. -/
def loop (line : Line) (step t : Nat) : CpuPos :=
  if t ≠ 0 then .swap line step t else .counted line step

/-- After a QUIESCE has looked at a timer. -/
def looked (line : Line) (delayed : Bool) : CpuPos :=
  if h : line.val + 1 < 6 then .look ⟨line.val + 1, h⟩ delayed
  else if delayed then .lookSet else .idle

def start : Work → CpuPos
  | .countDown step => .load 0 step
  | .look => .look 0 false
  | .nothing => .idle

/-- The processor has won the exchange to zero and is about to raise the line. -/
def raising : CpuPos → Line → Bool
  | .orEir l' _, l => l' == l
  | _, _ => false

/-- The processor is about to flush. -/
def flushing : CpuPos → Bool
  | .flush _ => true
  | _ => false

end CpuPos

/-- The next access of the processor. `spurious`: a weak exchange may fail for no reason. -/
def cpuStep (s : IrqState) (spurious : Bool) : CpuPos → IrqState × CpuPos
  | .idle => (s, .idle)
  | .clearTimers w => ({ s with checkTimers := false }, .honour w)
  | .honour w => ({ s with dpcFlushReq := false }, if s.dpcFlushReq then .flush w else .start w)
  | .flush w => (s, .start w)
  | .load l step => (s, .loop l step (s.irqHTimer l))
  | .swap l step t =>
    let next := if t ≤ step then 0 else t - step
    if s.irqHTimer l = t ∧ spurious = false then
      ({ s with irqHTimer := update s.irqHTimer l next },
        if next = 0 then .orEir l step else .setTimers l step)
    else (s, .loop l step (s.irqHTimer l))
  | .orEir l step => ({ s with eir := update s.eir l true }, .setInt l step)
  | .setInt l step => ({ s with checkInt := true }, .counted l step)
  | .setTimers l step => ({ s with checkTimers := true }, .counted l step)
  | .look l delayed => (s, .looked l (delayed || decide (s.irqHTimer l ≠ 0)))
  | .lookSet => ({ s with checkTimers := true }, .idle)

/-! ## Runs -/

/-- A run: the atomics, the threads, and what has happened so far: for each line whether a release
of it has returned with no assert begun since, and how often its timer was set, raised the line and
was cancelled; and how often the page cache was flushed. -/
structure IrqRun (n : Nat) where
  cpu : IrqState
  pos : CpuPos
  dev : Fin n → DevPos
  released : Line → Bool
  armed : Line → Nat
  raised : Line → Nat
  cancelled : Line → Nat
  flushes : Nat

/-- The calls and accesses. -/
inductive IrqOp (n : Nat) where
  /-- Device thread `d` calls `irq_h`. -/
  | irqH (d : Fin n) (line : Line) (assert : Bool) (delay : Nat)
  /-- Device thread `d` calls `request_dpc_flush`. -/
  | requestDpcFlush (d : Fin n)
  | dev (d : Fin n)
  /-- `execute` looks at `check_timers`. -/
  | execute (step : Nat)
  /-- A QUIESCE looks at `check_timers`. -/
  | quiesce
  /-- `honour_at_mb`. -/
  | honourAtMb
  | cpu (spurious : Bool)

namespace IrqRun

variable {n : Nat}

/-- A device thread's access, with what it does to the counts. -/
def devAccess (s : IrqRun n) (d : Fin n) : IrqRun n :=
  let p := s.dev d
  let r := devStep s.cpu p
  { s with
    cpu := r.1
    dev := update s.dev d r.2
    released := fun l => s.released l || decide (p.call = some (l, false) ∧ r.2 = .idle)
    armed := fun l => s.armed l + (p.arms l).toNat
    cancelled := fun l =>
      s.cancelled l + (decide (p = .cancelTimer l ∧ s.cpu.irqHTimer l ≠ 0)).toNat }

/-- The processor's access, with what it does to the counts. -/
def cpuAccess (s : IrqRun n) (spurious : Bool) : IrqRun n :=
  let r := cpuStep s.cpu spurious s.pos
  { s with
    cpu := r.1
    pos := r.2
    raised := fun l => s.raised l + (s.pos.raising l).toNat
    flushes := s.flushes + s.pos.flushing.toNat }

def step (s : IrqRun n) : IrqOp n → IrqRun n
  | .irqH d l a delay =>
    if s.dev d = .idle then
      { s with
        dev := update s.dev d (.loadEir l a delay)
        released := if a then update s.released l false else s.released }
    else s
  | .requestDpcFlush d =>
    if s.dev d = .idle then { s with dev := update s.dev d .storeReq } else s
  | .dev d => s.devAccess d
  | .execute step =>
    if s.pos = .idle ∧ s.cpu.checkTimers then { s with pos := .clearTimers (.countDown step) }
    else s
  | .quiesce =>
    if s.pos = .idle ∧ s.cpu.checkTimers then { s with pos := .clearTimers .look } else s
  | .honourAtMb => if s.pos = .idle then { s with pos := .honour .nothing } else s
  | .cpu spurious => s.cpuAccess spurious

/-- At power-up no line is asserted, nothing is asked for, and no thread is in a call. -/
structure Start (s : IrqRun n) : Prop where
  eir : ∀ l, s.cpu.eir l = false
  irqHTimer : ∀ l, s.cpu.irqHTimer l = 0
  dpcFlushReq : s.cpu.dpcFlushReq = false
  pos : s.pos = .idle
  dev : ∀ d, s.dev d = .idle
  released : ∀ l, s.released l = false
  armed : ∀ l, s.armed l = 0
  raised : ∀ l, s.raised l = 0
  cancelled : ∀ l, s.cancelled l = 0

end IrqRun

end Alphabox.Cpu.Irq
