import Alphabox.Lib.Numerals
import Mathlib.Data.Finset.Sort
import Mathlib.Logic.Function.Basic

/-!
# The debugger's run control (`debug/DebugTarget.cpp`)

The processors run on their own threads and stop themselves: while a debugger is attached, the
dispatcher calls `boundary` before it runs on, and that is where a processor parks, takes a single
step, reports a breakpoint or learns how far it may run. Every section under the mutex and every
access to an atomic is one step here. The clock a parked processor is given back, its I-cache flush
and the wake-ups are left out: a parked processor looks again at any time.

Instruction addresses are natural numbers below `2 ^ 64`, multiples of 4 (`pc & ~3`). The two
generations do not wrap.
-/

namespace Alphabox.Debug

open Function (update)

/-- `Action`: what a resumed processor does. -/
inductive Action where
  | Stay
  | Continue
  | Step
  deriving DecidableEq

/-- `StopInfo`: why the machine stopped. -/
structure StopInfo where
  cpu : Nat
  signal : Nat
  swbreak : Bool

/-- `kSigTrap`. -/
def kSigTrap : Nat := 5

/-- `INT_MAX`. -/
def INT_MAX : Nat := 2 ^ 31 - 1

/-- An address in the instruction stream. -/
def align (a : Nat) : Nat := a % 2 ^ 64 / 4 * 4

/-- Where a processor's thread is. -/
inductive Pos where
  /-- `wait_for_start`: the console has not started it. -/
  | unstarted
  /-- In the dispatcher, before it loads `m_debug_on`. -/
  | dispatch
  /-- Running with no debugger. -/
  | free
  /-- In `boundary`, before it loads `m_bp_gen`. -/
  | loadGen
  /-- Before it copies the breakpoints. -/
  | copyBps
  /-- Before it loads `m_stop_req`. -/
  | loadStop
  /-- Before it looks for a breakpoint at the PC. -/
  | check
  /-- At a breakpoint, before the section that reports it. -/
  | report
  /-- In `park`, before its section. -/
  | park
  /-- Parked. -/
  | parkWait
  /-- Let go by `park`. -/
  | released (act : Action)
  /-- After `step_one`, before `request_stop`. -/
  | stepped
  /-- Out of `boundary`, with `span` instructions to run. -/
  | run (span : Nat)
  deriving DecidableEq

/-- `Cpu`, with the processor's PC, its `m_debug_on` and where its thread is. -/
structure Cpu where
  pos : Pos
  pc : Nat
  debugOn : Bool
  parked : Bool
  seenGen : Nat
  action : Action
  reportedBp : Option Nat
  bpHits : Nat
  bpGen : Option Nat
  /-- Sorted. -/
  bps : List Nat
  skipPc : Option Nat

namespace Cpu

/-- `has_bp`. -/
def hasBp (k : Cpu) (pc : Nat) : Bool := k.bps.contains pc

/-- `next_bp`. -/
def nextBp (k : Cpu) (pc : Nat) : Option Nat := k.bps.find? fun b => decide (pc < b)

/-- How many instructions `boundary` lets run from the PC. -/
def span (k : Cpu) : Nat :=
  match k.nextBp k.pc with
  | none => INT_MAX
  | some nb => min ((nb - k.pc) / 4) INT_MAX

end Cpu

/-- `CDebugTarget`. -/
structure DebugTarget (n : Nat) where
  cpus : Fin n → Cpu
  stopReq : Bool
  stop : StopInfo
  runGen : Nat
  bps : Finset Nat
  bpGen : Nat

namespace DebugTarget

variable {n : Nat}

def setCpu (t : DebugTarget n) (i : Fin n) (k : Cpu) : DebugTarget n :=
  { t with cpus := update t.cpus i k }

/-! ## The debugger's side -/

/-- `request_stop`. -/
def requestStop (t : DebugTarget n) (cpu signal : Nat) (swbreak : Bool) : DebugTarget n :=
  if t.stopReq then t else { t with stopReq := true, stop := ⟨cpu, signal, swbreak⟩ }

/-- `detach`. -/
def detach (t : DebugTarget n) : DebugTarget n :=
  { t with
    bps := ∅
    bpGen := t.bpGen + 1
    cpus := fun i => { t.cpus i with debugOn := false, action := .Continue, reportedBp := none }
    stopReq := false
    runGen := t.runGen + 1 }

/-- `quiescent`. -/
def quiescent (t : DebugTarget n) (k : Cpu) : Bool :=
  k.parked && (k.seenGen == t.runGen || k.action == .Stay) || k.pos == .unstarted

/-- `stopped`. -/
def stopped (t : DebugTarget n) : Bool :=
  t.stopReq && (List.finRange n).all fun i => t.quiescent (t.cpus i)

/-- The action `resume` gives a processor. -/
def actionOf (actions : List Action) (i : Fin n) : Action := actions[i.val]?.getD .Continue

/-- The last processor asked for a step that it cannot take. -/
def unstartable (t : DebugTarget n) (actions : List Action) : Option (Fin n) :=
  ((List.finRange n).filter fun i =>
    actionOf actions i == .Step && !(t.cpus i).parked).getLast?

/-- `resume`. -/
def resume (t : DebugTarget n) (actions : List Action) : DebugTarget n :=
  let t' := { t with
    cpus := fun i => { t.cpus i with action := actionOf actions i }
    runGen := t.runGen + 1 }
  match t.unstartable actions with
  | some i => { t' with stop := ⟨i.val, kSigTrap, false⟩ }
  | none => { t' with stopReq := false }

/-- `set_breakpoint`. -/
def setBreakpoint (t : DebugTarget n) (addr : Nat) (on : Bool) : DebugTarget n :=
  { t with
    bps := if on then insert (align addr) t.bps else t.bps.erase (align addr)
    bpGen := t.bpGen + 1 }

/-! ## The processors' side -/

/-- `boundary` at the PC: a breakpoint that is not to be skipped is reported, else the processor
may run. -/
def checkBp (k : Cpu) : Cpu :=
  if k.hasBp k.pc ∧ k.skipPc ≠ some k.pc then { k with pos := .report }
  else { k with skipPc := none, pos := .run k.span }

/-- The section that reports a breakpoint: only the hit that stops the machine. -/
def reportBp (t : DebugTarget n) (i : Fin n) : DebugTarget n :=
  let k := t.cpus i
  if t.stopReq then t.setCpu i { k with pos := .loadGen }
  else
    { t.setCpu i { k with reportedBp := some k.pc, bpHits := k.bpHits + 1, pos := .loadGen } with
      stopReq := true
      stop := ⟨i.val, kSigTrap, true⟩ }

/-- A turn of `park`'s loop: a new generation lets the processor go unless it is to stay. -/
def parkTurn (t : DebugTarget n) (k : Cpu) : Cpu :=
  if k.seenGen = t.runGen then k
  else if k.action = .Stay then { k with seenGen := t.runGen }
  else
    { k with
      parked := false
      seenGen := t.runGen
      skipPc := if k.reportedBp = some k.pc then k.reportedBp else none
      reportedBp := none
      pos := .released k.action }

/-- The next section or atomic access of a processor in the dispatcher, `boundary` or `park`. -/
def cpuStep (t : DebugTarget n) (i : Fin n) : DebugTarget n :=
  let k := t.cpus i
  match k.pos with
  | .dispatch => t.setCpu i { k with pos := if k.debugOn then .loadGen else .free }
  | .loadGen => t.setCpu i { k with pos := if k.bpGen = some t.bpGen then .loadStop else .copyBps }
  | .copyBps => t.setCpu i { k with bps := t.bps.sort, bpGen := some t.bpGen, pos := .loadStop }
  | .loadStop => t.setCpu i { k with pos := if t.stopReq then .park else .check }
  | .check => t.setCpu i (checkBp k)
  | .report => t.reportBp i
  | .park => t.setCpu i { k with parked := true, seenGen := t.runGen, pos := .parkWait }
  | .parkWait => t.setCpu i (t.parkTurn k)
  | .released .Step => t
  | .released _ => t.setCpu i { k with pos := .loadGen }
  | .stepped => (t.requestStop i.val kSigTrap false).setCpu i { k with pos := .loadGen }
  | .unstarted | .free | .run _ => t

/-- A processor that may execute the instruction at its PC. -/
def executes : Pos → Bool
  | .free | .released .Step | .run (_ + 1) => true
  | _ => false

/-- Where an executing processor is afterwards; a transfer ends what it may run. -/
def afterExec (target : Option Nat) : Pos → Pos
  | .released .Step => .stepped
  | .run (m + 1) => if target.isSome then .run 0 else .run m
  | p => p

/-- The console's code starts a processor. -/
def start (t : DebugTarget n) (j : Fin n) : DebugTarget n :=
  if (t.cpus j).pos = .unstarted then t.setCpu j { t.cpus j with pos := .dispatch } else t

/-- Processor `i` executes an instruction: the next one follows, or the one at `target`; it may
start another processor. -/
def exec (t : DebugTarget n) (i : Fin n) (target : Option Nat) (starts : Option (Fin n)) :
    DebugTarget n :=
  let k := t.cpus i
  let t := t.setCpu i { k with
    pc := match target with
      | some a => align a
      | none => (k.pc + 4) % 2 ^ 64
    pos := afterExec target k.pos }
  match starts with
  | some j => t.start j
  | none => t

/-- A processor comes back from what it ran: to `boundary` at once (`interp_run`) or to the
dispatcher. -/
def leave (t : DebugTarget n) (i : Fin n) (again : Bool) : DebugTarget n :=
  match (t.cpus i).pos with
  | .run _ => t.setCpu i { t.cpus i with pos := if again then .loadGen else .dispatch }
  | .free => t.setCpu i { t.cpus i with pos := .dispatch }
  | _ => t

end DebugTarget

/-! ## Runs -/

/-- The debugger's thread: between calls, or in `attach` with the processors before `k` watched. -/
inductive DbgPos where
  | idle
  | attaching (k : Nat) (stop : Bool)

/-- A run: the target, the debugger's thread, whether an `attach` has finished with no `detach`
since, whether `stopped` has returned true with no `resume` or `detach` since, whether the last call
but `stopped` was a `detach`, and for each processor the breakpoint it has reported at the PC it is
still at. -/
structure DebugRun (n : Nat) where
  t : DebugTarget n
  dbg : DbgPos
  attached : Bool
  halted : Bool
  detached : Bool
  arrived : Fin n → Option Nat

/-- The processors' steps and the debugger's calls. -/
inductive DebugOp (n : Nat) where
  | cpu (i : Fin n)
  | exec (i : Fin n) (target : Option Nat) (starts : Option (Fin n))
  | leave (i : Fin n) (again : Bool)
  | attach (stop : Bool)
  /-- The next step of `attach`. -/
  | attachNext
  | requestStop (cpu signal : Nat)
  | stopped
  | setBreakpoint (addr : Nat) (on : Bool)
  | resume (actions : List Action)
  | detach

namespace DebugRun

variable {n : Nat}

/-- The next step of `attach`: another processor is watched, or the stop is asked for. -/
def attachNext (s : DebugRun n) : DebugRun n :=
  match s.dbg with
  | .idle => s
  | .attaching k stop =>
    if h : k < n then
      { s with
        t := s.t.setCpu ⟨k, h⟩ { s.t.cpus ⟨k, h⟩ with debugOn := true }
        dbg := .attaching (k + 1) stop }
    else
      { s with
        t := if stop then s.t.requestStop 0 kSigTrap false else s.t
        dbg := .idle
        attached := true }

/-- A call of the debugger's thread. -/
def call (s : DebugRun n) : DebugOp n → DebugRun n
  | .attach stop => { s with dbg := .attaching 0 stop, detached := false }
  | .requestStop cpu signal => { s with t := s.t.requestStop cpu signal false }
  | .stopped => if s.t.stopped then { s with halted := true } else s
  | .setBreakpoint addr on => { s with t := s.t.setBreakpoint addr on }
  | .resume actions => { s with t := s.t.resume actions, halted := false, detached := false }
  | .detach => { s with t := s.t.detach, halted := false, attached := false, detached := true }
  | _ => s

def step (s : DebugRun n) (op : DebugOp n) : DebugRun n :=
  match op with
  | .cpu i =>
    { s with
      t := s.t.cpuStep i
      arrived :=
        if (s.t.cpus i).pos = .report ∧ s.t.stopReq = false then
          update s.arrived i (some (s.t.cpus i).pc)
        else s.arrived }
  | .exec i target starts =>
    if DebugTarget.executes (s.t.cpus i).pos then
      { s with t := s.t.exec i target starts, arrived := update s.arrived i none }
    else s
  | .leave i again => { s with t := s.t.leave i again }
  | .attachNext => s.attachNext
  | op =>
    match s.dbg with
    | .idle => s.call op
    | .attaching .. => s

/-- At power-up no debugger is attached, and no processor has run. -/
structure Start (s : DebugRun n) : Prop where
  dbg : s.dbg = .idle
  attached : s.attached = false
  halted : s.halted = false
  detached : s.detached = false
  arrived : ∀ i, s.arrived i = none
  stopReq : s.t.stopReq = false
  bps : s.t.bps = ∅
  cpu : ∀ i, ((s.t.cpus i).pos = .unstarted ∨ (s.t.cpus i).pos = .dispatch) ∧
    (s.t.cpus i).debugOn = false ∧ (s.t.cpus i).parked = false ∧
    (s.t.cpus i).seenGen = s.t.runGen ∧ (s.t.cpus i).action = .Continue ∧
    (s.t.cpus i).reportedBp = none ∧ (s.t.cpus i).bpGen = none ∧ (s.t.cpus i).bps = [] ∧
    (s.t.cpus i).skipPc = none ∧ (s.t.cpus i).pc = align (s.t.cpus i).pc

/-- The debugger asks for a stop only while attached, and changes breakpoints and resumes only
while stopped. -/
def CallOk (s : DebugRun n) : DebugOp n → Prop
  | .requestStop .. => s.attached = true
  | .setBreakpoint .. => s.halted = true
  | .resume _ => s.halted = true
  | _ => True

end DebugRun

end Alphabox.Debug
