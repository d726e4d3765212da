import Alphabox.Lib.Numerals
import Mathlib.Data.List.Basic

/-!
# The 8254 interval timer (`devices/isa/I8254.cpp`)

Three counters on a clock in nanoseconds. A running counter's count and OUT are those of the time
since its phase reference (`PitCounter.epoch`); `I8254.clock` steps words of its own, which are also
what a suspended counter is held in (`PitWords.phase` is the place that they give). A status byte,
a latch word and an initial count's word are taken by their fields, a time of 64 bits is a number
below `U64`. Every entry runs under the timer's lock with one reading of the clock, `now`.
-/

namespace Alphabox.Isa

def PIT_CLOCK_HZ : Nat := 1193182

/-- 2^64. -/
def U64 : Nat := 18446744073709551616

/-- A difference of two 64-bit words. -/
def sub64 (a b : Nat) : Nat := (a + (U64 - b % U64)) % U64

/-- `clocks_between`: input clocks from one time to another. -/
def clocksBetween (t0 t1 : Nat) : Nat :=
  if t1 ≤ t0 then 0
  else
    let ns := t1 - t0
    ns / 1000000000 * PIT_CLOCK_HZ + ns % 1000000000 * PIT_CLOCK_HZ / 1000000000

/-- `ns_for_clocks`. -/
def nsForClocks (clocks : Nat) : Nat :=
  clocks / PIT_CLOCK_HZ * 1000000000 + clocks % PIT_CLOCK_HZ * 1000000000 / PIT_CLOCK_HZ

/-- `to_bcd`. -/
def toBcd (v : Nat) : Nat :=
  let v := v % 10000
  v / 1000 * 4096 + v / 100 % 10 * 256 + v / 10 % 10 * 16 + v % 10

/-- `from_bcd`. -/
def fromBcd (v : Nat) : Nat :=
  v / 4096 % 16 * 1000 + v / 256 % 16 * 100 + v / 16 % 16 * 10 + v % 16

/-- The largest count, 10^4 in BCD and 2^16 otherwise: a counter counts modulo it. -/
def largest (bcd : Bool) : Nat := if bcd then 10000 else 0x10000

/-- `wrap`: `count` less `clocks`. -/
def wrap (bcd : Bool) (count clocks : Nat) : Nat :=
  let m := largest bcd
  (count % m + m - clocks % m) % m

/-- The latch word: a latched count, the flag that its LSB has been read, a latched status. -/
structure PitLatch where
  count : Nat
  valid : Bool
  highNext : Bool
  status : Option (BitVec 8)
  deriving DecidableEq

def PitLatch.none : PitLatch := ⟨0, false, false, .none⟩

/-- A counter's words in `SPit_state`. -/
structure PitWords where
  /-- `counter[c]`: the count as `clock` decrements it. -/
  counter : Nat
  latch : PitLatch
  /-- `initial(c)`, and the LSB that waits above it for its MSB. -/
  initial : Nat
  lsb : Nat
  /-- The status byte: `<5:4>`, `<3:1>`, `<0>`, NULL COUNT and OUT. -/
  access : Nat
  mode : Nat
  bcd : Bool
  null : Bool
  out : Bool
  /-- `mode[c]`: the write sequencing. -/
  seq : Nat
  deriving DecidableEq

/-- A counter: its words, and what is not in the state file. -/
structure PitCounter extends PitWords where
  gate : Bool
  epoch : Nat
  /-- A count that waits for the end of the cycle (0: none). -/
  nextN : Nat
  nextAt : Nat
  nextEpoch : Nat
  deriving DecidableEq

namespace PitCounter

/-- `settle_locked`: a waiting count is loaded once its time has come. -/
def settle (c : PitCounter) (now : Nat) : PitCounter :=
  if c.nextN = 0 ∨ now < c.nextAt then c
  else { c with initial := c.nextN, epoch := c.nextEpoch, nextN := 0 }

/-- `count_now_locked`. -/
def countNow (c : PitCounter) (now : Nat) : PitCounter × Nat :=
  let c := c.settle now
  let n := c.initial
  let clocks := clocksBetween c.epoch now
  let count :=
    if c.null = false ∧ n ≠ 0 ∧ c.gate = true then
      if c.mode = 0 then wrap c.bcd n clocks
      else if c.mode = 2 then n - clocks % n
      else if c.mode = 3 then (n - clocks * 2 % n) / 2 * 2
      else c.counter
    else c.counter
  (c, if c.bcd then toBcd count else count % 0x10000)

/-- `out_locked`. -/
def outNow (c : PitCounter) (now : Nat) : PitCounter × Bool :=
  let c := c.settle now
  let n := c.initial
  let clocks := clocksBetween c.epoch now
  (c,
    if c.null then c.mode != 0
    else if c.gate = false then if c.mode = 0 then c.out else true
    else if n = 0 then true
    else if c.mode = 0 then n ≤ clocks
    else if c.mode = 3 then clocks % n * 2 < n
    else c.out)

/-- What `freeze_locked` writes into `words`: the count and OUT as of now. -/
def frozen (c : PitCounter) (now : Nat) (words : PitWords) : PitWords :=
  let n := c.initial
  let clocks := clocksBetween c.epoch now
  if c.null = true ∨ n = 0 ∨ c.gate = false then words -- not counting: already held
  else if c.mode = 0 then { words with counter := wrap c.bcd n clocks, out := n ≤ clocks }
  else if c.mode = 2 then { words with counter := n - clocks % n, out := true }
  else if c.mode = 3 then
    let p := clocks % n
    let first := (n + 1) / 2
    { words with counter := n - 2 * (if p < first then p else p - first), out := p < first }
  else words

/-- `freeze_locked`, with the counter as it settles. -/
def freeze (c : PitCounter) (now : Nat) (words : PitWords) : PitCounter × PitWords :=
  (c.settle now, (c.settle now).frozen now words)

end PitCounter

/-- `phase_locked`: how many clocks into its count the words put a counter. -/
def PitWords.phase (w : PitWords) : Nat :=
  let n := w.initial
  if w.null = true ∨ n = 0 then 0
  else if w.mode = 0 then
    if w.out = false then if w.counter ≤ n then n - w.counter else 0
    else n + wrap w.bcd 0 w.counter
  else if w.mode = 2 then if 1 ≤ w.counter ∧ w.counter ≤ n then n - w.counter else 0
  else if w.mode = 3 then
    let half := if w.counter ≤ n then (n - w.counter) / 2 else 0
    if w.out then half else (n + 1) / 2 + half
  else 0

namespace PitCounter

/-! ## The ports -/

/-- The status byte that a read-back latches. -/
def statusByte (c : PitCounter) (out : Bool) : BitVec 8 :=
  BitVec.ofNat 8 (out.toNat * 128 + (c.null || c.nextN != 0).toNat * 64 + c.access * 16 +
    c.mode * 2 + c.bcd.toNat)

/-- The count latched, unless one is. -/
def latchCount (c : PitCounter) (now : Nat) : PitCounter :=
  if c.latch.valid then c
  else
    let r := c.countNow now
    { r.1 with latch := { c.latch with count := r.2, valid := true, highNext := false } }

/-- The status latched, unless one is. -/
def latchStatus (c : PitCounter) (now : Nat) : PitCounter :=
  match c.latch.status with
  | some _ => c
  | none =>
    let r := c.outNow now
    { r.1 with latch := { c.latch with status := some (r.1.statusByte r.2) } }

/-- `read` of a counter's port. -/
def read (c : PitCounter) (now : Nat) : PitCounter × Nat :=
  match c.latch.status with
  | some st => ({ c with latch := { c.latch with status := none } }, st.toNat)
  | none =>
    let r := if c.latch.valid then (c, c.latch.count) else c.countNow now
    let taken := if c.latch.valid then { r.1 with latch := .none } else r.1
    if c.access = 1 then (taken, r.2 % 256)
    else if c.access = 2 then (taken, r.2 / 256)
    else if c.access = 3 then
      if c.latch.highNext = false then
        ({ r.1 with latch := ⟨r.2, true, true, none⟩ }, r.2 % 256)
      else ({ r.1 with latch := .none }, r.2 / 256)
    else (r.1, 0)

/-- A control word for the counter. -/
def control (c : PitCounter) (data : BitVec 8) : PitCounter :=
  let mode := data.toNat / 2 % 8
  let mode := if 6 ≤ mode then mode - 4 else mode
  { c with
    access := data.toNat / 16 % 4
    mode := mode
    bcd := data.getLsbD 0
    null := true
    out := mode != 0
    seq := data.toNat / 16 % 4
    latch := .none
    lsb := 0
    nextN := 0 }

/-- `schedule_locked`: a count written to a running counter in mode 2 or 3 waits for the end of the
period or of the half-cycle. -/
def schedule (c : PitCounter) (count now : Nat) : PitCounter :=
  let n := c.initial
  let clocks := clocksBetween c.epoch now
  let start := clocks - clocks % n
  let at_ := fun k => (c.epoch + nsForClocks k) % U64
  if c.mode = 2 then
    { c with nextN := count, nextAt := at_ (start + n), nextEpoch := at_ (start + n) }
  else
    let first := (n + 1) / 2
    if clocks - start < first then
      { c with
        nextN := count
        nextAt := at_ (start + first)
        nextEpoch := sub64 (at_ (start + first)) (nsForClocks ((count + 1) / 2)) }
    else { c with nextN := count, nextAt := at_ (start + n), nextEpoch := at_ (start + n) }

/-- A whole count has been written. -/
def load (c : PitCounter) (count now : Nat) : PitCounter :=
  let count := if c.bcd then fromBcd count else count
  let count := if count = 0 then largest c.bcd else count
  let c := c.settle now
  if (c.mode = 2 ∨ c.mode = 3) ∧ c.null = false ∧ c.gate = true ∧ c.initial ≠ 0 then
    c.schedule count now
  else
    { c with
      nextN := 0
      counter := count
      initial := count
      lsb := 0
      latch := .none
      null := false
      out := c.mode != 0
      epoch := now }

/-- A write of the counter's port. -/
def writeCount (c : PitCounter) (data : BitVec 8) (now : Nat) : PitCounter :=
  if c.access = 1 then c.load data.toNat now
  else if c.access = 2 then c.load (data.toNat * 256) now
  else if c.access = 3 then
    if c.seq = 3 then { c with lsb := data.toNat, seq := 2 }
    else { c with lsb := 0, seq := 3 }.load (c.lsb + data.toNat * 256) now
  else c

/-! ## GATE and the clock -/

/-- `set_gate`. -/
def setGate (c : PitCounter) (high : Bool) (now : Nat) : PitCounter :=
  let wasHigh := c.gate
  let c := c.settle now
  let c :=
    if wasHigh = true ∧ high = false then
      if c.mode = 0 then { c with toPitWords := (c.freeze now c.toPitWords).2 }
      else { c with out := true }
    else c
  let c := { c with gate := high }
  if wasHigh = false ∧ high = true then
    if c.mode = 2 ∨ c.mode = 3 then
      let n := if c.nextN ≠ 0 then c.nextN else c.initial
      { c with initial := n, nextN := 0, counter := n, out := true, epoch := now }
    else if c.mode = 0 then { c with epoch := sub64 now (nsForClocks c.phase) }
    else c
  else c

/-- The loop of `clock` in mode 3: `dec` taken from the count, which is reloaded as often as it
ends, with the rising edges of OUT. -/
def squareWave (reload dec counter : Nat) (out : Bool) (edges : Nat) : Nat × Bool × Nat :=
  if dec < counter then (counter - dec, out, edges)
  else if reload = 0 then (0, out, edges)
  else squareWave reload (dec - counter) reload (!out) (if out then edges else edges + 1)
termination_by 2 * dec + if counter = 0 then 1 else 0
decreasing_by
  split <;> split <;> omega

/-- A counter's step of `clock`, with the rising edges of OUT. -/
def tick (c : PitCounter) (now clocks : Nat) : PitCounter × Nat :=
  let c := c.settle now
  if c.null = true ∨ c.gate = false then (c, 0)
  else if c.mode = 0 then
    ({ c with out := c.out || c.counter ≤ clocks, counter := wrap c.bcd c.counter clocks }, 0)
  else if c.mode = 3 then
    let r := squareWave c.initial (clocks * 2) c.counter c.out 0
    ({ c with counter := r.1, out := r.2.1 }, r.2.2)
  else (c, 0)

/-! ## The state file -/

/-- `save` of a counter into a copy of its words. -/
def save (c : PitCounter) (now : Nat) (into : PitWords) : PitCounter × PitWords :=
  let r := c.freeze now into
  if r.1.nextN ≠ 0 then
    (r.1, { r.2 with initial := r.1.nextN, counter := r.1.nextN, out := true })
  else r

/-- `restored` of a counter. A file from before the waiting LSB had a place of its own has it in
the latch word. -/
def restored (c : PitCounter) (now : Nat) : PitCounter :=
  let c := { c with nextN := 0 }
  let c :=
    if c.seq = 2 ∧ c.lsb = 0 ∧ c.latch.valid = false ∧ c.latch.highNext = false ∧
        c.latch.status = none ∧ c.latch.count < 256 then
      { c with lsb := c.latch.count, latch := .none }
    else c
  { c with epoch := sub64 now (nsForClocks c.phase) }

end PitCounter

/-- `CI8254`. -/
structure I8254 where
  counter : Fin 3 → PitCounter
  last : Nat
  /-- The part of an input clock that `clock` carries, in ns times `PIT_CLOCK_HZ`. -/
  acc : Nat
  acc_lt : acc < 1000000000

namespace I8254

variable (p : I8254)

def set (i : Fin 3) (c : PitCounter) : I8254 :=
  { p with counter := Function.update p.counter i c }

def reset (now : Nat) : I8254 where
  counter i := { p.counter i with
    counter := 0
    latch := .none
    initial := 0
    lsb := 0
    access := 0
    mode := 0
    bcd := false
    null := true
    out := false
    epoch := now }
  last := now
  acc := 0
  acc_lt := by decide

def setGate (i : Fin 3) (high : Bool) (now : Nat) : I8254 := p.set i ((p.counter i).setGate high now)

def out (i : Fin 3) (now : Nat) : I8254 × Bool :=
  let r := (p.counter i).outNow now
  (p.set i r.1, r.2)

/-- `read`; the control word is write-only. -/
def read (port now : Nat) : I8254 × Nat :=
  if h : port < 3 then
    let r := (p.counter ⟨port, h⟩).read now
    (p.set ⟨port, h⟩ r.1, r.2)
  else (p, 0)

/-- A read-back command, which latches the status before the count. -/
def readBack (data : BitVec 8) (now : Nat) : I8254 :=
  { p with counter := fun i =>
      let c := p.counter i
      if data.getLsbD (i.val + 1) then
        let c := if data.getLsbD 4 then c else c.latchStatus now
        if data.getLsbD 5 then c else c.latchCount now
      else c }

/-- `write`. -/
def write (port : Nat) (data : BitVec 8) (now : Nat) : I8254 :=
  if port = 3 then
    if h : data.toNat / 64 < 3 then
      let i : Fin 3 := ⟨data.toNat / 64, h⟩
      if data.toNat / 16 % 4 = 0 then p.set i ((p.counter i).latchCount now)
      else p.set i ((p.counter i).control data)
    else p.readBack data now
  else if h : port < 3 then p.set ⟨port, h⟩ ((p.counter ⟨port, h⟩).writeCount data now)
  else p

/-- The time billed by a call of `clock`, at most 30 ms. -/
def elapsed (now : Nat) : Nat := min (now - p.last) 30000000

/-- The whole input clocks that a call bills. -/
def wholeClocks (now : Nat) : Nat := (p.acc + p.elapsed now * PIT_CLOCK_HZ) / 1000000000

/-- A counter's part of `clock`: nothing moves where no whole clock is billed. -/
def advance (i : Fin 3) (now : Nat) : PitCounter :=
  if p.wholeClocks now = 0 then p.counter i
  else ((p.counter i).tick now (p.wholeClocks now)).1

/-- `clock`. -/
def clock (now : Nat) : I8254 where
  counter i := p.advance i now
  last := now
  acc := (p.acc + p.elapsed now * PIT_CLOCK_HZ) % 1000000000
  acc_lt := Nat.mod_lt _ (by decide)

/-- What `clock` returns: the rising edges of counter 0's output. -/
def irq0 (now : Nat) : Nat :=
  if p.wholeClocks now = 0 then 0 else ((p.counter 0).tick now (p.wholeClocks now)).2

/-- `save` into a copy of the state. -/
def save (now : Nat) (into : Fin 3 → PitWords) : I8254 × (Fin 3 → PitWords) :=
  ({ p with counter := fun i => ((p.counter i).save now (into i)).1 },
    fun i => ((p.counter i).save now (into i)).2)

/-- `restored`, after the words were read back and the GATE inputs set. -/
def restored (now : Nat) : I8254 where
  counter i := (p.counter i).restored now
  last := now
  acc := 0
  acc_lt := by decide

/-- The words read back from a state file. -/
def readState (w : Fin 3 → PitWords) : I8254 :=
  { p with counter := fun i => { p.counter i with toPitWords := w i } }

/-! ## Calls of the clock -/

/-- `clock` at each of some times, with the rising edges in all. -/
def clockRun (p : I8254) : List Nat → I8254 × Nat
  | [] => (p, 0)
  | now :: times =>
    let r := (p.clock now).clockRun times
    (r.1, p.irq0 now + r.2)

/-- The time that the calls bill, from the last call before them. -/
def billedNs (last : Nat) : List Nat → Nat
  | [] => 0
  | now :: times => min (now - last) 30000000 + billedNs now times

/-- The input clocks that the calls bill. -/
def billedClocks (times : List Nat) : Nat :=
  (p.acc + billedNs p.last times * PIT_CLOCK_HZ) / 1000000000

/-- A timer brought back from a state file at `now`, its GATE inputs set before. -/
def broughtBack (q : I8254) (w : Fin 3 → PitWords) (gates : Fin 3 → Bool) (now : Nat) : I8254 :=
  let q := q.readState w
  let q := { q with counter := fun i => { q.counter i with gate := gates i } }
  q.restored now

end I8254

/-! ## Runs -/

/-- The entries of the class, each with one reading of the clock. -/
inductive PitOp where
  | read (port : Nat)
  | write (port : Nat) (data : BitVec 8)
  | out (i : Fin 3)
  | setGate (i : Fin 3) (high : Bool)
  | clock
  /-- The state is saved, and brought back in the timer `q` of another run at `now'`. -/
  | suspend (q : I8254) (gates : Fin 3 → Bool) (now' : Nat)

def I8254.exec (p : I8254) (now : Nat) : PitOp → I8254
  | .read port => (p.read port now).1
  | .write port data => p.write port data now
  | .out i => (p.out i now).1
  | .setGate i high => p.setGate i high now
  | .clock => p.clock now
  | .suspend q gates now' =>
    q.broughtBack (p.save now fun i => (p.counter i).toPitWords).2 gates now'

/-- The write loads counter `i`: its count, or its control word. -/
def PitOp.Loads (i : Fin 3) : PitOp → Prop
  | .write port data =>
    port = i.val ∨ port = 3 ∧ data.toNat / 64 = i.val ∧ data.toNat / 16 % 4 ≠ 0
  | _ => False

/-- A timer, and what its counter `i` has done since its count was written. -/
structure PitRun where
  timer : I8254
  /-- The last reading of the clock, and whether the counter was resumed at it. -/
  now : Nat
  resumed : Bool
  /-- OUT has been high at a reading. -/
  high : Bool

namespace PitRun

variable (i : Fin 3) (r : PitRun)

/-- A count `n` has just been written in mode 0. -/
def Starts (n : Nat) : Prop :=
  (∃ (c : PitCounter) (count : Nat), c.mode = 0 ∧ r.timer.counter i = c.load count r.now) ∧
  (r.timer.counter i).initial = n ∧ n ≤ largest (r.timer.counter i).bcd ∧
  r.resumed = false ∧ r.high = false

/-- A later reading of the clock: after a resume it has moved on. -/
def Later (t : Nat) : Prop := r.now ≤ t ∧ (r.resumed = true → r.now < t) ∧ t < U64

/-- The counter is not loaded; a clock that a resume reads is past the clocks a place can have. -/
def allowed (a : Nat × PitOp) : Prop :=
  r.Later a.1 ∧ ¬ a.2.Loads i ∧
  match a.2 with
  | .setGate _ _ => nsForClocks 0x20000 ≤ a.1
  | .suspend _ _ now' => nsForClocks 0x20000 ≤ now' ∧ now' < U64
  | _ => True

def step (a : Nat × PitOp) : PitRun where
  timer := r.timer.exec a.1 a.2
  now :=
    match a.2 with
    | .suspend _ _ now' => now'
    | _ => a.1
  resumed :=
    match a.2 with
    | .setGate j high => decide (j = i) && high && !(r.timer.counter i).gate
    | .suspend _ _ _ => true
    | _ => false
  high := r.high || ((r.timer.counter i).outNow a.1).2

end PitRun

end Alphabox.Isa
