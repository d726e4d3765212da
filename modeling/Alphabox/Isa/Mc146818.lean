import Alphabox.Lib.Calendar

/-!
# The time-of-day clock (`devices/isa/Mc146818.cpp`)

Ports 0 and 1 select and access the clock's registers and 114 bytes of RAM, ports 2 and 3 the upper
128 bytes. The time is the host's plus `offset`, in whole seconds: the time registers are made from
it when they are read, and a setting of them is kept as a new offset. Every port access takes the
clock's lock, so that one is a function of the state and of what the host's clocks say then.

`utc_tm` and `utc_seconds` are the C library's `gmtime` and `timegm` (`Lib.Calendar`); the trace is
left out.
-/

namespace Alphabox.Isa

open Lib.Calendar (Tm)

/-- The host's wall clock, in nanoseconds since the start of 1970, and its monotonic one. -/
structure HostClocks where
  real : Int
  steady : Nat
  deriving DecidableEq

/-- `host_seconds`. -/
def hostSeconds (realNs : Int) : Int :=
  if 0 ≤ realNs then realNs / 1000000000 else -((-realNs + 999999999) / 1000000000)

/-- `CMc146818` with the owner's `ram`, `ports` and `offset`. -/
structure Mc146818 where
  ram : BitVec 8 → BitVec 8
  ports : Fin 4 → BitVec 8
  offset : Int
  arcYearCompat : Bool
  pfEpoch : Nat
  pfCount : Nat
  pfFreq : Nat

/-- A byte in two decimal digits. -/
def bcd (x : Int) : BitVec 8 := BitVec.ofInt 8 (x.tdiv 10 * 16) ||| BitVec.ofInt 8 (x.tmod 10)

/-- `unbcd`. -/
def unbcd (v : BitVec 8) : Int := ((v >>> 4) &&& 0x0f).toNat * 10 + (v &&& 0x0f).toNat

namespace Mc146818

variable (s : Mc146818) (c : HostClocks)

def put (ram : BitVec 8 → BitVec 8) (i v : BitVec 8) : BitVec 8 → BitVec 8 :=
  fun j => if j = i then v else ram j

/-- Register B's SET. -/
def setOn : Bool := s.ram 0x0b &&& 0x80 ≠ 0

/-! ## The time registers -/

/-- The time of the clock. -/
def time : Int := hostSeconds c.real + s.offset

/-- `generate_time_locked`: the seven time and date registers, in the data mode and the hour format
of register B. -/
def timeRam (secs : Int) : BitVec 8 → BitVec 8 :=
  let t := Lib.Calendar.ofSeconds secs
  let pm : BitVec 8 := if 12 ≤ t.hour then 0x80 else 0
  let h12 : Int := if t.hour.tmod 12 ≠ 0 then t.hour.tmod 12 else 12
  let wday := BitVec.ofInt 8 (Lib.Calendar.weekday secs + 1)
  let yy : Int := if s.arcYearCompat then t.year - 80 else t.year.tmod 100
  if s.ram 0x0b &&& 4 ≠ 0 then
    let ram := put (put s.ram 0 (BitVec.ofInt 8 t.sec)) 2 (BitVec.ofInt 8 t.min)
    let ram := put ram 4 (if s.ram 0x0b &&& 2 ≠ 0 then BitVec.ofInt 8 t.hour
      else pm ||| BitVec.ofInt 8 h12)
    put (put (put (put ram 6 wday) 7 (BitVec.ofInt 8 t.mday)) 8 (BitVec.ofInt 8 (t.mon + 1))) 9
      (BitVec.ofInt 8 yy)
  else
    let ram := put (put s.ram 0 (bcd t.sec)) 2 (bcd t.min)
    let ram := put ram 4 (if s.ram 0x0b &&& 2 ≠ 0 then bcd t.hour else pm ||| bcd h12)
    put (put (put (put ram 6 wday) 7 (bcd t.mday)) 8 (bcd (t.mon + 1))) 9 (bcd yy)

/-- `generate_time_locked`: with register A's UIP, on in the last 244 us of a second. -/
def generateTime : Mc146818 :=
  let secs := hostSeconds c.real
  let intoSecond := c.real - secs * 1000000000
  let ram := s.timeRam (secs + s.offset)
  { s with ram := put ram 0x0a (if 1000000000 - 244000 ≤ intoSecond then ram 0x0a ||| 0x80
      else ram 0x0a &&& 0x7f) }

/-- `set_time_from_registers`. -/
def setTimeFromRegisters (newB : BitVec 8) : Mc146818 :=
  let binary : Bool := newB &&& 0x04 ≠ 0
  let h24 : Bool := newB &&& 0x02 ≠ 0
  let pm : Bool := !h24 && s.ram 4 &&& 0x80 ≠ 0
  let hh := if h24 then s.ram 4 else s.ram 4 &&& 0x7f
  let value (v : BitVec 8) : Int := if binary then v.toNat else unbcd v
  let yy := value (s.ram 9)
  let year := if s.arcYearCompat then yy + 80 else if yy < 70 then yy + 100 else yy
  let hour := if !h24 && pm && decide (value hh < 12) then value hh + 12 else value hh
  let hour := if !h24 && !pm && decide (hour = 12) then 0 else hour
  let setTime := Lib.Calendar.seconds
    ⟨value (s.ram 0), value (s.ram 2), hour, value (s.ram 7), value (s.ram 8) - 1, year⟩
  if setTime ≠ -1 then { s with offset := setTime - hostSeconds c.real } else s

/-- `update_pf_locked`. The monotonic clock is a 64-bit number. -/
def updatePf : Mc146818 :=
  let ratePow := (s.ram 0x0a &&& 0x0f).toNat
  let freq := if ratePow = 0 then 0 else 65536 / 2 ^ ratePow
  let freq := if s.ram 0x0a &&& 0x20 = 0 then freq
    else if ratePow = 1 then 256 else if ratePow = 2 then 128 else freq
  if freq = 0 then s
  else
    let s1 := if freq = s.pfFreq then s else { s with pfFreq := freq, pfEpoch := c.steady, pfCount := 0 }
    let elapsed := (c.steady + (2 ^ 64 - s1.pfEpoch)) % 2 ^ 64
    let due := elapsed / 1000000000 * freq + elapsed % 1000000000 * freq / 1000000000
    if due = s1.pfCount then s1
    else { s1 with ram := put s1.ram 0x0c (s1.ram 0x0c ||| 0x40), pfCount := due }

/-! ## The ports -/

/-- The register that port 0 selects. -/
def selected : BitVec 8 := s.ports 0 &&& 0x7f

/-- `register_locked`. -/
def registerLocked (index : BitVec 8) : BitVec 8 × Mc146818 :=
  if index < 0x0e then
    let s1 := if s.setOn then s else generateTime { s with ram := put s.ram 0x0d 0x80 } c
    if index = 0x0c then
      let s2 := s1.updatePf c
      (s2.ram 0x0c, { s2 with ram := put s2.ram 0x0c 0 })
    else (s1.ram index, s1)
  else (s.ram index, s)

def setPort (port : Fin 4) (v : BitVec 8) : Mc146818 :=
  { s with ports := Function.update s.ports port v }

/-- `read`. -/
def read (port : Fin 4) : BitVec 8 × Mc146818 :=
  if port = 1 then
    let r := s.registerLocked c s.selected
    (r.1, r.2.setPort 1 r.1)
  else if port = 3 then
    let v := s.ram (0x80 + (s.ports 2 &&& 0x7f))
    (v, s.setPort 3 v)
  else (s.ports port, s)

/-- The registers that a write with SET clear sets the clock by. -/
def isTimeRegister (index : BitVec 8) : Bool :=
  index == 0x00 || index == 0x02 || index == 0x04 || index == 0x07 || index == 0x08 ||
    index == 0x09

/-- A write to the register `index`. -/
def writeRegister (index data : BitVec 8) : Mc146818 :=
  if index = 0x0c ∨ index = 0x0d then s
  else
    let data := if index = 0x0a ∨ index = 0x00 then data &&& 0x7f else data
    let s := if index = 0x0b ∧ data &&& 0x40 ≠ 0 then { s with ram := put s.ram 0x0c 0xf0 } else s
    let s := if index = 0x0b ∧ s.setOn = true ∧ data &&& 0x80 = 0 then s.setTimeFromRegisters c data
      else s
    let s := if index = 0x0b ∧ data &&& 0x80 ≠ 0 then
        { s with ram := put s.ram 0x0a (s.ram 0x0a &&& 0x7f) }
      else s
    if s.setOn = false ∧ isTimeRegister index = true then
      let s := s.generateTime c
      let s := { s with ram := put s.ram index data }
      s.setTimeFromRegisters c (s.ram 0x0b)
    else { s with ram := put s.ram index data }

/-- `write`. -/
def write (port : Fin 4) (data : BitVec 8) : Mc146818 :=
  let s := s.setPort port data
  if port = 1 then s.writeRegister c s.selected data
  else if port = 3 then { s with ram := put s.ram (0x80 + (s.ports 2 &&& 0x7f)) data }
  else s

end Mc146818

/-! ## Runs -/

/-- An access to one of the ports. -/
inductive ToyOp where
  | read (port : Fin 4)
  | write (port : Fin 4) (data : BitVec 8)
  deriving DecidableEq

namespace Mc146818

def step (s : Mc146818) (o : HostClocks × ToyOp) : Mc146818 :=
  match o.2 with
  | .read port => (s.read o.1 port).2
  | .write port data => s.write o.1 port data

def run (s : Mc146818) (ops : List (HostClocks × ToyOp)) : Mc146818 := ops.foldl step s

/-- What the register `r` reads as: it is selected and read. -/
def reading (s : Mc146818) (c : HostClocks) (r : BitVec 8) : BitVec 8 :=
  ((s.write c 0 r).read c 1).1

/-- The register `r` is selected and written. -/
def setting (s : Mc146818) (c : HostClocks) (r v : BitVec 8) : Mc146818 :=
  (s.write c 0 r).write c 1 v

end Mc146818

end Alphabox.Isa
