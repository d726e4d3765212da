import Alphabox.Lib.Numerals
import Mathlib.Data.BitVec
import Mathlib.Logic.Function.Basic

/-!
# The GIO port (`chipsets/marvel/Gio.cpp`)

One processor's end of the link to its management processor. The far side (`GioManagement`) is a
parameter with a state of its own.
-/

namespace Alphabox.Marvel

/-- What leaves the chipset: messages to the processors and calls to the management side. -/
inductive Event where
  /-- An IID that the queue of PID `pid` takes from an IO7. -/
  | iid (pid : Nat) (iid : BitVec 64)
  | gioRead (pid reg : Nat)
  | gioWrite (pid reg : Nat) (v : BitVec 64)
  /-- A parked processor is started. -/
  | start (pid : Nat) (pc : BitVec 64)
  deriving DecidableEq

/-- `GioManagement`. -/
structure Management (σ : Type) where
  gioWrite : σ → Nat → Nat → BitVec 64 → Bool × σ
  gioRead : σ → Nat → Nat → Option (BitVec 64) × σ
  gioPoll : σ → Nat → Nat → Option (BitVec 64) × σ

/-- What the chipset does not own: the state of the management side, the processors that are
parked (`get_waiting`), and all that left the chipset so far, newest first. -/
structure World (σ : Type) where
  far : σ
  parked : Nat → Bool
  events : List Event

variable {σ : Type}

def World.note (w : World σ) (e : Event) : World σ := { w with events := e :: w.events }

/-- `kGioDone`. -/
def kGioDone : BitVec 64 := 1#64 <<< 63

/-- A transaction begun with the clock stopped: `m_held`, `m_held_reg` and `m_held_data`. -/
inductive Held where
  | none
  | read (reg : Nat)
  | write (reg : Nat) (v : BitVec 64)
  deriving DecidableEq

/-- `CGioPort`. -/
structure GioPort where
  cfg : BitVec 64
  ctl : BitVec 64
  dat : BitVec 64
  lockWord : BitVec 64
  pending : Bool
  pendingReg : Nat
  held : Held
  deriving DecidableEq

/-- In 21464 mode the words of the far side are 32 bits. -/
def narrow (m21464 : Bool) (v : BitVec 64) : BitVec 64 :=
  if m21464 then v &&& 0xffffffff#64 else v

/-- The register number in `GIO_CTL`. -/
def gioReg (v : BitVec 64) : Nat := ((v >>> 1) &&& 0x7f#64).toNat

namespace GioPort

def reset (m21464 : Bool) : GioPort where
  cfg := 0
  ctl := 0
  dat := if m21464 then kGioDone else 0
  lockWord := 0
  pending := false
  pendingReg := 0
  held := .none

variable (M : Management σ) (m21464 : Bool) (pid : Nat) (g : GioPort) (w : World σ)

def clockRuns : Bool := !m21464 || g.cfg &&& 0xfe#64 != 0

def startRead (reg : Nat) : GioPort × World σ :=
  let r := M.gioRead w.far pid reg
  let w' := { w with far := r.2 }.note (.gioRead pid reg)
  match r.1 with
  | some answer => ({ g with dat := narrow m21464 answer ||| kGioDone, pending := false }, w')
  | none => ({ g with dat := 0, pending := true, pendingReg := reg }, w')

def startWrite (reg : Nat) (v : BitVec 64) : GioPort × World σ :=
  let v := narrow m21464 v
  let r := M.gioWrite w.far pid reg v
  ({ g with dat := if r.1 then v ||| kGioDone else v &&& ~~~kGioDone },
    { w with far := r.2 }.note (.gioWrite pid reg v))

def writeCfg (v : BitVec 64) : GioPort × World σ :=
  let g := { g with cfg := if m21464 then v &&& 0xfe#64 else v }
  if g.clockRuns m21464 then
    match g.held with
    | .none => (g, w)
    | .read reg => { g with held := .none }.startRead M m21464 pid w reg
    | .write reg v => { g with held := .none }.startWrite M m21464 pid w reg v
  else (g, w)

def writeCtl (v : BitVec 64) : GioPort × World σ :=
  let g := { g with ctl := if m21464 then v &&& 0xff#64 else v }
  let reg := gioReg v
  if v &&& 1#64 = 0 then (g, w)
  else if g.clockRuns m21464 then g.startRead M m21464 pid w reg
  else ({ g with held := .read reg, pending := false, dat := g.dat &&& ~~~kGioDone }, w)

def writeDat (v : BitVec 64) : GioPort × World σ :=
  let reg := gioReg g.ctl
  let g := { g with pending := false }
  if g.clockRuns m21464 then g.startWrite M m21464 pid w reg v
  else
    let data := narrow true v
    ({ g with held := .write reg data, dat := data }, w)

/-- `read_dat`: the value, and the port and the far side after the poll. -/
def readDat : BitVec 64 × GioPort × World σ :=
  if g.pending then
    let r := M.gioPoll w.far pid g.pendingReg
    let w := { w with far := r.2 }
    match r.1 with
    | some answer =>
      let g := { g with dat := narrow m21464 answer ||| kGioDone, pending := false }
      (g.dat, g, w)
    | none => (g.dat, g, w)
  else (g.dat, g, w)

def readLock : BitVec 64 × GioPort := (g.lockWord, { g with lockWord := 1 })

/-- `CGioPort::State`. -/
structure State where
  cfg : BitVec 64
  ctl : BitVec 64
  dat : BitVec 64
  lock : BitVec 64
  pendingReg : Nat
  pending : Bool

def save : State where
  cfg := g.cfg
  ctl := g.ctl
  dat := g.dat
  lock := g.lockWord
  pendingReg := g.pendingReg
  pending := g.pending

def restore (s : State) : GioPort :=
  { g with
    cfg := s.cfg
    ctl := s.ctl
    dat := s.dat
    lockWord := s.lock
    pendingReg := s.pendingReg
    pending := s.pending }

end GioPort

end Alphabox.Marvel
