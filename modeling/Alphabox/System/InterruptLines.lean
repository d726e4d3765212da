import Alphabox.Lib.Numerals
import Mathlib.Data.List.Basic

/-!
# The chipset's interrupt inputs (`system/InterruptLines.hpp`)

Every source that asserts an input is kept in a list, and the input is the OR of its sources. Each
operation runs under the object's lock and is one step; `deliver` is its result. An input and a line
are `int`s, a source is an address.
-/

namespace Alphabox.System

/-- `CInterruptLines::request`. -/
structure IrqRequest where
  input : Int
  source : Nat
  line : Int
  deriving DecidableEq

/-- `CInterruptLines`: the requests asserted now. -/
structure InterruptLines where
  on : List IrqRequest
  deriving DecidableEq

namespace InterruptLines

/-- `find`: an index, the size where there is none. -/
def find (l : InterruptLines) (r : IrqRequest) : Nat := l.on.findIdx (· == r)

/-- `asserted`. -/
def asserted (l : InterruptLines) (input : Int) : Bool := l.on.any (·.input == input)

/-- The last request in the place of the one at `i`. -/
def removeAt (on : List IrqRequest) (i : Nat) : List IrqRequest :=
  match on.getLast? with
  | some last => (on.set i last).dropLast
  | none => on

/-- `drive`, with the level it delivers for its input. -/
def drive (l : InterruptLines) (r : IrqRequest) (level : Bool) : InterruptLines × Bool :=
  let i := l.find r
  let l :=
    if level = true ∧ i = l.on.length then { l with on := l.on ++ [r] }
    else if level = false ∧ i ≠ l.on.length then { l with on := removeAt l.on i }
    else l
  (l, l.asserted r.input)

/-- `level`. -/
def level (l : InterruptLines) (input : Int) : Bool := l.asserted input

/-- `reset`. -/
def reset (l : InterruptLines) : InterruptLines := { l with on := [] }

end InterruptLines

/-! ## Runs -/

inductive LineOp where
  | drive (r : IrqRequest) (level : Bool)
  | reset

def InterruptLines.step (l : InterruptLines) : LineOp → InterruptLines
  | .drive r level => (l.drive r level).1
  | .reset => l.reset

/-- The lines after some operations, the last of them first. -/
def InterruptLines.after : List LineOp → InterruptLines
  | [] => ⟨[]⟩
  | op :: ops => (after ops).step op

/-- What a source has last driven its line of an input to since the last reset: low if it has not. -/
def lastDriven (r : IrqRequest) : List LineOp → Bool
  | [] => false
  | .drive r' level :: ops => if r' = r then level else lastDriven r ops
  | .reset :: _ => false

end Alphabox.System
