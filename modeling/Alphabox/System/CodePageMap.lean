import Alphabox.Lib.Numerals
import Mathlib.Algebra.Group.Nat.Defs
import Mathlib.Logic.Function.Basic

/-!
# The map of compiled code (`system/System.hpp`, `system/System.cpp`)

`CCodePageMap` has a bit for each 8 KB page and each 256-byte line of memory that some block was
compiled from, and counts the writes onto such a line: an IMB whose count has not moved has nothing
to flush. The compiler reports the extent of a block (`note_code`), a device the extent of a
transfer (`note_write_range`), and a processor the first byte of a store (`note_write`); a store
across two pages is made, and reported, byte by byte. The request that goes to the processors when a
page becomes code is left out, and the counts do not wrap.
-/

namespace Alphabox.System

open Function (update)

def kPageShift : Nat := 13

def kLineShift : Nat := 8

/-- `CCodePageMap`. -/
structure CodePageMap where
  pages : Nat
  lines : Nat
  pageBits : Nat → Bool
  lineBits : Nat → Bool
  gen : Nat
  marked : Nat

namespace CodePageMap

/-- `init`. -/
def init (dramBytes : Nat) : CodePageMap where
  pages := dramBytes >>> kPageShift
  lines := dramBytes >>> kLineShift
  pageBits := fun _ => false
  lineBits := fun _ => false
  gen := 0
  marked := 0

/-- `holds_code`. -/
def holdsCode (m : CodePageMap) (phys : Nat) : Bool :=
  decide (phys >>> kPageShift < m.pages) && m.pageBits (phys >>> kPageShift)

/-- `holds_code_line`. -/
def holdsCodeLine (m : CodePageMap) (phys : Nat) : Bool :=
  decide (phys >>> kLineShift < m.lines) && m.lineBits (phys >>> kLineShift)

/-- The next `count` lines are marked, or those there are; whether it was all of them. -/
def markLines : Nat → Nat → CodePageMap → CodePageMap × Bool
  | 0, _, m => (m, true)
  | count + 1, ln, m =>
    if m.lines ≤ ln then (m, false)
    else markLines count (ln + 1) { m with lineBits := update m.lineBits ln true }

/-- A page is marked: one that was not counts as written. -/
def markPage (m : CodePageMap) (pg : Nat) : CodePageMap :=
  if m.pageBits pg then m
  else { m with pageBits := update m.pageBits pg true, marked := m.marked + 1, gen := m.gen + 1 }

/-- The next `count` pages are marked, or those there are. -/
def markPages : Nat → Nat → CodePageMap → CodePageMap
  | 0, _, m => m
  | count + 1, pg, m =>
    if m.pages ≤ pg then m else markPages count (pg + 1) (m.markPage pg)

/-- `note_code`: a block was compiled from `bytes` bytes at `phys`. -/
def noteCode (m : CodePageMap) (phys bytes : Nat) : CodePageMap :=
  let last := phys + (if bytes ≠ 0 then bytes - 1 else 0)
  let first := phys >>> kLineShift
  match m.markLines (last >>> kLineShift + 1 - first) first with
  | (m, false) => m
  | (m, true) =>
    let first := phys >>> kPageShift
    m.markPages (last >>> kPageShift + 1 - first) first

/-- `note_write`: a store landed at `phys`. -/
def noteWrite (m : CodePageMap) (phys : Nat) : CodePageMap :=
  if m.holdsCode phys && m.holdsCodeLine phys then { m with gen := m.gen + 1 } else m

/-- A line from `lo` to `hi` holds code. -/
def codeIn (m : CodePageMap) (lo hi : Nat) : Bool :=
  let first := lo >>> kLineShift
  (List.range' first (hi >>> kLineShift + 1 - first)).any fun ln =>
    m.holdsCodeLine (ln <<< kLineShift)

/-- `note_write_range`: a device wrote `bytes` bytes at `phys`. -/
def noteWriteRange (m : CodePageMap) (phys bytes : Nat) : CodePageMap :=
  if bytes = 0 then m
  else
    let last := phys + bytes - 1
    let first := phys >>> kPageShift
    if (List.range' first (last >>> kPageShift + 1 - first)).any fun pg =>
        m.holdsCode (pg <<< kPageShift) &&
          m.codeIn (max (pg <<< kPageShift) phys) (min ((pg + 1) <<< kPageShift - 1) last)
    then { m with gen := m.gen + 1 } else m

end CodePageMap

/-- The size of a store. -/
inductive StoreSize where
  | byte
  | word
  | long
  | quad
  deriving DecidableEq

def StoreSize.bytes : StoreSize → Nat
  | .byte => 1
  | .word => 2
  | .long => 4
  | .quad => 8

/-- A write of memory. -/
inductive CodeWrite where
  /-- A store in one page, conditional or not, by a processor or one word of a device. -/
  | store (phys : Nat) (size : StoreSize)
  /-- A device's transfer. -/
  | dma (phys bytes : Nat)

namespace CodeWrite

def phys : CodeWrite → Nat
  | .store phys _ | .dma phys _ => phys

def bytes : CodeWrite → Nat
  | .store _ size => size.bytes
  | .dma _ bytes => bytes

end CodeWrite

inductive CodeOp where
  | noteCode (phys bytes : Nat)
  | write (w : CodeWrite)

/-- A run: the map of `dramSize` bytes of memory and the extents compiled so far. -/
structure CodeRun where
  dramSize : Nat
  map : CodePageMap
  noted : List (Nat × Nat)

namespace CodeRun

/-- How a write is reported. -/
def report (m : CodePageMap) : CodeWrite → CodePageMap
  | .store phys _ => m.noteWrite phys
  | .dma phys bytes => m.noteWriteRange phys bytes

def step (s : CodeRun) : CodeOp → CodeRun
  | .noteCode phys bytes =>
    { s with map := s.map.noteCode phys bytes, noted := (phys, bytes) :: s.noted }
  | .write w => { s with map := report s.map w }

/-- Memory is a power of two of whole pages, with nothing compiled yet. -/
def Start (s : CodeRun) : Prop :=
  ∃ bits, kPageShift ≤ bits ∧ s = ⟨2 ^ bits, .init (2 ^ bits), []⟩

/-- A block has an instruction and lies in memory. -/
def OpOk (s : CodeRun) : CodeOp → Prop
  | .noteCode phys bytes => bytes ≠ 0 ∧ phys + bytes ≤ s.dramSize
  | .write _ => True

end CodeRun

end Alphabox.System
