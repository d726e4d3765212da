import Alphabox.Lib.Numerals
import Mathlib.Logic.Function.Basic

/-!
# The data page cache (`SDataPageCache`, `cpu/AlphaCPU.hpp`)

Two direct-mapped levels of translated pages, a read and a write row each. Level 2 is inclusive
of level 1 and is emptied by moving its generation on. What only compiled code reads of a slot
(its tag, bias and host address) is not modelled.
-/

namespace Alphabox.Cpu

/-- The page of an address, `va & ~0x1FFF`. -/
def pageOf (va : BitVec 64) : BitVec 64 := va &&& ~~~0x1fff#64

/-- `dpc_index`. -/
def dpcIndex (va : BitVec 64) : BitVec 8 := va.extractLsb' 13 8

/-- `dpc2_index`. -/
def dpc2Index (va : BitVec 64) : BitVec 14 := va.extractLsb' 13 14

/-- `SDataPageCache`: one translated page. -/
structure Slot where
  virtPage : BitVec 64
  physBase : BitVec 64
  cm : Fin 4
  asn : Nat
  valid : Bool
  gen : BitVec 32

namespace Slot

def zero : Slot := ⟨0, 0, 0, 0, false, 0⟩

/-- `invalidate`. -/
def invalidate (s : Slot) : Slot := { s with valid := false }

/-- `fill`. -/
def fill (s : Slot) (vp phys : BitVec 64) (cm : Fin 4) (asn : Nat) : Slot :=
  { s with virtPage := vp, physBase := phys, cm, asn, valid := true }

/-- The slot is of the page of `virt`, compared on VA bits `<47:13>`. -/
def same (s : Slot) (virt : BitVec 64) : Bool :=
  (s.virtPage ^^^ virt) &&& 0x0000ffffffffe000#64 == 0

/-- The slot answers for page `vp` in mode `cm` of address space `asn`. -/
def answers (s : Slot) (vp : BitVec 64) (cm : Fin 4) (asn : Nat) : Bool :=
  s.valid && s.virtPage == vp && s.cm == cm && s.asn == asn

end Slot

/-- `data_page_cache`, `data_page_cache2` and `m_dpc2_gen`; the row is the write row when the
index is `true`. -/
structure PageCache where
  l1 : Bool → BitVec 8 → Slot
  l2 : Bool → BitVec 14 → Slot
  gen : BitVec 32

namespace PageCache

/-- At power-up: every slot zeroed, `m_dpc2_gen` 1. -/
def init : PageCache where
  l1 := fun _ _ => Slot.zero
  l2 := fun _ _ => Slot.zero
  gen := 1

/-- `flush_data_page_cache`: level 2 by its generation, and slot by slot when that wraps. -/
def flush (p : PageCache) : PageCache where
  l1 := fun rw i => (p.l1 rw i).invalidate
  l2 := fun rw i => if p.gen + 1 = 0 then (p.l2 rw i).invalidate else p.l2 rw i
  gen := if p.gen + 1 = 0 then 1 else p.gen + 1

/-- `flush_data_page_cache_range`: the page of an 8 KB entry, everything for a larger one.
Without `keep` (`m_dpc_keep`) the page's slots go whatever they hold. -/
def flushRange (p : PageCache) (keep : Bool) (virt matchMask : BitVec 64) : PageCache :=
  if matchMask &&& 0x2000#64 = 0 then p.flush
  else
    { p with
      l1 := fun rw => Function.update (p.l1 rw) (dpcIndex virt)
        (let s := p.l1 rw (dpcIndex virt); if !keep || s.same virt then s.invalidate else s)
      l2 := fun rw => Function.update (p.l2 rw) (dpc2Index virt)
        (let s := p.l2 rw (dpc2Index virt); if !keep || s.same virt then s.invalidate else s) }

/-- A fill of level 1 and `dpc_l2_put`. -/
def put (p : PageCache) (rw : Bool) (va phys : BitVec 64) (cm : Fin 4) (asn : Nat) : PageCache :=
  let s := (p.l1 rw (dpcIndex va)).fill (pageOf va) (pageOf phys) cm asn
  { p with
    l1 := Function.update p.l1 rw (Function.update (p.l1 rw) (dpcIndex va) s)
    l2 := Function.update p.l2 rw
      (Function.update (p.l2 rw) (dpc2Index s.virtPage) { s with gen := p.gen }) }

/-- `dpc_promote`: a level-1 miss that level 2 can answer. -/
def promote (p : PageCache) (rw : Bool) (idx : BitVec 8) (vp : BitVec 64) (cm : Fin 4) (asn : Nat) :
    Option PageCache :=
  let s := p.l2 rw (dpc2Index vp)
  if s.answers vp cm asn ∧ s.gen = p.gen then
    some { p with l1 := Function.update p.l1 rw (Function.update (p.l1 rw) idx s) }
  else none

end PageCache

end Alphabox.Cpu
