import Mathlib.Logic.Function.Basic
import Mathlib.Data.List.FinRange
import Alphabox.Lib.Table

/-!
# TB entries and the TB index (`cpu/AlphaCPU.hpp`, `cpu/AlphaCPU.cpp`)

`STBEntry` is one entry of a translation buffer as the 21264 rows use it (the native EV8's group
fields are not modelled here). `TbIndex` is the derived index of one TB: eight ways per set,
packed from the front, an overflow mark per set and the count of live entries with a
granularity hint, which the index cannot hold.

A way of the source is a byte, `slot + 1` or 0 for an empty one; here it is an `Option` of a
slot.
-/

namespace Alphabox.Cpu

/-- `TB_ENTRIES`. -/
abbrev TB_ENTRIES : Nat := 128

/-- A slot of a TB. -/
abbrev TbSlot : Type := Fin TB_ENTRIES

instance tbSlotLawfulBEq : LawfulBEq TbSlot := inferInstance

/-- Which TB: `TB_INDEX_DATA` or `TB_INDEX_ITB`. -/
inductive Tb where
  | dtb
  | itb
  deriving DecidableEq

/-! ## Granularity hints -/

/-- `GH_n_MATCH`: the VA bits `<47:13+3n>`. -/
def ghMatch : Fin 4 → BitVec 64
  | 0 => 0x0000ffffffffe000#64
  | 1 => 0x0000ffffffff0000#64
  | 2 => 0x0000fffffff80000#64
  | 3 => 0x0000ffffffc00000#64

/-- `GH_n_PHYS`: the PA bits `<43:13+3n>`. -/
def ghPhys : Fin 4 → BitVec 64
  | 0 => 0x00000fffffffe000#64
  | 1 => 0x00000fffffff0000#64
  | 2 => 0x00000ffffff80000#64
  | 3 => 0x00000fffffc00000#64

/-- `GH_n_KEEP`: the VA bits kept, `<12+3n:0>`. -/
def ghKeep : Fin 4 → BitVec 64
  | 0 => 0x0000000000001fff#64
  | 1 => 0x000000000000ffff#64
  | 2 => 0x000000000007ffff#64
  | 3 => 0x00000000003fffff#64

/-- The granularity hint of a PTE, `pte_flags & 0x60`. -/
def granularity (pteFlags : BitVec 64) : Fin 4 := (pteFlags.extractLsb' 5 2).toFin

/-! ## Entries -/

/-- `STBEntry`. -/
structure STBEntry where
  virt : BitVec 64
  phys : BitVec 64
  matchMask : BitVec 64
  keepMask : BitVec 64
  asn : Nat
  asmBit : Bool
  /-- Access permitted, read (0) or write (1), by mode. -/
  access : Fin 2 → Fin 4 → Bool
  /-- Fault on read, write, execute. -/
  fault : Fin 3 → Bool
  valid : Bool

/-- A zeroed entry. -/
def STBEntry.zero : STBEntry where
  virt := 0
  phys := 0
  matchMask := 0
  keepMask := 0
  asn := 0
  asmBit := false
  access := fun _ _ => false
  fault := fun _ => false
  valid := false

/-- The entry `add_tb` makes of a translation in DTB_PTE format. -/
def STBEntry.ofPte (virt ptePhys pteFlags : BitVec 64) (asn : Nat) : STBEntry where
  virt := virt &&& ghMatch (granularity pteFlags)
  phys := ptePhys &&& ghPhys (granularity pteFlags)
  matchMask := ghMatch (granularity pteFlags)
  keepMask := ghKeep (granularity pteFlags)
  asn := asn
  asmBit := pteFlags.getLsbD 4
  access := fun rw cm => pteFlags.getLsbD (8 + 4 * rw.val + cm.val)
  fault := fun k => pteFlags.getLsbD (1 + k.val)
  valid := true

namespace STBEntry

/-- The tag covers `virt`: `!((entry.virt ^ virt) & entry.match_mask)`. -/
def covers (e : STBEntry) (virt : BitVec 64) : Bool := (e.virt ^^^ virt) &&& e.matchMask == 0

/-- A valid entry that translates `virt` under `asn`. -/
def hits (e : STBEntry) (virt : BitVec 64) (asn : Nat) : Bool :=
  e.valid && e.covers virt && (e.asmBit || e.asn == asn)

def invalidate (e : STBEntry) : STBEntry := { e with valid := false }

end STBEntry

/-- `tb_idx_8k`: an 8 KB entry, which the index holds. -/
def tbIdx8k (matchMask : BitVec 64) : Bool := matchMask &&& ghMatch 0 == ghMatch 0

/-! ## The index -/

/-- `kTbIdxWays`. -/
abbrev kTbIdxWays : Nat := 8

/-- `tb_idx_set`: VA bits `<23:13>`. -/
def tbIdxSet (virt : BitVec 64) : BitVec 11 := virt.extractLsb' 13 11

/-- The index of one TB: `m_tb_idx`, `m_tb_idx_lost` and `m_tb_gh_live`. -/
structure TbIndex where
  ways : BitVec 11 → List (Option TbSlot)
  lost : BitVec 11 → Bool
  ghLive : Int

/-- The ways of an empty set. -/
def emptyWays : List (Option TbSlot) := List.replicate kTbIdxWays none

namespace TbIndex

def empty : TbIndex where
  ways := fun _ => emptyWays
  lost := fun _ => false
  ghLive := 0

/-- The way `tb_idx_insert` takes: the slot's own, the first empty one, or the last. -/
def insertWay (w : List (Option TbSlot)) (slot : TbSlot) : Nat :=
  min (w.findIdx fun x => x == some slot || x == none) (kTbIdxWays - 1)

/-- `tb_idx_insert`: at way 0, the ways before the one taken sliding down; a last way of someone
else's falls out and marks the set. -/
def insert (ix : TbIndex) (virt : BitVec 64) (slot : TbSlot) : TbIndex :=
  let set := tbIdxSet virt
  let w := ix.ways set
  let k := insertWay w slot
  let fallsOut := w[k]? != some (some slot) && w[k]? != some none
  { ix with
    ways := Function.update ix.ways set (some slot :: w.eraseIdx k)
    lost := if fallsOut then Function.update ix.lost set true else ix.lost }

/-- `tb_idx_remove`: the ways after the slot's slide up. -/
def remove (ix : TbIndex) (virt : BitVec 64) (slot : TbSlot) : TbIndex :=
  let set := tbIdxSet virt
  let w := ix.ways set
  match w.findIdx? (· == some slot) with
  | some k => { ix with ways := Function.update ix.ways set (w.eraseIdx k ++ [none]) }
  | none => ix

/-- `tb_idx_drop`: the entry `e` leaves `slot`. -/
def drop (ix : TbIndex) (e : STBEntry) (slot : TbSlot) : TbIndex :=
  if tbIdx8k e.matchMask then ix.remove e.virt slot else { ix with ghLive := ix.ghLive - 1 }

/-- `tb_idx_add`: the entry `e` enters `slot`. -/
def add (ix : TbIndex) (e : STBEntry) (slot : TbSlot) : TbIndex :=
  if tbIdx8k e.matchMask then ix.insert e.virt slot else { ix with ghLive := ix.ghLive + 1 }

/-- One TB's part of `tb_idx_rebuild`. -/
def rebuild (tb : TbSlot → STBEntry) : TbIndex :=
  (List.finRange TB_ENTRIES).foldl
    (fun ix i => if (tb i).valid then ix.add (tb i) i else ix) empty

end TbIndex

end Alphabox.Cpu
