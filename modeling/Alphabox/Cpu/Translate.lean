import Alphabox.Cpu.Tb
import Alphabox.Cpu.PageCache

/-!
# Address translation (`cpu/AlphaCPU.cpp`, `cpu/AlphaCPU.hpp`, `cpu/cpu_pal.hpp`)

The two TBs of a 21264 with what is derived from them: the index, the shadow of 8 KB data
translations and the data page cache. The counters, the vector unit's kept translations and the
JIT's epochs are left out: no translation depends on them.
-/

namespace Alphabox.Cpu

open Function (update)

/-! ## The state -/

/-- `tb_shadow_index`: VA bits `<24:13>`. -/
def tbShadowIndex (va : BitVec 64) : BitVec 12 := va.extractLsb' 13 12

/-- What the TB functions use of `state`, the part a state file holds. -/
structure CpuState where
  tb : Tb → TbSlot → STBEntry
  nextTb : Tb → TbSlot
  /-- By TB and by whether the access writes. -/
  lastFoundTb : Tb → Bool → TbSlot
  lastTbVirt : BitVec 64
  asn : Nat
  asn0 : Nat
  asn1 : Nat
  cm : Fin 4
  altCm : Fin 4
  iCtlSpe : BitVec 3
  mCtlSpe : BitVec 3
  iCtlVaMode : BitVec 2
  vaCtlVaMode : BitVec 2

/-- A processor: the saved state, and what is derived from it and not saved. -/
structure AlphaCPU extends CpuState where
  idx : Tb → TbIndex
  shadow : BitVec 12 → STBEntry
  dpc : PageCache
  /-- `m_dpc_keep`. -/
  dpcKeep : Bool
  /-- `last_dtb_virt`, by fill port. -/
  lastDtbVirt : Bool → BitVec 64

/-- At power-up: both TBs, the shadow and the page cache empty. -/
def AlphaCPU.init (dpcKeep : Bool) : AlphaCPU where
  tb := fun _ _ => STBEntry.zero
  nextTb := fun _ => 0
  lastFoundTb := fun _ _ => 0
  lastTbVirt := 0
  asn := 0
  asn0 := 0
  asn1 := 0
  cm := 0
  altCm := 0
  iCtlSpe := 0
  mCtlSpe := 0
  iCtlVaMode := 0
  vaCtlVaMode := 0
  idx := fun _ => TbIndex.empty
  shadow := fun _ => STBEntry.zero
  dpc := PageCache.init
  dpcKeep := dpcKeep
  lastDtbVirt := fun _ => 0

namespace AlphaCPU

def setEntry (c : AlphaCPU) (t : Tb) (i : TbSlot) (e : STBEntry) : AlphaCPU :=
  { c with tb := update c.tb t (update (c.tb t) i e) }

def setIdx (c : AlphaCPU) (t : Tb) (ix : TbIndex) : AlphaCPU := { c with idx := update c.idx t ix }

def setShadow (c : AlphaCPU) (k : BitVec 12) (e : STBEntry) : AlphaCPU :=
  { c with shadow := update c.shadow k e }

def setNext (c : AlphaCPU) (t : Tb) (i : TbSlot) : AlphaCPU := { c with nextTb := update c.nextTb t i }

def setLastFound (c : AlphaCPU) (t : Tb) (rw : Bool) (i : TbSlot) : AlphaCPU :=
  { c with lastFoundTb := update c.lastFoundTb t (update (c.lastFoundTb t) rw i) }

/-- `flush_data_page_cache`. -/
def flushDataPageCache (c : AlphaCPU) : AlphaCPU := { c with dpc := c.dpc.flush }

/-- `flush_data_page_cache_range`. -/
def flushDataPageCacheRange (c : AlphaCPU) (virt matchMask : BitVec 64) : AlphaCPU :=
  { c with dpc := c.dpc.flushRange c.dpcKeep virt matchMask }

/-- `tb_idx_drop`. -/
def tbIdxDrop (c : AlphaCPU) (t : Tb) (slot : TbSlot) : AlphaCPU :=
  c.setIdx t ((c.idx t).drop (c.tb t slot) slot)

/-- `tb_idx_add`. -/
def tbIdxAdd (c : AlphaCPU) (t : Tb) (slot : TbSlot) : AlphaCPU :=
  c.setIdx t ((c.idx t).add (c.tb t slot) slot)

/-- The ASN a lookup in `t` matches, `TB_ASN_MATCH`. -/
def asnOf (c : AlphaCPU) : Tb → Nat
  | .dtb => c.asn0
  | .itb => c.asn

/-! ## The page cache keeps what the TB or its shadow still maps -/

/-- `same` of `dtb_still_maps`: `x` is a live 8 KB translation of the page and address space
of `e`. -/
def sameAs (e x : STBEntry) : Bool :=
  x.valid && x.matchMask == ghMatch 0 && x.virt == e.virt &&
    (if x.asmBit then e.asmBit else !e.asmBit && x.asn == e.asn)

/-- `dtb_still_maps`. -/
def dtbStillMaps (c : AlphaCPU) (e : STBEntry) : Bool :=
  if e.matchMask != ghMatch 0 then false
  else
    sameAs e (c.shadow (tbShadowIndex e.virt)) ||
    (Lib.front ((c.idx .dtb).ways (tbIdxSet e.virt))).any (fun i => sameAs e (c.tb .dtb i)) ||
    ((c.idx .dtb).lost (tbIdxSet e.virt) &&
      (List.finRange TB_ENTRIES).any fun j => sameAs e (c.tb .dtb j))

/-- `drop_unmapped_page`. -/
def dropUnmappedPage (c : AlphaCPU) (e : STBEntry) : AlphaCPU :=
  if e.valid && !c.dtbStillMaps e then c.flushDataPageCacheRange e.virt e.matchMask else c

/-! ## Lookup -/

/-- The loop over all the entries of a TB. -/
def scan (c : AlphaCPU) (t : Tb) (virt : BitVec 64) (asn : Nat) : Option TbSlot :=
  (List.finRange TB_ENTRIES).find? fun j => (c.tb t j).hits virt asn

/-- `FindTBEntry` between its last-match guess and the shadow: the index, with a scan where a set
overflowed, or the scan alone while an entry with a granularity hint is live. -/
def searchTb (c : AlphaCPU) (t : Tb) (virt : BitVec 64) (asn : Nat) : Option (TbSlot × AlphaCPU) :=
  if (c.idx t).ghLive = 0 then
    match (Lib.front ((c.idx t).ways (tbIdxSet virt))).find? fun i => (c.tb t i).hits virt asn with
    | some i => some (i, c)
    | none =>
      if (c.idx t).lost (tbIdxSet virt) then
        (c.scan t virt asn).map fun j => (j, c.setIdx t ((c.idx t).insert (c.tb t j).virt j))
      else none
  else (c.scan t virt asn).map fun j => (j, c)

/-- `tb_refill_from_shadow`. -/
def tbRefillFromShadow (c : AlphaCPU) (virt : BitVec 64) (asn : Nat) : Option (TbSlot × AlphaCPU) :=
  let sh := c.shadow (tbShadowIndex virt)
  if !sh.valid || sh.virt != virt &&& sh.matchMask || !(sh.asmBit || sh.asn == asn) then none
  else
    let i := c.nextTb .dtb
    let c := c.setNext .dtb (i + 1)
    let victim := c.tb .dtb i
    let c :=
      if victim.valid then
        (if !c.dpcKeep then c.flushDataPageCacheRange victim.virt victim.matchMask
          else c).tbIdxDrop .dtb i
      else c
    let c := (c.setEntry .dtb i sh).tbIdxAdd .dtb i
    let c := if c.dpcKeep then c.dropUnmappedPage victim else c
    some (i, c)

/-- `FindTBEntry`, in TB `t` for an access that writes if `rw`. -/
def findTBEntry (c : AlphaCPU) (virt : BitVec 64) (t : Tb) (rw : Bool) : Option TbSlot × AlphaCPU :=
  let last := c.lastFoundTb t rw
  if (c.tb t last).hits virt (c.asnOf t) then (some last, c)
  else
    match c.searchTb t virt (c.asnOf t) with
    | some (i, c) => (some i, c.setLastFound t rw i)
    | none =>
      match t with
      | .itb => (none, c)
      | .dtb =>
        match c.tbRefillFromShadow virt c.asn0 with
        | some (i, c) => (some i, c.setLastFound .dtb rw i)
        | none => (none, c)

/-! ## Translation -/

/-- The flags of an access: `ACCESS_EXEC`, `ACCESS_WRITE`, `NO_CHECK`, `WRCHK`, `VPTE`, `ALT`. -/
structure Flags where
  exec : Bool := false
  write : Bool := false
  noCheck : Bool := false
  wrchk : Bool := false
  vpte : Bool := false
  alt : Bool := false

/-- The TB an access uses. -/
def Flags.tb (f : Flags) : Tb := if f.exec then .itb else .dtb

/-- What a translation found: `XL_OK` with its address, `XL_ACV`, `XL_MISS` or `XL_FAULT`. -/
inductive Xlate where
  | ok (phys : BitVec 64)
  | acv
  | miss
  | fault
  deriving DecidableEq

/-- `alpha_sext_u64_43`. -/
def alphaSext43 (a : BitVec 64) : BitVec 64 :=
  if a &&& 0x0000040000000000#64 ≠ 0 then a ||| 0xfffff80000000000#64
  else a &&& 0x000007ffffffffff#64

/-- `sext_u64_48`. -/
def sext48 (a : BitVec 64) : BitVec 64 :=
  if a &&& 0x0000800000000000#64 ≠ 0 then a ||| 0xffff000000000000#64
  else a &&& 0x0000ffffffffffff#64

/-- `alpha_valid_va_form`. -/
def alphaValidVaForm (virt : BitVec 64) (va48 : Bool) : Bool :=
  (if va48 then sext48 virt else alphaSext43 virt) == virt

/-- The superpage that maps `virt` with `spe` enabled, and where it does. -/
def superpage (spe : BitVec 3) (virt : BitVec 64) : Option (BitVec 64) :=
  if virt &&& 0x0000c00000000000#64 = 0x0000800000000000#64 ∧ spe.getLsbD 2 then
    some (virt &&& 0x00000fffffffffff#64)
  else if virt &&& 0x0000fe0000000000#64 = 0x0000fc0000000000#64 ∧ spe.getLsbD 1 then
    some ((virt &&& 0x000001ffffffffff#64) |||
      (if virt &&& 0x0000010000000000#64 ≠ 0 then 0x00000e0000000000#64 else 0))
  else if virt &&& 0x0000ffffc0000000#64 = 0x0000ffff80000000#64 ∧ spe.getLsbD 0 then
    some (virt &&& 0x000000003fffffff#64)
  else none

/-- What an entry grants an access: the tail of `virt2phys_fast`. -/
def checkEntry (e : STBEntry) (virt : BitVec 64) (f : Flags) (cm : Fin 4) : Xlate :=
  let rw : Fin 2 := if f.write then 1 else 0
  -- flags & ACCESS_MODE; ACCESS_EXEC with ACCESS_WRITE is not used
  let mode : Fin 3 := if f.exec then 2 else if f.write then 1 else 0
  if !f.noCheck && (!e.access rw cm || f.wrchk && !e.access 1 cm) then .acv
  else if !f.noCheck && (e.fault mode || f.wrchk && e.fault 1) then .fault
  else .ok (e.phys ||| (virt &&& e.keepMask))

/-- Whether an access takes 48-bit virtual addresses. -/
def va48 (c : AlphaCPU) (f : Flags) : Bool :=
  if f.exec then c.iCtlVaMode.getLsbD 0 else c.vaCtlVaMode.getLsbD 0

/-- The superpages enabled for an access. -/
def spe (c : AlphaCPU) (f : Flags) : BitVec 3 := if f.exec then c.iCtlSpe else c.mCtlSpe

/-- The mode an access is checked in. -/
def checkMode (c : AlphaCPU) (f : Flags) : Fin 4 :=
  if f.vpte then 0 else if f.alt then c.altCm else c.cm

/-- `virt2phys_fast`. -/
def virt2physFast (c : AlphaCPU) (virt : BitVec 64) (f : Flags) (cm : Fin 4) : Xlate × AlphaCPU :=
  if !alphaValidVaForm virt (c.va48 f) then (.acv, c)
  else
    match superpage (c.spe f) virt with
    | some phys => if cm ≠ 0 then (.acv, c) else (.ok phys, c)
    | none =>
      match c.findTBEntry virt f.tb f.write with
      | (none, c) => (.miss, c)
      | (some i, c) => (checkEntry (c.tb f.tb i) virt f cm, c)

/-- `virt2phys`, less the exception it vectors when the translation is not `XL_OK`. -/
def virt2phys (c : AlphaCPU) (virt : BitVec 64) (f : Flags) : Xlate × AlphaCPU :=
  c.virt2physFast virt f (c.checkMode f)

/-- The slot that answers a normal access, from level 1 or promoted from level 2: the cache after
the probe. -/
def dpcProbe (c : AlphaCPU) (va : BitVec 64) (rw : Bool) : Option PageCache :=
  if (c.dpc.l1 rw (dpcIndex va)).answers (pageOf va) c.cm c.asn0 then some c.dpc
  else c.dpc.promote rw (dpcIndex va) (pageOf va) c.cm c.asn0

/-- `DATA_PHYS_NT` of a normal read or write. -/
def dataPhysNt (c : AlphaCPU) (va : BitVec 64) (rw : Bool) : Xlate × AlphaCPU :=
  match c.dpcProbe va rw with
  | some dpc => (.ok ((dpc.l1 rw (dpcIndex va)).physBase ||| (va &&& 0x1fff#64)), { c with dpc })
  | none =>
    match c.virt2phys va { write := rw } with
    | (.ok phys, c) => (.ok phys, { c with dpc := c.dpc.put rw va phys c.cm c.asn0 })
    | r => r

/-! ## Insertion -/

/-- The slot `add_tb` fills: the first entry that matches, or the next in turn. -/
def addSlot (c : AlphaCPU) (t : Tb) (virt : BitVec 64) (asn : Nat) : TbSlot × AlphaCPU :=
  match c.scan t virt asn with
  | some i => (i, c)
  | none => (c.nextTb t, c.setNext t (c.nextTb t + 1))

/-- `add_tb` once it has its slot: the entry, the index, the shadow (of an 8 KB data translation)
and the last match. -/
def addTbFill (c : AlphaCPU) (e : STBEntry) (virt : BitVec 64) (t : Tb) (rw : Bool) (i : TbSlot) :
    AlphaCPU :=
  let oldEntry := c.tb t i
  let c := c.setEntry t i e
  let c :=
    if oldEntry.valid then
      c.setIdx t
        (if oldEntry.matchMask == ghMatch 0 then (c.idx t).remove oldEntry.virt i
          else { c.idx t with ghLive := (c.idx t).ghLive - 1 })
    else c
  let c := c.tbIdxAdd t i
  let c :=
    if t = .dtb ∧ e.matchMask = ghMatch 0 then c.setShadow (tbShadowIndex virt) (c.tb t i) else c
  c.setLastFound t rw i

/-- `add_tb` on the data side last: what the fill replaced in the TB and in the shadow stays in
the page cache only while it is still mapped, and the new entry's page goes. -/
def addTbFlush (c : AlphaCPU) (oldEntry oldShadow : STBEntry) (virt matchMask : BitVec 64) :
    AlphaCPU :=
  let c :=
    if oldEntry.valid && !c.dpcKeep then
      c.flushDataPageCacheRange oldEntry.virt oldEntry.matchMask
    else if oldEntry.valid then c.dropUnmappedPage oldEntry
    else c
  let c := if c.dpcKeep then c.dropUnmappedPage oldShadow else c
  c.flushDataPageCacheRange virt matchMask

/-- `add_tb`. -/
def addTb (c : AlphaCPU) (virt ptePhys pteFlags : BitVec 64) (t : Tb) (rw : Bool) (asn : Nat) :
    AlphaCPU :=
  let e := STBEntry.ofPte virt ptePhys pteFlags asn
  let (i, c) := c.addSlot t virt asn
  let oldEntry := c.tb t i
  let oldShadow :=
    if e.matchMask = ghMatch 0 then c.shadow (tbShadowIndex virt) else STBEntry.zero
  let c := c.addTbFill e virt t rw i
  match t with
  | .itb => c
  | .dtb => c.addTbFlush oldEntry oldShadow virt e.matchMask

/-- `add_tb_d`: DTB_PTE format, fill port 0 or 1. -/
def addTbD (c : AlphaCPU) (virt pte : BitVec 64) (dtb : Bool) : AlphaCPU :=
  c.addTb virt (pte >>> 19) pte .dtb false (if dtb then c.asn1 else c.asn0)

/-- `add_tb_i`: ITB_PTE format. -/
def addTbI (c : AlphaCPU) (virt pte : BitVec 64) : AlphaCPU :=
  c.addTb virt pte (pte &&& 0xf70#64) .itb false c.asn

/-! ## Invalidation -/

/-- One entry is invalidated and leaves the index. -/
def killEntry (c : AlphaCPU) (t : Tb) (i : TbSlot) : AlphaCPU :=
  (c.setEntry t i (c.tb t i).invalidate).tbIdxDrop t i

/-- `tbia`. -/
def tbia (c : AlphaCPU) (t : Tb) : AlphaCPU :=
  let c := { c with
    tb := update c.tb t fun i => (c.tb t i).invalidate
    idx := update c.idx t TbIndex.empty
    lastFoundTb := update c.lastFoundTb t fun _ => 0
    nextTb := update c.nextTb t 0 }
  match t with
  | .itb => c
  | .dtb => { c with shadow := fun k => (c.shadow k).invalidate }.flushDataPageCache

/-- `tbiap`. -/
def tbiap (c : AlphaCPU) (t : Tb) : AlphaCPU :=
  let c := (List.finRange TB_ENTRIES).foldl
    (fun c i => if !(c.tb t i).asmBit && (c.tb t i).valid then c.killEntry t i else c) c
  match t with
  | .itb => c
  | .dtb =>
    { c with shadow := fun k =>
        if !(c.shadow k).asmBit then (c.shadow k).invalidate else c.shadow k }.flushDataPageCache

/-- One turn of `tbis_d`'s loop. -/
def tbisDSlot (virt : BitVec 64) (asn : Nat) (c : AlphaCPU) (i : TbSlot) : AlphaCPU :=
  if (c.tb .dtb i).hits virt asn then
    (c.killEntry .dtb i).flushDataPageCacheRange (c.tb .dtb i).virt (c.tb .dtb i).matchMask
  else c

/-- `tbis_d`. -/
def tbisD (c : AlphaCPU) (virt : BitVec 64) (asn : Nat) : AlphaCPU :=
  let sh := c.shadow (tbShadowIndex virt)
  let c :=
    if sh.valid && sh.virt == virt &&& sh.matchMask && (sh.asmBit || sh.asn == asn) then
      c.setShadow (tbShadowIndex virt) sh.invalidate
    else c
  let c := (List.finRange TB_ENTRIES).foldl (tbisDSlot virt asn) c
  c.flushDataPageCacheRange virt (0xfffffffffffff000#64 ||| 0x2000#64)

/-- The shadow's part of `tbis`: the page goes under every ASN. -/
def tbisShadow (c : AlphaCPU) (virt : BitVec 64) : AlphaCPU :=
  let sh := c.shadow (tbShadowIndex virt)
  if sh.valid && sh.virt == virt &&& sh.matchMask then
    c.setShadow (tbShadowIndex virt) sh.invalidate
  else c

/-- `tbis`: on the data side under both ASNs; on the instruction side the entry the lookup
finds. -/
def tbis (c : AlphaCPU) (virt : BitVec 64) (t : Tb) : AlphaCPU :=
  match t with
  | .dtb =>
    let c := (c.tbisShadow virt).tbisD virt c.asn0
    if c.asn1 ≠ c.asn0 then c.tbisD virt c.asn1 else c
  | .itb =>
    match c.findTBEntry virt .itb false with
    | (some i, c) => c.killEntry .itb i
    | (none, c) => c

/-! ## The IPRs -/

/-- The IPRs of `hw_mtpr` that address translation uses. `PCTX` is its write of the ASN. -/
inductive Ipr where
  | ITB_TAG | ITB_PTE | ITB_IAP | ITB_IA | ITB_IS
  | CM | IER_CM | I_CTL | PCTX
  | DTB_TAG (port : Bool) | DTB_PTE (port : Bool) | DTB_IS (port : Bool) | DTB_ASN (port : Bool)
  | DTB_ALTMODE | M_CTL | DTB_IAP | DTB_IA | VA_CTL

/-- `hw_mtpr`. -/
def hwMtpr (c : AlphaCPU) (ipr : Ipr) (value : BitVec 64) : AlphaCPU :=
  match ipr with
  | .PCTX => { c with asn := (value.extractLsb' 39 8).toNat }.flushDataPageCache
  | .ITB_TAG => { c with lastTbVirt := value }
  | .ITB_PTE => c.addTbI c.lastTbVirt value
  | .ITB_IAP => c.tbiap .itb
  | .ITB_IA => c.tbia .itb
  | .ITB_IS => c.tbis value .itb
  | .CM | .IER_CM => { c with cm := (value.extractLsb' 3 2).toFin }
  | .I_CTL =>
    { c with iCtlSpe := value.extractLsb' 3 3, iCtlVaMode := value.extractLsb' 15 2 }
  | .DTB_TAG port => { c with lastDtbVirt := update c.lastDtbVirt port value }
  | .DTB_PTE port => c.addTbD (c.lastDtbVirt port) value port
  | .DTB_IS port => c.tbisD value (if port then c.asn1 else c.asn0)
  | .DTB_ASN false => { c with asn0 := (value >>> 56).toNat }.flushDataPageCache
  | .DTB_ASN true => { c with asn1 := (value >>> 56).toNat }.flushDataPageCache
  | .DTB_ALTMODE => { c with altCm := (value.extractLsb' 0 2).toFin }
  | .M_CTL => { c with mCtlSpe := value.extractLsb' 1 3 }.flushDataPageCache
  | .DTB_IAP => c.tbiap .dtb
  | .DTB_IA => c.tbia .dtb
  | .VA_CTL => ({ c with vaCtlVaMode := value.extractLsb' 1 2 }.flushDataPageCache).tbia .dtb

end AlphaCPU

end Alphabox.Cpu
