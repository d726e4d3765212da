import Alphabox.Cpu.Translate

/-!
# The native EV8's TB (`cpu/AlphaCPU_ev8.cpp`, `cpu/cpu_pal_ev8.hpp`)

An entry of the 21464's TB belongs to the TPU group it was filled in. The emulator keeps the
21264's two TBs, adds the group and a presence mark to each entry, and has `valid` say "present
and of the current group", so that `FindTBEntry` and the index stay as they are.

`GroupTb` is the TB the chip documents: group-tagged entries, of which a lookup sees those of the
current group.
-/

namespace Alphabox.Cpu

open Function (update)

/-! ## Entries -/

/-- `ev8_va52`: VA_SIZE and PAGE_SIZE of I_CTL or M_CTL both set. -/
def ev8Va52 (ctl : BitVec 64) : Bool := ctl &&& (3#64 <<< 20) == 3#64 <<< 20

/-- The page shift of a fill: 8 KB pages, or 64 KB with 52-bit addresses, and 8 times as much for
each step of the granularity hint. -/
def ev8Base (va52 : Bool) : Nat := if va52 then 16 else 13

/-- `keep` of `ev8_add_tb`. -/
def ev8Keep (va52 : Bool) (pte : BitVec 64) : BitVec 64 :=
  (1#64 <<< (ev8Base va52 + 3 * (granularity pte).val)) - 1#64

/-- `match` of `ev8_add_tb`: VA bits `<51:shift>`. -/
def ev8Match (va52 : Bool) (pte : BitVec 64) : BitVec 64 :=
  0x000fffffffffffff#64 &&& ~~~ev8Keep va52 pte

/-- The entry `ev8_add_tb` makes of an ITB_PTE or DTB_PTE. -/
def STBEntry.ofEv8Pte (t : Tb) (va52 : Bool) (virt pte : BitVec 64) (asn : Nat) : STBEntry where
  virt := virt &&& ev8Match va52 pte
  phys := ((pte >>> 32) <<< ev8Base va52) &&& 0x0000ffffffffffff#64 &&& ~~~ev8Keep va52 pte
  matchMask := ev8Match va52 pte
  keepMask := ev8Keep va52 pte
  asn := asn
  asmBit := pte.getLsbD 4
  -- the ITB has no write enables and no fault bits
  access := fun rw cm => (rw == 0 || t == .dtb) && pte.getLsbD (8 + 4 * rw.val + cm.val)
  fault := fun k => t == .dtb && k != 2 && pte.getLsbD (1 + k.val)
  valid := true

/-! ## The processor -/

/-- A native EV8: the 21264's state, `ev8_present` and `ev8_grp` of each entry, and `m_ev8`'s
`i_grp` and `m_grp`, `i_ctl` and `m_ctl` and `invalid_ptes`. -/
structure Ev8 where
  cpu : AlphaCPU
  present : Tb → TbSlot → Bool
  /-- A byte. -/
  entryGrp : Tb → TbSlot → Nat
  grp : Tb → Nat
  ctl : Tb → BitVec 64
  invalidPtes : Nat

namespace Ev8

/-- The entry of a slot is there, in the stream's group. -/
def inGroup (s : Ev8) (t : Tb) (j : TbSlot) : Bool := s.present t j && s.entryGrp t j == s.grp t

/-- `ev8_tb_changed`. -/
def tbChanged (c : AlphaCPU) : Tb → AlphaCPU
  | .dtb => c.flushDataPageCache
  | .itb => c

/-- `tb_idx_rebuild`. -/
def tbIdxRebuild (c : AlphaCPU) : AlphaCPU := { c with idx := fun t => TbIndex.rebuild (c.tb t) }

/-! ### Fills -/

/-- The entry of this group that a fill of the page replaces. -/
def sameSlot (s : Ev8) (t : Tb) (virt : BitVec 64) (asn : Nat) (asmBit : Bool) : Option TbSlot :=
  (List.finRange TB_ENTRIES).find? fun j =>
    s.inGroup t j && (s.cpu.tb t j).covers virt &&
      ((s.cpu.tb t j).asmBit || (s.cpu.tb t j).asn == asn || asmBit)

/-- The slot of a fill: the page's own, or the next in turn. -/
def fillSlot (s : Ev8) (t : Tb) (virt : BitVec 64) (asn : Nat) (asmBit : Bool) : TbSlot × Ev8 :=
  match s.sameSlot t virt asn asmBit with
  | some i => (i, s)
  | none => (s.cpu.nextTb t, { s with cpu := s.cpu.setNext t (s.cpu.nextTb t + 1) })

/-- `ev8_add_tb` once it has its slot. -/
def fill (s : Ev8) (t : Tb) (virt : BitVec 64) (e : STBEntry) (i : TbSlot) : Ev8 :=
  let old := s.cpu.tb t i
  let c := if old.valid then s.cpu.tbIdxDrop t i else s.cpu
  let c := (c.setEntry t i e).tbIdxAdd t i
  let c := (c.setLastFound t false i).setLastFound t true i
  { s with
    cpu :=
      match t with
      | .itb => c
      | .dtb =>
        (if old.valid then c.flushDataPageCacheRange old.virt old.matchMask
          else c).flushDataPageCacheRange virt e.matchMask
    present := update s.present t (update (s.present t) i true)
    entryGrp := update s.entryGrp t (update (s.entryGrp t) i (s.grp t % 256)) }

/-- `ev8_add_tb`. A DTB_PTE with VALID clear is dropped. -/
def addTb (s : Ev8) (t : Tb) (virt pte : BitVec 64) : Ev8 :=
  if t = .dtb ∧ pte.getLsbD 0 = false then { s with invalidPtes := s.invalidPtes + 1 }
  else
    let e := STBEntry.ofEv8Pte t (ev8Va52 (s.ctl t)) virt pte (s.cpu.asnOf t)
    let (i, s) := s.fillSlot t virt e.asn e.asmBit
    s.fill t virt e i

/-! ### Invalidates -/

/-- An entry leaves its slot, and the index when it is in it. -/
def drop (s : Ev8) (t : Tb) (j : TbSlot) : Ev8 :=
  let c := if (s.cpu.tb t j).valid then s.cpu.tbIdxDrop t j else s.cpu
  { s with
    cpu := c.setEntry t j (c.tb t j).invalidate
    present := update s.present t (update (s.present t) j false) }

/-- The entries a mode of ITB_IM or DTB_IM names, of a stream in group `grp` and address space
`asn`: bit 0 this group only, 1 ASM entries only, 2 the others only, 3 this ASN only. -/
def imSelects (mode : BitVec 64) (grp asn entryGrp : Nat) (e : STBEntry) : Bool :=
  (!mode.getLsbD 0 || entryGrp == grp) && (!mode.getLsbD 1 || e.asmBit) &&
    (!mode.getLsbD 2 || !e.asmBit) && (!mode.getLsbD 3 || e.asn == asn)

/-- One turn of `ev8_tb_im`'s loop. -/
def tbImSlot (t : Tb) (mode : BitVec 64) (s : Ev8) (j : TbSlot) : Ev8 :=
  if s.present t j && imSelects mode (s.grp t) (s.cpu.asnOf t) (s.entryGrp t j) (s.cpu.tb t j) then
    s.drop t j
  else s

/-- `ev8_tb_im`: mode bit 4 resets the write pointer. -/
def tbIm (s : Ev8) (t : Tb) (mode : BitVec 64) : Ev8 :=
  let s := (List.finRange TB_ENTRIES).foldl (tbImSlot t mode) s
  let c := if mode.getLsbD 4 then s.cpu.setNext t 0 else s.cpu
  { s with cpu := tbChanged c t }

/-- What `ev8_tb_is` drops: the entries that map `va` in this group and address space. -/
def isSelects (va : BitVec 64) (grp asn entryGrp : Nat) (e : STBEntry) : Bool :=
  entryGrp == grp && e.covers va && (e.asmBit || e.asn == asn)

/-- One turn of `ev8_tb_is`'s loop. -/
def tbIsSlot (t : Tb) (va : BitVec 64) (s : Ev8) (j : TbSlot) : Ev8 :=
  if s.present t j && isSelects va (s.grp t) (s.cpu.asnOf t) (s.entryGrp t j) (s.cpu.tb t j) then
    let e := s.cpu.tb t j
    let s := s.drop t j
    match t with
    | .itb => s
    | .dtb => { s with cpu := s.cpu.flushDataPageCacheRange e.virt e.matchMask }
  else s

/-- `ev8_tb_is`. -/
def tbIs (s : Ev8) (t : Tb) (va : BitVec 64) : Ev8 :=
  let s := (List.finRange TB_ENTRIES).foldl (tbIsSlot t va) s
  match t with
  | .itb => s
  | .dtb => { s with cpu := s.cpu.flushDataPageCacheRange va 0x000fffffffffe000#64 }

/-! ### Groups and address spaces -/

/-- `ev8_set_group`. -/
def setGroup (s : Ev8) (t : Tb) (grp : Nat) : Ev8 :=
  if s.grp t = grp then s
  else
    let c := { s.cpu with
      tb := update s.cpu.tb t fun j =>
        { s.cpu.tb t j with valid := s.present t j && s.entryGrp t j == grp } }
    { s with
      grp := update s.grp t grp
      cpu := tbChanged (tbIdxRebuild c) t }

/-- The ASN field of I_PCTX or M_PCTX. -/
def setAsn (s : Ev8) (t : Tb) (asn : Nat) : Ev8 :=
  { s with
    cpu :=
      match t with
      | .itb => { s.cpu with asn }
      | .dtb => { s.cpu with asn0 := asn, asn1 := asn }.flushDataPageCache }

/-- A write of I_PCTX or M_PCTX, `index` saying which fields: bit 0 the ASN, bit 1 the group. -/
def pctx (s : Ev8) (t : Tb) (index : BitVec 2) (value : BitVec 64) : Ev8 :=
  let s := if index.getLsbD 0 then s.setAsn t (value.extractLsb' 8 8).toNat else s
  if index.getLsbD 1 then s.setGroup t (value.extractLsb' 16 2).toNat else s

/-- I_CTL or M_CTL `ctl` after a write of the fields in `mask`. -/
def mergeCtl (ctl mask value : BitVec 64) : BitVec 64 := ctl &&& ~~~mask ||| value &&& mask

/-- A write of I_CTL or M_CTL, of the fields in `mask`. -/
def writeCtl (s : Ev8) (t : Tb) (mask value : BitVec 64) : Ev8 :=
  let ctl := mergeCtl (s.ctl t) mask value
  { s with
    ctl := update s.ctl t ctl
    cpu :=
      match t with
      | .itb => { s.cpu with iCtlSpe := ctl.extractLsb' 24 3 }
      | .dtb => { s.cpu with mCtlSpe := ctl.extractLsb' 24 3 }.flushDataPageCache }

/-! ### Reset -/

/-- `ev8_tb_clear`. -/
def tbClear (s : Ev8) (t : Tb) : Ev8 :=
  { s with
    cpu := s.cpu.tbia t
    present := update s.present t fun _ => false
    entryGrp := update s.entryGrp t fun _ => 0 }

/-- `ev8_reset`: `m_ev8` as constructed, the address spaces 0, both TBs clear. -/
def reset (s : Ev8) : Ev8 :=
  let s : Ev8 := { s with
    grp := fun _ => 0
    ctl := fun _ => 0
    invalidPtes := 0
    cpu := { s.cpu with
      cm := 0, altCm := 0, asn := 0, asn0 := 0, asn1 := 0, iCtlSpe := 0, mCtlSpe := 0
      iCtlVaMode := 0, vaCtlVaMode := 0, lastTbVirt := 0, lastDtbVirt := fun _ => 0 } }
  let s := (s.tbClear .dtb).tbClear .itb
  { s with cpu := s.cpu.flushDataPageCache }

/-- The operations on the TBs. -/
inductive Op where
  | addTb (t : Tb) (virt pte : BitVec 64)
  | tbIm (t : Tb) (mode : BitVec 64)
  | tbIs (t : Tb) (va : BitVec 64)
  | setGroup (t : Tb) (grp : Nat)
  | setAsn (t : Tb) (asn : Nat)
  | pctx (t : Tb) (index : BitVec 2) (value : BitVec 64)
  | writeCtl (t : Tb) (mask value : BitVec 64)
  | find (t : Tb) (va : BitVec 64) (rw : Bool)

/-- The stream an operation is on. -/
def Op.tb : Op → Tb
  | .addTb t .. | .tbIm t _ | .tbIs t _ | .setGroup t _ | .setAsn t _ | .pctx t .. | .writeCtl t ..
  | .find t .. => t

def step (s : Ev8) : Op → Ev8
  | .addTb t virt pte => s.addTb t virt pte
  | .tbIm t mode => s.tbIm t mode
  | .tbIs t va => s.tbIs t va
  | .setGroup t grp => s.setGroup t grp
  | .setAsn t asn => s.setAsn t asn
  | .pctx t index value => s.pctx t index value
  | .writeCtl t mask value => s.writeCtl t mask value
  | .find t va rw => { s with cpu := (s.cpu.findTBEntry va t rw).2 }

/-- A group the entry's byte holds; the registers' two bits are. -/
def Op.Ok : Op → Prop
  | .setGroup _ grp => grp < 256
  | _ => True

end Ev8

/-! ## The TB the chip documents -/

/-- An entry with the group it was filled in. -/
structure GroupEntry where
  grp : Nat
  page : STBEntry

/-- A TB tagged by group: its entries, the replacement pointer, and the stream's group, address
space and I_CTL or M_CTL. -/
structure GroupTb where
  slots : TbSlot → Option GroupEntry
  next : TbSlot
  grp : Nat
  asn : Nat
  ctl : BitVec 64

namespace GroupTb

def empty : GroupTb := ⟨fun _ => none, 0, 0, 0, 0⟩

/-- Slot `i` translates `va`: its entry is of the current group, covers the address and is of the
current address space. -/
def Matches (r : GroupTb) (va : BitVec 64) (i : TbSlot) : Prop :=
  ∃ x, r.slots i = some x ∧ x.grp = r.grp ∧ x.page.covers va = true ∧
    (x.page.asmBit = true ∨ x.page.asn = r.asn)

/-- The entry that a fill of the page replaces. -/
def sameSlot (r : GroupTb) (virt : BitVec 64) (asmBit : Bool) : Option TbSlot :=
  (List.finRange TB_ENTRIES).find? fun j =>
    match r.slots j with
    | some x =>
      x.grp == r.grp && x.page.covers virt && (x.page.asmBit || x.page.asn == r.asn || asmBit)
    | none => false

/-- A fill replaces the page's own entry, or the one the pointer is at. -/
def add (r : GroupTb) (virt : BitVec 64) (e : STBEntry) : GroupTb :=
  match r.sameSlot virt e.asmBit with
  | some i => { r with slots := update r.slots i (some ⟨r.grp, e⟩) }
  | none => { r with slots := update r.slots r.next (some ⟨r.grp, e⟩), next := r.next + 1 }

/-- The entries that meet `p` are deleted. -/
def delete (r : GroupTb) (p : GroupEntry → Bool) : GroupTb :=
  { r with slots := fun i => (r.slots i).filter fun x => !p x }

/-- An operation on stream `t`. -/
def exec (t : Tb) (r : GroupTb) : Ev8.Op → GroupTb
  | .addTb _ virt pte =>
    if t = .dtb ∧ pte.getLsbD 0 = false then r
    else r.add virt (STBEntry.ofEv8Pte t (ev8Va52 r.ctl) virt pte r.asn)
  | .tbIm _ mode =>
    let r := r.delete fun x => Ev8.imSelects mode r.grp r.asn x.grp x.page
    if mode.getLsbD 4 then { r with next := 0 } else r
  | .tbIs _ va => r.delete fun x => Ev8.isSelects va r.grp r.asn x.grp x.page
  | .setGroup _ grp => { r with grp }
  | .setAsn _ asn => { r with asn }
  | .pctx _ index value =>
    { r with
      asn := if index.getLsbD 0 then (value.extractLsb' 8 8).toNat else r.asn
      grp := if index.getLsbD 1 then (value.extractLsb' 16 2).toNat else r.grp }
  | .writeCtl _ mask value => { r with ctl := Ev8.mergeCtl r.ctl mask value }
  | .find .. => r

/-- An operation on the two TBs. -/
def step (r : Tb → GroupTb) (op : Ev8.Op) : Tb → GroupTb := update r op.tb ((r op.tb).exec op.tb op)

end GroupTb

end Alphabox.Cpu
