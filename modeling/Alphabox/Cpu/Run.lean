import Alphabox.Cpu.Translate
import Alphabox.Lib.Reach

/-!
# Runs of TB operations

`Op` is one operation on a processor's TBs, `Event` what it means for the translations that
software established: an insertion, or one of the invalidates the architecture defines. A run
carries its events, newest first.
-/

namespace Alphabox.Cpu

/-! ## Events -/

/-- An insertion into a TB or an invalidate of it. -/
inductive Event where
  | ins (t : Tb) (e : STBEntry)
  | ia (t : Tb)
  | iap (t : Tb)
  | is (t : Tb) (va : BitVec 64) (asn : Nat)

/-- The invalidate names the translation `e` of TB `t`. -/
def Event.kills (t : Tb) (e : STBEntry) : Event → Prop
  | .ins _ _ => False
  | .ia t' => t' = t
  | .iap t' => t' = t ∧ e.asmBit = false
  | .is t' va asn => t' = t ∧ e.hits va asn = true

/-- The translation was inserted and no matching invalidate followed. -/
def Live (t : Tb) (e : STBEntry) : List Event → Prop
  | [] => False
  | ev :: log => ev = .ins t e ∨ ¬ev.kills t e ∧ Live t e log

/-- Some address is translated by both entries under one ASN. -/
def STBEntry.overlaps (e e' : STBEntry) : Prop :=
  (e.virt ^^^ e'.virt) &&& (e.matchMask &&& e'.matchMask) = 0 ∧
    (e.asmBit = true ∨ e'.asmBit = true ∨ e.asn = e'.asn)

/-- Every data insertion agrees in ASM bit and granularity with the live ones it overlaps. -/
def NoConflict : List Event → Prop
  | [] => True
  | .ins .dtb e :: log =>
    (∀ e', Live .dtb e' log → e.overlaps e' → e'.asmBit = e.asmBit ∧ e'.matchMask = e.matchMask) ∧
      NoConflict log
  | _ :: log => NoConflict log

/-! ## Operations -/

/-- One operation on a processor's TBs. -/
inductive Op where
  | addTb (virt ptePhys pteFlags : BitVec 64) (t : Tb) (rw : Bool) (asn : Nat)
  | tbia (t : Tb)
  | tbiap (t : Tb)
  | tbis (virt : BitVec 64) (t : Tb)
  | tbisD (virt : BitVec 64) (asn : Nat)
  | findTBEntry (virt : BitVec 64) (t : Tb) (rw : Bool)
  | virt2phys (virt : BitVec 64) (f : AlphaCPU.Flags)
  | dataPhysNt (va : BitVec 64) (rw : Bool)
  | hwMtpr (ipr : AlphaCPU.Ipr) (value : BitVec 64)

namespace Op

def exec (c : AlphaCPU) : Op → AlphaCPU
  | addTb virt ptePhys pteFlags t rw asn => c.addTb virt ptePhys pteFlags t rw asn
  | tbia t => c.tbia t
  | tbiap t => c.tbiap t
  | tbis virt t => c.tbis virt t
  | tbisD virt asn => c.tbisD virt asn
  | findTBEntry virt t rw => (c.findTBEntry virt t rw).2
  | virt2phys virt f => (c.virt2phys virt f).2
  | dataPhysNt va rw => (c.dataPhysNt va rw).2
  | hwMtpr ipr value => c.hwMtpr ipr value

/-- The invalidates of `tbis`. -/
def tbisEvents (c : AlphaCPU) (virt : BitVec 64) : Tb → List Event
  | .dtb => [.is .dtb virt c.asn1, .is .dtb virt c.asn0]
  | .itb => [.is .itb virt c.asn]

/-- What the operation means for the translations, newest first. -/
def events (c : AlphaCPU) : Op → List Event
  | addTb virt ptePhys pteFlags t _ asn => [.ins t (.ofPte virt ptePhys pteFlags asn)]
  | tbia t => [.ia t]
  | tbiap t => [.iap t]
  | tbis virt t => tbisEvents c virt t
  | tbisD virt asn => [.is .dtb virt asn]
  | findTBEntry _ _ _ | virt2phys _ _ | dataPhysNt _ _ => []
  | hwMtpr ipr value =>
    match ipr with
    | .ITB_PTE => [.ins .itb (.ofPte c.lastTbVirt value (value &&& 0xf70#64) c.asn)]
    | .ITB_IAP => [.iap .itb]
    | .ITB_IA => [.ia .itb]
    | .ITB_IS => tbisEvents c value .itb
    | .DTB_PTE port =>
      [.ins .dtb
        (.ofPte (c.lastDtbVirt port) (value >>> 19) value (if port then c.asn1 else c.asn0))]
    | .DTB_IS port => [.is .dtb value (if port then c.asn1 else c.asn0)]
    | .DTB_IAP => [.iap .dtb]
    | .DTB_IA | .VA_CTL => [.ia .dtb]
    | _ => []

end Op

/-- A processor and the events of its run so far. -/
structure Traced where
  cpu : AlphaCPU
  log : List Event

def Traced.step (s : Traced) (op : Op) : Traced where
  cpu := op.exec s.cpu
  log := op.events s.cpu ++ s.log

/-- The states reached from power-up by operations that `ok` allows. -/
def Reachable (ok : Traced → Op → Prop) (keep : Bool) : Traced → Prop :=
  Lib.Reach (· = ⟨AlphaCPU.init keep, []⟩) ok Traced.step

/-- The state after the operations `ops` from power-up. -/
def runOps (keep : Bool) (ops : List Op) : Traced := ops.foldl Traced.step ⟨AlphaCPU.init keep, []⟩

theorem reachable_runOps {ok : Traced → Op → Prop} (keep : Bool) (ops : List Op)
    (h : ∀ op ∈ ops, ∀ s, ok s op) : Reachable ok keep (runOps keep ops) := by
  have h0 : Reachable ok keep ⟨AlphaCPU.init keep, []⟩ := .start rfl
  exact h0.foldl ops h

end Alphabox.Cpu
