import Alphabox.Pci.VirtioBlk
import Mathlib.Logic.Function.Basic

/-!
# Descriptor chains of a virtio queue (`devices/pci/virtio/VirtioPci.cpp`)

The loop of `pop_chain` one turn at a time, with the variables the source has, and what the chains
it accepts and the transfers over them are meant to be.
-/

namespace Alphabox.Pci

/-- The variables of the loop of `pop_chain`. -/
structure WalkState where
  table : Nat
  entries : Nat
  indirect : Bool
  i : Nat
  count : Nat
  chain : Chain

/-- A turn of the loop: it goes on, or it ends with the chain, none where that is broken. -/
def walkBody (m : GuestMem) (w : WalkState) : WalkState ⊕ Option Chain :=
  if w.entries ≤ w.i ∨ w.entries ≤ w.count then .inr none
  else
    match dmaRead m ((w.table + 16 * w.i) % 2 ^ 64) 16 with
    | none => .inr none
    | some bytes =>
      let d := Descr.ofBytes bytes
      if d.isIndirect then
        if w.indirect || d.hasNext || decide (d.len < 16) || decide (d.len % 16 ≠ 0) then .inr none
        else
          .inl { table := d.addr, entries := d.len / 16, indirect := true, i := 0, count := 0,
                 chain := w.chain }
      else
        let c := w.chain.push ⟨d.addr, d.len, d.isWrite⟩
        if d.hasNext then .inl { w with i := d.next, count := w.count + 1, chain := c }
        else .inr (some c)

/-- At most `n` turns; none where the loop has not ended. -/
def walkTurns (m : GuestMem) : Nat → WalkState → Option (Option Chain)
  | 0, _ => none
  | n + 1, w =>
    match walkBody m w with
    | .inl w => walkTurns m n w
    | .inr r => some r

/-- The loop's start at descriptor `head` of a queue. -/
def walkStart (pfn head : Nat) : WalkState where
  table := descBase pfn
  entries := kQueueSize
  indirect := false
  i := head
  count := 0
  chain := ⟨head, [], 0, 0⟩

/-! ## What a chain is -/

/-- Descriptor `i` of a table, where it is within the table and within reach. -/
def descrAt (m : GuestMem) (table entries i : Nat) : Option Descr :=
  if i < entries then (dmaRead m ((table + 16 * i) % 2 ^ 64) 16).map Descr.ofBytes else none

/-- Descriptors of one table, each the one the link before it names, the last of them `d`. -/
inductive Linked (m : GuestMem) (table entries : Nat) : Nat → List Descr → Descr → Prop
  | last {i : Nat} {d : Descr} : descrAt m table entries i = some d → Linked m table entries i [] d
  | link {i : Nat} {d e : Descr} {ds : List Descr} : descrAt m table entries i = some d →
      d.hasNext = true → Linked m table entries d.next ds e → Linked m table entries i (d :: ds) e

/-- The segment of a descriptor. -/
def Descr.seg (d : Descr) : Seg := ⟨d.addr, d.len, d.isWrite⟩

/-- The segments of a chain from descriptor `i`: those of linked descriptors, the last without a
link; none is indirect. -/
def Plain (m : GuestMem) (table entries i : Nat) (segs : List Seg) : Prop :=
  ∃ ds d, Linked m table entries i ds d ∧ (∀ e ∈ ds ++ [d], e.isIndirect = false) ∧
    d.hasNext = false ∧ segs = (ds ++ [d]).map Descr.seg

/-- The same, but the last descriptor is indirect, and the segments of its table follow. -/
def ThroughIndirect (m : GuestMem) (table entries i : Nat) (segs : List Seg) : Prop :=
  ∃ ds d rest, Linked m table entries i ds d ∧ (∀ e ∈ ds, e.isIndirect = false) ∧
    d.isIndirect = true ∧ d.hasNext = false ∧ 16 ≤ d.len ∧ d.len % 16 = 0 ∧
    Plain m d.addr (d.len / 16) 0 rest ∧ segs = ds.map Descr.seg ++ rest

/-- What `readable` and `writable` count. -/
def segBytes (write : Bool) (segs : List Seg) : Nat :=
  ((segs.filter (·.write == write)).map Seg.len).sum

/-! ## What a transfer is -/

/-- The bytes of a range are all on the 32-bit bus. -/
def OnBus (a n : Nat) : Prop := ∀ i < n, a + i < busSize

/-- The addresses of the readable segments' bytes, or of the writable ones', end to end. -/
def segAddrs (write : Bool) (segs : List Seg) : List Nat :=
  (segs.filter (·.write == write)).flatMap fun s => (List.range s.len).map (s.addr + ·)

/-- Bytes stored at addresses, one after the other. -/
def storeAt (m : GuestMem) (l : List (Nat × BitVec 8)) : GuestMem :=
  l.foldl (fun m x => Function.update m x.1 x.2) m

end Alphabox.Pci
