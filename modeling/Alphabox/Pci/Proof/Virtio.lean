import Alphabox.Pci.VirtioBlk
import Alphabox.Lib.Reach
import Mathlib.Data.Nat.ModEq

/-!
# virtio-blk hands every buffer back once, in order

The invariant `BlkInv` counts buffers without wrapping beside the 16-bit indices: the device has
handed back the first `used.length` buffers published, has at most one more in hand, and the slots
of the available ring from there on hold the heads published. A request writes only where the
driver's chain says; as long as that is not in the rings, no step breaks it.
-/

namespace Alphabox.Pci

open Lib (leNat leBytes store fetch)

/-! ## Guest memory -/

theorem dmaRead_of_le {m : GuestMem} {a n : Nat} (h : a + n ≤ busSize) (hn : n ≠ 0) :
    dmaRead m a n = some (fetch busSize m a n) := by
  have : busSize = 4294967296 := rfl
  unfold dmaRead
  rw [if_neg hn, if_neg]
  omega

theorem dmaWrite_of_le {m : GuestMem} {a : Nat} {bs : List (BitVec 8)} (h : a + bs.length ≤ busSize)
    (hn : bs ≠ []) : dmaWrite m a bs = some (store busSize m a bs) := by
  have : busSize = 4294967296 := rfl
  unfold dmaWrite
  rw [if_neg hn, if_neg]
  omega

/-- A byte that a device-writable segment has. -/
def Seg.Covers (s : Seg) (x : Nat) : Prop := s.write = true ∧ ∃ k < s.len, (s.addr + k) % busSize = x

theorem dmaWrite_other {m m' : GuestMem} {a x : Nat} {bs : List (BitVec 8)}
    (hw : dmaWrite m a bs = some m') (h : ∀ i < bs.length, (a + i) % busSize ≠ x) : m' x = m x := by
  unfold dmaWrite at hw
  split at hw
  · cases hw
    rfl
  · split at hw
    · cases hw
    · cases hw
      exact Lib.store_other h

/-- `chain_write` writes nowhere but in the chain's device-writable segments. -/
theorem chainWrite_other {m : GuestMem} {segs : List Seg} {off x : Nat} {bs : List (BitVec 8)}
    (h : ∀ s ∈ segs, ¬s.Covers x) : (chainWrite m segs off bs).2 x = m x := by
  induction segs generalizing m off bs with
  | nil => rfl
  | cons s segs ih =>
    have hs := h s List.mem_cons_self
    have hsegs : ∀ s ∈ segs, ¬s.Covers x := fun s hs => h s (List.mem_cons_of_mem _ hs)
    unfold chainWrite
    split
    · exact ih hsegs
    · rename_i hw
      split
      · exact ih hsegs
      · rename_i hoff
        dsimp only
        split
        · rfl
        · rename_i m' hm
          have hx : m' x = m x := by
            refine dmaWrite_other hm fun i hi hx => hs ⟨by simpa using hw, off + i, ?_, ?_⟩
            · rw [List.length_take] at hi
              omega
            · rw [← hx, ← Nat.add_assoc, Nat.add_mod ((s.addr + off) % 2 ^ 64),
                Nat.mod_mod_of_dvd _ (by decide : busSize ∣ 2 ^ 64), ← Nat.add_mod]
          split
          · exact hx
          · exact (ih hsegs).trans hx

variable {δ : Type*} {D : BlkDisk δ}

theorem request_other {c : Chain} {m : GuestMem} {disk : Option δ} {r : Answer δ} {x : Nat}
    (h : ∀ s ∈ c.segs, ¬s.Covers x) (hr : request D c m disk = some r) : r.mem x = m x := by
  unfold request at hr
  dsimp only at hr
  split at hr
  · cases hr
    rfl
  split at hr
  · cases hr
    unfold requestIn
    dsimp only
    repeat' split
    all_goals first | rfl | exact chainWrite_other h
  split at hr
  · unfold requestOut at hr
    dsimp only at hr
    repeat' split at hr
    all_goals
      cases hr
    all_goals rfl
  split at hr
  · cases hr
    rfl
  split at hr
  · cases hr
    exact chainWrite_other h
  · cases hr
    rfl

theorem answer_other {c : Chain} {m m' : GuestMem} {disk disk' : Option δ} {len x : Nat}
    (h : ∀ s ∈ c.segs, ¬s.Covers x) (ha : answer D c m disk = some (len, m', disk')) :
    m' x = m x := by
  unfold answer at ha
  split at ha
  · cases ha
    rfl
  · obtain ⟨r, hr, he⟩ := Option.map_eq_some_iff.mp ha
    cases he
    exact (chainWrite_other h).trans (request_other h hr)

/-! ## Chains -/

theorem walkTable_head {m : GuestMem} {table entries : Nat} {ind : Descr → Chain → Option Chain}
    (hi : ∀ d c c', ind d c = some c' → c'.head = c.head) {fuel i : Nat} {c c' : Chain}
    (h : walkTable m table entries ind fuel i c = some c') : c'.head = c.head := by
  induction fuel generalizing i c with
  | zero => cases h
  | succ fuel ih =>
    unfold walkTable at h
    split at h
    · cases h
    split at h
    · cases h
    dsimp only at h
    split at h
    · exact hi _ _ _ h
    split at h
    · have := ih h
      exact this
    · cases h
      rfl

theorem walkChain_head {m : GuestMem} {pfn head : Nat} {c : Chain}
    (h : walkChain m pfn head = some c) : c.head = head := by
  unfold walkChain at h
  split at h
  · cases h
  · refine walkTable_head (fun d c c' hd => ?_) h
    unfold walkIndirect at hd
    split at hd
    · cases hd
    · exact walkTable_head (fun _ _ _ hn => by cases hn) hd

/-! ## The rings -/

theorem availBase_eq (pfn : Nat) : availBase pfn = descBase pfn + 4096 := rfl

theorem usedBase_eq (pfn : Nat) : usedBase pfn = descBase pfn + 8192 := by
  unfold usedBase availBase descBase kQueueSize kPage
  omega

theorem availSlot_eq (pfn k : Nat) : availSlot pfn k = descBase pfn + 4100 + 2 * (k % 256) := by
  unfold availSlot
  rw [availBase_eq]

theorem usedSlot_eq (pfn k : Nat) : usedSlot pfn k = descBase pfn + 8196 + 8 * (k % 256) := by
  unfold usedSlot
  rw [usedBase_eq]

theorem word16_lt (m : GuestMem) (a : Nat) : word16 m a < 65536 := by
  have := Lib.leNat_lt (fetch busSize m a 2)
  simpa [word16, fetch] using this

theorem word16_store {m : GuestMem} {a v : Nat} (h : a + 2 ≤ busSize) :
    word16 (store busSize m a (leBytes 2 v)) a = v % 65536 := by
  have : fetch busSize (store busSize m a (leBytes 2 v)) a (leBytes 2 v).length = leBytes 2 v :=
    Lib.fetch_store (by simpa using h)
  rw [Lib.length_leBytes] at this
  rw [word16, this, Lib.leNat_leBytes]
  rfl

theorem word16_apart {m : GuestMem} {a b : Nat} {bs : List (BitVec 8)} (ha : a + bs.length ≤ busSize)
    (hb : b + 2 ≤ busSize) (h : a + bs.length ≤ b ∨ b + 2 ≤ a) :
    word16 (store busSize m a bs) b = word16 m b := by
  rw [word16, Lib.fetch_store_apart ha hb h, word16]

/-- Two memories with the same rings. -/
def SameRings (pfn : Nat) (m m' : GuestMem) : Prop := ∀ x, InRings pfn x → m' x = m x

theorem SameRings.fetch_eq {pfn a n : Nat} {m m' : GuestMem} (h : SameRings pfn m m')
    (ha : ∀ i < n, InRings pfn ((a + i) % busSize)) : fetch busSize m' a n = fetch busSize m a n :=
  Lib.fetch_congr fun i hi => h _ (ha i hi)

/-- The rings are within the bus's reach. -/
def RingsFit (pfn : Nat) : Prop := descBase pfn + 10244 ≤ 4294967296

theorem inRings_iff (pfn x : Nat) : InRings pfn x ↔
    descBase pfn + 4096 ≤ x ∧ x < descBase pfn + 4612 ∨
      descBase pfn + 8192 ≤ x ∧ x < descBase pfn + 10244 := by
  unfold InRings kQueueSize
  rw [usedBase_eq, availBase_eq]

theorem inRings_of {pfn a n i : Nat} (hf : RingsFit pfn)
    (h : descBase pfn + 4096 ≤ a ∧ a + n ≤ descBase pfn + 4612 ∨
      descBase pfn + 8192 ≤ a ∧ a + n ≤ descBase pfn + 10244) (hi : i < n) :
    InRings pfn ((a + i) % busSize) := by
  unfold RingsFit at hf
  have : busSize = 4294967296 := rfl
  rw [Nat.mod_eq_of_lt (by omega), inRings_iff]
  omega

/-! ## The invariant -/

/-- How many buffers the thread has taken and not handed back. -/
def BlkPc.inHand : BlkPc → Nat
  | .requesting _ | .pushing .. | .dead => 1
  | _ => 0

/-- The rings hold what the history says: the indices, the heads not handed back yet and the last
256 entries handed back. -/
structure RingsOk (pfn : Nat) (published : List Nat) (used : List (Nat × Nat)) (m : GuestMem) :
    Prop where
  availIdx : word16 m (availBase pfn + 2) = published.length % 65536
  usedMem : word16 m (usedBase pfn + 2) = used.length % 65536
  slots : ∀ k, used.length ≤ k → ∀ hk : k < published.length,
    word16 m (availSlot pfn k) = published[k]
  entries : ∀ k, used.length ≤ k + kQueueSize → ∀ hk : k < used.length,
    fetch busSize m (usedSlot pfn k) 8 = leBytes 4 used[k].1 ++ leBytes 4 used[k].2

theorem RingsOk.of_same {pfn : Nat} {published : List Nat} {used : List (Nat × Nat)}
    {m m' : GuestMem} (h : RingsOk pfn published used m) (hf : RingsFit pfn)
    (hs : SameRings pfn m m') : RingsOk pfn published used m' := by
  refine ⟨?_, ?_, fun k hk hlt => ?_, fun k hk hlt => ?_⟩
  · rw [word16, hs.fetch_eq fun i hi => inRings_of hf (by rw [availBase_eq]; omega) hi, ← word16,
      h.availIdx]
  · rw [word16, hs.fetch_eq fun i hi => inRings_of hf (by rw [usedBase_eq]; omega) hi, ← word16,
      h.usedMem]
  · rw [word16, hs.fetch_eq fun i hi => inRings_of hf (by rw [availSlot_eq]; omega) hi, ← word16,
      h.slots k hk hlt]
  · rw [hs.fetch_eq fun i hi => inRings_of hf (by rw [usedSlot_eq]; omega) hi,
      h.entries k hk hlt]

namespace RingsOk

variable {pfn : Nat} {published : List Nat} {used : List (Nat × Nat)} {m : GuestMem}

/-- A store into the available ring's flags or a slot that is not in use. -/
theorem store_avail (h : RingsOk pfn published used m) (hf : RingsFit pfn) {a v : Nat}
    (ha : a = availBase pfn ∨ ∃ j, a = availSlot pfn (published.length + j) ∧
      published.length + j < used.length + kQueueSize) :
    RingsOk pfn published used (store busSize m a (leBytes 2 v)) := by
  unfold RingsFit at hf
  have hb : busSize = 4294967296 := rfl
  have hlen := Lib.length_leBytes 2 v
  have hrange : descBase pfn + 4096 ≤ a ∧ a + 2 ≤ descBase pfn + 4612 := by
    rcases ha with rfl | ⟨j, rfl, -⟩
    · rw [availBase_eq]
      omega
    · rw [availSlot_eq]
      omega
  have hidx : a ≠ availBase pfn + 1 ∧ a ≠ availBase pfn + 2 ∧ a ≠ availBase pfn + 3 := by
    rw [availBase_eq] at ha ⊢
    rcases ha with rfl | ⟨j, rfl, -⟩
    · omega
    · rw [availSlot_eq]
      omega
  rw [availBase_eq] at hidx
  refine ⟨?_, ?_, fun k hk hlt => ?_, fun k hk hlt => ?_⟩
  · rw [word16_apart (by omega) (by rw [availBase_eq]; omega) (by rw [availBase_eq]; omega),
      h.availIdx]
  · rw [word16_apart (by omega) (by rw [usedBase_eq]; omega) (by rw [usedBase_eq]; omega),
      h.usedMem]
  · have hne : a + 2 ≤ availSlot pfn k ∨ availSlot pfn k + 2 ≤ a := by
      rw [availSlot_eq]
      rcases ha with rfl | ⟨j, rfl, hj⟩
      · rw [availBase_eq]
        omega
      · unfold kQueueSize at hj
        rw [availSlot_eq]
        omega
    rw [word16_apart (by omega) (by rw [availSlot_eq]; omega) (by omega), h.slots k hk hlt]
  · rw [Lib.fetch_store_apart (by omega) (by rw [usedSlot_eq]; omega) (by rw [usedSlot_eq]; omega),
      h.entries k hk hlt]

/-- The driver publishes the heads in the next `n` slots. -/
theorem advance (h : RingsOk pfn published used m) (hf : RingsFit pfn) {n : Nat} {heads : List Nat}
    (hh : heads = (List.range n).map fun j => word16 m (availSlot pfn (published.length + j))) :
    RingsOk pfn (published ++ heads) used
      (store busSize m (availBase pfn + 2) (leBytes 2 (published.length + n))) := by
  unfold RingsFit at hf
  have hb : busSize = 4294967296 := rfl
  have hlen := Lib.length_leBytes 2 (published.length + n)
  have hheads : heads.length = n := by simp [hh]
  refine ⟨?_, ?_, fun k hk hlt => ?_, fun k hk hlt => ?_⟩
  · rw [word16_store (by rw [availBase_eq]; omega), List.length_append, hheads]
  · rw [word16_apart (by rw [availBase_eq]; omega) (by rw [usedBase_eq]; omega)
      (by rw [availBase_eq, usedBase_eq]; omega), h.usedMem]
  · rw [word16_apart (by rw [availBase_eq]; omega) (by rw [availSlot_eq]; omega)
      (by rw [availBase_eq, availSlot_eq]; omega)]
    by_cases hp : k < published.length
    · rw [h.slots k hk hp, List.getElem_append_left hp]
    · have hkn : k - published.length < n := by
        rw [List.length_append, hheads] at hlt
        omega
      rw [List.getElem_append_right (by omega)]
      simp only [hh, List.getElem_map, List.getElem_range]
      rw [Nat.add_sub_cancel' (by omega)]
  · rw [Lib.fetch_store_apart (by rw [availBase_eq]; omega) (by rw [usedSlot_eq]; omega)
      (by rw [availBase_eq, usedSlot_eq]; omega), h.entries k hk hlt]

/-- The device hands a buffer back. -/
theorem push (h : RingsOk pfn published used m) (hf : RingsFit pfn) (head len : Nat) :
    RingsOk pfn published (used ++ [(head, len)])
      (store busSize (store busSize m (usedSlot pfn used.length) (leBytes 4 head ++ leBytes 4 len))
        (usedBase pfn + 2) (leBytes 2 (used.length + 1))) := by
  unfold RingsFit at hf
  have hb : busSize = 4294967296 := rfl
  have hlen := Lib.length_leBytes 2 (used.length + 1)
  have hentry : (leBytes 4 head ++ leBytes 4 len).length = 8 := by simp
  refine ⟨?_, ?_, fun k hk hlt => ?_, fun k hk hlt => ?_⟩
  · rw [word16_apart (by rw [usedBase_eq]; omega) (by rw [availBase_eq]; omega)
      (by rw [usedBase_eq, availBase_eq]; omega),
      word16_apart (by rw [usedSlot_eq]; omega) (by rw [availBase_eq]; omega)
      (by rw [usedSlot_eq, availBase_eq]; omega), h.availIdx]
  · rw [word16_store (by rw [usedBase_eq]; omega), List.length_append]
    rfl
  · rw [List.length_append, List.length_singleton] at hk
    rw [word16_apart (by rw [usedBase_eq]; omega) (by rw [availSlot_eq]; omega)
      (by rw [usedBase_eq, availSlot_eq]; omega),
      word16_apart (by rw [usedSlot_eq]; omega) (by rw [availSlot_eq]; omega)
      (by rw [usedSlot_eq, availSlot_eq]; omega), h.slots k (by omega) hlt]
  · rw [List.length_append, List.length_singleton] at hk hlt
    unfold kQueueSize at hk
    rw [Lib.fetch_store_apart (by rw [usedBase_eq]; omega) (by rw [usedSlot_eq]; omega)
      (by rw [usedBase_eq, usedSlot_eq]; omega)]
    by_cases hku : k < used.length
    · rw [Lib.fetch_store_apart (by rw [usedSlot_eq]; omega) (by rw [usedSlot_eq]; omega)
        (by rw [usedSlot_eq, usedSlot_eq]; omega), List.getElem_append_left hku,
        h.entries k (by unfold kQueueSize; omega) hku]
    · obtain rfl : k = used.length := by omega
      have : fetch busSize
          (store busSize m (usedSlot pfn used.length) (leBytes 4 head ++ leBytes 4 len))
          (usedSlot pfn used.length) (leBytes 4 head ++ leBytes 4 len).length =
          leBytes 4 head ++ leBytes 4 len :=
        Lib.fetch_store (by rw [usedSlot_eq]; omega)
      rw [hentry] at this
      rw [this, List.getElem_concat_length (by rfl)]

end RingsOk

/-- What holds where the thread is: asleep or about to be, everything notified of is handed back or
the thread is kicked again; with a buffer in hand, it is the next one; outside a batch, every buffer
handed back has had its `queue_interrupt`. -/
def StageOk (h : BlkHistory δ) : BlkPc → Prop
  | .waiting => (h.dev.kicked = true ∨ h.notified ≤ h.used.length) ∧
      h.signals.length = h.used.length
  | .popping any => any = false → h.signals.length = h.used.length
  | .requesting c => h.published[h.used.length]? = some c.head
  | .pushing head _ => h.published[h.used.length]? = some head
  | .interrupting => h.dev.kicked = true ∨ h.notified ≤ h.used.length
  | .dead => True

/-- What holds in every state (module doc). -/
structure BlkInv (h : BlkHistory δ) : Prop where
  pfn : h.dev.pfn ≠ 0
  fit : RingsFit h.dev.pfn
  rings : RingsOk h.dev.pfn h.published h.used h.dev.mem
  order : h.used.map Prod.fst = h.published.take h.used.length
  room : h.published.length ≤ h.used.length + kQueueSize
  taken : h.used.length + h.dev.pc.inHand ≤ h.published.length
  lastAvail : h.dev.lastAvail = (h.used.length + h.dev.pc.inHand) % 65536
  usedIdx : h.dev.usedIdx = h.used.length % 65536
  stage : StageOk h h.dev.pc
  notified : h.notified ≤ h.published.length
  signals_le : h.signals.length ≤ h.used.length
  isr : ∀ k, h.signals[k]? = some true → h.seen ≤ k → h.dev.isr.getLsbD 0 = true
  seen : h.seen ≤ h.used.length

theorem BlkInv.start {h : BlkHistory δ} (hs : h.Start) : BlkInv h where
  pfn := hs.pfn
  fit := by
    have hr := hs.reach
    have hb : busSize = 4294967296 := rfl
    unfold kQueueSize at hr
    rw [usedBase_eq, hb] at hr
    unfold RingsFit
    omega
  rings := by
    refine ⟨?_, ?_, fun k _ hk => ?_, fun k _ hk => ?_⟩
    · rw [hs.availIdx, hs.published]
      rfl
    · rw [hs.usedMem, hs.used]
      rfl
    · simp [hs.published] at hk
    · simp [hs.used] at hk
  order := by simp [hs.used]
  room := by simp [hs.published]
  taken := by simp [hs.used, hs.published, hs.pc, BlkPc.inHand]
  lastAvail := by simp [hs.used, hs.lastAvail, hs.pc, BlkPc.inHand]
  usedIdx := by simp [hs.used, hs.usedIdx]
  stage := by
    rw [hs.pc]
    exact ⟨.inr (by simp [hs.notified]), by simp [hs.signals, hs.used]⟩
  notified := by simp [hs.notified]
  signals_le := by simp [hs.signals]
  isr k hk := by simp [hs.signals] at hk
  seen := by simp [hs.seen]

/-! ## The driver's steps -/

section Steps

variable {h : BlkHistory δ}

/-- Memory alone changes. -/
theorem BlkInv.setMem (hi : BlkInv h) {mem : GuestMem}
    (hr : RingsOk h.dev.pfn h.published h.used mem) : BlkInv (h.setMem mem) := by
  refine ⟨hi.pfn, hi.fit, hr, hi.order, hi.room, hi.taken, hi.lastAvail, hi.usedIdx, ?_,
    hi.notified, hi.signals_le, hi.isr, hi.seen⟩
  have := hi.stage
  unfold StageOk at this ⊢
  exact this

/-- More is published: the buffer in hand is the same. -/
theorem StageOk.publish {heads : List Nat} {mem : GuestMem} {pc : BlkPc} (hs : StageOk h pc) :
    StageOk { h.setMem mem with published := h.published ++ heads } pc := by
  have hget : ∀ {x : Nat}, h.published[h.used.length]? = some x →
      (h.published ++ heads)[h.used.length]? = some x := by
    intro x hk
    rw [List.getElem?_append_left (List.getElem?_eq_some_iff.mp hk).1, hk]
  cases pc with
  | requesting c => exact hget hs
  | pushing head len => exact hget hs
  | _ => exact hs

theorem BlkInv.advance (hi : BlkInv h) {n : Nat}
    (hn : h.published.length + n ≤ h.used.length + kQueueSize) : BlkInv (h.step D (.advance n)) := by
  have hlen : (h.nextHeads n).length = n := by simp [BlkHistory.nextHeads]
  have htake := hi.taken
  have hr : RingsOk h.dev.pfn (h.published ++ h.nextHeads n) h.used
      (store busSize h.dev.mem (availBase h.dev.pfn + 2) (leBytes 2 (h.published.length + n))) :=
    hi.rings.advance hi.fit rfl
  refine ⟨hi.pfn, hi.fit, hr, ?_, ?_, ?_, hi.lastAvail, hi.usedIdx,
    hi.stage.publish, ?_, hi.signals_le, hi.isr, hi.seen⟩
  · show h.used.map Prod.fst = (h.published ++ h.nextHeads n).take h.used.length
    rw [hi.order, List.take_append_of_le_length (by omega)]
  · show (h.published ++ h.nextHeads n).length ≤ _
    rw [List.length_append, hlen]
    exact hn
  · show _ ≤ (h.published ++ h.nextHeads n).length
    rw [List.length_append]
    exact le_trans hi.taken (Nat.le_add_right ..)
  · show _ ≤ (h.published ++ h.nextHeads n).length
    rw [List.length_append]
    exact le_trans hi.notified (Nat.le_add_right ..)

theorem BlkInv.notify (hi : BlkInv h) : BlkInv (h.step D .notify) := by
  refine ⟨hi.pfn, hi.fit, hi.rings, hi.order, hi.room, hi.taken, hi.lastAvail, hi.usedIdx, ?_,
    le_rfl, hi.signals_le, hi.isr, hi.seen⟩
  have hs := hi.stage
  show StageOk (h.step D .notify) h.dev.pc
  cases hpc : h.dev.pc with
  | waiting =>
    rw [hpc] at hs
    exact ⟨.inl rfl, hs.2⟩
  | interrupting => exact .inl rfl
  | _ =>
    rw [hpc] at hs
    exact hs

theorem BlkInv.readIsr (hi : BlkInv h) : BlkInv (h.step D .readIsr) := by
  refine ⟨hi.pfn, hi.fit, hi.rings, hi.order, hi.room, hi.taken, hi.lastAvail, hi.usedIdx, hi.stage,
    hi.notified, hi.signals_le, fun k hk hs => ?_, le_rfl⟩
  have hk : k < h.signals.length := (List.getElem?_eq_some_iff.mp hk).1
  have hs : h.used.length ≤ k := hs
  have := hi.signals_le
  omega

theorem BlkInv.writeMem (hi : BlkInv h) {a : Nat} {b : BitVec 8} (ha : ¬InRings h.dev.pfn a) :
    BlkInv (h.step D (.writeMem a b)) := by
  refine hi.setMem (hi.rings.of_same hi.fit fun x hx => ?_)
  rw [Function.update_of_ne]
  intro he
  exact ha (he ▸ hx)

/-! ## The thread's steps -/

/-- What `pop_chain` finds: nothing, with everything taken, or the next head. -/
theorem popChain_cases (hi : BlkInv h) (h0 : h.dev.pc.inHand = 0) :
    (h.dev.popChain = none ∧ h.used.length = h.published.length) ∨
    ∃ c broken, h.dev.popChain = some (c, { h.dev with
        lastAvail := (h.used.length + 1) % 65536, brokenReported := broken }) ∧
      h.published[h.used.length]? = some c.head := by
  have hf := hi.fit
  unfold RingsFit at hf
  have hb : busSize = 4294967296 := rfl
  have htaken := hi.taken
  have hroom := hi.room
  unfold kQueueSize at hroom
  have hlast := hi.lastAvail
  rw [h0, Nat.add_zero] at hlast htaken
  have hmod : (h.used.length % 65536) % 256 = h.used.length % 256 := by omega
  have hslot : availSlot h.dev.pfn h.dev.lastAvail = availSlot h.dev.pfn h.used.length := by
    rw [availSlot_eq, availSlot_eq, hlast, hmod]
  unfold VirtioBlk.popChain
  rw [dmaRead_of_le (by rw [availBase_eq]; omega) (by decide), hslot,
    dmaRead_of_le (by rw [availSlot_eq]; omega) (by decide)]
  dsimp only
  have hidx : leNat (fetch busSize h.dev.mem (availBase h.dev.pfn + 2) 2) =
      h.published.length % 65536 := hi.rings.availIdx
  rw [hidx, hlast]
  split
  · rename_i heq
    exact .inl ⟨rfl, by omega⟩
  · rename_i hne
    have hlt : h.used.length < h.published.length := by
      rcases Nat.lt_or_ge h.used.length h.published.length with hlt | hge
      · exact hlt
      · exact absurd (by rw [Nat.le_antisymm htaken hge]) hne
    have hhead := hi.rings.slots h.used.length le_rfl hlt
    rw [word16] at hhead
    right
    rw [hhead, List.getElem?_eq_getElem hlt]
    have hsucc : (h.used.length % 65536 + 1) % 2 ^ 16 = (h.used.length + 1) % 65536 := by omega
    rw [hsucc]
    split
    · rename_i c hc
      exact ⟨c, h.dev.brokenReported, rfl, by rw [walkChain_head hc]⟩
    · exact ⟨_, true, rfl, rfl⟩

theorem BlkInv.wake (hi : BlkInv h) (hpc : h.dev.pc = .waiting) : BlkInv (h.threadStep D) := by
  obtain ⟨hpfn, hfit, hrings, hord, hroom, ht, hl, hu, hst, hn, hsl, hisr, hseen⟩ := hi
  rw [hpc] at ht hl hst
  unfold BlkHistory.threadStep VirtioBlk.threadStep
  simp only [hpc]
  by_cases hk : h.dev.kicked = true
  · rw [if_pos hk, if_neg hpfn]
    exact ⟨hpfn, hfit, hrings, hord, hroom, ht, hl, hu, fun _ => hst.2, hn, hsl, hisr, hseen⟩
  · rw [if_neg hk]
    refine ⟨hpfn, hfit, hrings, hord, hroom, ?_, ?_, hu, ?_, hn, hsl, hisr, hseen⟩
    · rwa [hpc]
    · rwa [hpc]
    · rwa [hpc]

theorem BlkInv.pop (hi : BlkInv h) {any : Bool} (hpc : h.dev.pc = .popping any) :
    BlkInv (h.threadStep D) := by
  have h0 : h.dev.pc.inHand = 0 := by rw [hpc]; rfl
  have hpop := popChain_cases hi h0
  obtain ⟨hpfn, hfit, hrings, hord, hroom, ht, hl, hu, hst, hn, hsl, hisr, hseen⟩ := hi
  rw [hpc] at ht hl hst
  unfold BlkHistory.threadStep VirtioBlk.threadStep
  simp only [hpc]
  rcases hpop with ⟨hp, he⟩ | ⟨c, broken, hp, hc⟩
  · rw [hp]
    have hw : h.dev.kicked = true ∨ h.notified ≤ h.used.length := .inr (by omega)
    cases any with
    | true => exact ⟨hpfn, hfit, hrings, hord, hroom, ht, hl, hu, hw, hn, hsl, hisr, hseen⟩
    | false =>
      exact ⟨hpfn, hfit, hrings, hord, hroom, ht, hl, hu, ⟨hw, hst rfl⟩, hn, hsl, hisr, hseen⟩
  · rw [hp]
    have hlt := (List.getElem?_eq_some_iff.mp hc).1
    exact ⟨hpfn, hfit, hrings, hord, hroom, hlt, rfl, hu, hc, hn, hsl, hisr, hseen⟩

/-- A chain that lets the device write nowhere in the rings. -/
def Chain.Avoids (pfn : Nat) (c : Chain) : Prop :=
  ∀ s ∈ c.segs, ∀ x, s.Covers x → ¬InRings pfn x

theorem BlkInv.request (hi : BlkInv h) {c : Chain} (hpc : h.dev.pc = .requesting c)
    (hc : c.Avoids h.dev.pfn) : BlkInv (h.threadStep D) := by
  obtain ⟨hpfn, hfit, hrings, hord, hroom, ht, hl, hu, hst, hn, hsl, hisr, hseen⟩ := hi
  rw [hpc] at ht hl hst
  unfold BlkHistory.threadStep VirtioBlk.threadStep
  simp only [hpc]
  split
  · rename_i len mem disk ha
    have hr := hrings.of_same hfit fun x hx => answer_other (fun s hs hcov => hc s hs x hcov hx) ha
    exact ⟨hpfn, hfit, hr, hord, hroom, ht, hl, hu, hst, hn, hsl, hisr, hseen⟩
  · exact ⟨hpfn, hfit, hrings, hord, hroom, ht, hl, hu, trivial, hn, hsl, hisr, hseen⟩

theorem pushUsed_eq (hi : BlkInv h) (head len : Nat) :
    h.dev.pushUsed head len = { h.dev with
      usedIdx := (h.used.length + 1) % 65536
      mem := store busSize (store busSize h.dev.mem (usedSlot h.dev.pfn h.used.length)
        (leBytes 4 head ++ leBytes 4 len)) (usedBase h.dev.pfn + 2) (leBytes 2 (h.used.length + 1)) } := by
  have hf := hi.fit
  unfold RingsFit at hf
  have hb : busSize = 4294967296 := rfl
  have hslot : usedSlot h.dev.pfn h.dev.usedIdx = usedSlot h.dev.pfn h.used.length := by
    rw [usedSlot_eq, usedSlot_eq, hi.usedIdx]
    omega
  have hsucc : (h.dev.usedIdx + 1) % 2 ^ 16 = (h.used.length + 1) % 65536 := by
    rw [hi.usedIdx]
    omega
  have hbytes : leBytes 2 ((h.used.length + 1) % 65536) = leBytes 2 (h.used.length + 1) :=
    Lib.leBytes_mod 2 (h.used.length + 1)
  have hentry : usedSlot h.dev.pfn h.used.length + (leBytes 4 head ++ leBytes 4 len).length ≤
      busSize := by
    rw [usedSlot_eq, List.length_append, Lib.length_leBytes, Lib.length_leBytes]
    omega
  have hidx : usedBase h.dev.pfn + 2 + (leBytes 2 (h.used.length + 1)).length ≤ busSize := by
    rw [usedBase_eq, Lib.length_leBytes]
    omega
  unfold VirtioBlk.pushUsed
  dsimp only
  rw [hslot, hsucc, hbytes, dmaWrite_of_le hentry (by simp [leBytes]), Option.getD_some,
    dmaWrite_of_le hidx (by simp [leBytes]), Option.getD_some]

theorem BlkInv.push (hi : BlkInv h) {head len : Nat} (hpc : h.dev.pc = .pushing head len) :
    BlkInv (h.threadStep D) := by
  have heq := pushUsed_eq hi head len
  obtain ⟨hpfn, hfit, hrings, hord, hroom, ht, hl, hu, hst, hn, hsl, hisr, hseen⟩ := hi
  rw [hpc] at ht hl hst
  have hst : h.published[h.used.length]? = some head := hst
  obtain ⟨hlt, hget⟩ := List.getElem?_eq_some_iff.mp hst
  have hlen : (h.used ++ [(head, len)]).length = h.used.length + 1 := by simp
  unfold BlkHistory.threadStep VirtioBlk.threadStep
  simp only [hpc]
  rw [heq]
  refine ⟨hpfn, hfit, hrings.push hfit head len, ?_, ?_, ?_, ?_, ?_, (fun hf => nomatch hf), hn,
    ?_, hisr, ?_⟩
  · show (h.used ++ [(head, len)]).map Prod.fst = h.published.take (h.used ++ [(head, len)]).length
    rw [hlen, List.take_add_one, hst, List.map_append, hord]
    rfl
  · show h.published.length ≤ (h.used ++ [(head, len)]).length + kQueueSize
    omega
  · show (h.used ++ [(head, len)]).length + 0 ≤ h.published.length
    omega
  · show h.dev.lastAvail = ((h.used ++ [(head, len)]).length + 0) % 65536
    rw [hlen, hl]
    rfl
  · show (h.used.length + 1) % 65536 = (h.used ++ [(head, len)]).length % 65536
    rw [hlen]
  · show h.signals.length ≤ (h.used ++ [(head, len)]).length
    omega
  · show h.seen ≤ (h.used ++ [(head, len)]).length
    omega

theorem BlkInv.interrupt (hi : BlkInv h) (hpc : h.dev.pc = .interrupting) :
    BlkInv (h.threadStep D) := by
  obtain ⟨hpfn, hfit, hrings, hord, hroom, ht, hl, hu, hst, hn, hsl, hisr, hseen⟩ := hi
  rw [hpc] at ht hl hst
  have hlen : ∀ b, (h.signals ++ List.replicate (h.used.length - h.signals.length) b).length =
      h.used.length := by
    intro b
    rw [List.length_append, List.length_replicate]
    omega
  unfold BlkHistory.threadStep VirtioBlk.threadStep VirtioBlk.queueInterrupt
  simp only [hpc]
  cases hno : h.dev.noInterrupt with
  | true =>
    refine ⟨hpfn, hfit, hrings, hord, hroom, ht, hl, hu, ⟨hst, hlen _⟩, hn, le_of_eq (hlen _),
      fun k hk hs => ?_, hseen⟩
    have hk : (h.signals ++ List.replicate (h.used.length - h.signals.length) false)[k]? =
      some true := hk
    refine hisr k ?_ hs
    rw [List.getElem?_append] at hk
    split at hk
    · exact hk
    · rw [List.getElem?_replicate] at hk
      split at hk <;> cases hk
  | false =>
    refine ⟨hpfn, hfit, hrings, hord, hroom, ht, hl, hu, ⟨hst, hlen _⟩, hn, le_of_eq (hlen _),
      fun k hk hs => ?_, hseen⟩
    show (h.dev.isr ||| 1).getLsbD 0 = true
    simp

end Steps

/-! ## Runs -/

namespace BlkHistory

variable {h : BlkHistory δ}

/-- The driver also gives the device no buffer in the rings. -/
def RingsKept (h : BlkHistory δ) (op : BlkOp) : Prop :=
  DriverOk h op ∧ ∀ c, op = .thread → h.dev.pc = .requesting c → c.Avoids h.dev.pfn

theorem inv_thread (hi : BlkInv h) (hc : ∀ c, h.dev.pc = .requesting c → c.Avoids h.dev.pfn) :
    BlkInv (h.threadStep D) := by
  cases hpc : h.dev.pc with
  | waiting => exact hi.wake hpc
  | popping any => exact hi.pop hpc
  | requesting c => exact hi.request hpc (hc c hpc)
  | pushing head len => exact hi.push hpc
  | interrupting => exact hi.interrupt hpc
  | dead =>
    have : h.threadStep D = h := by
      unfold threadStep VirtioBlk.threadStep
      simp only [hpc]
    rwa [this]

theorem inv_step (hi : BlkInv h) {op : BlkOp} (hop : h.RingsKept op) : BlkInv (h.step D op) := by
  obtain ⟨hok, hav⟩ := hop
  cases op with
  | writeSlot j head => exact hi.setMem (hi.rings.store_avail hi.fit (.inr ⟨j, rfl, hok⟩))
  | advance n => exact hi.advance hok
  | notify => exact hi.notify
  | readIsr => exact hi.readIsr
  | setFlags flags => exact hi.setMem (hi.rings.store_avail hi.fit (.inl rfl))
  | writeMem a b => exact hi.writeMem hok
  | thread => exact inv_thread hi fun c => hav c rfl

theorem heads_step (hh : ∀ x ∈ h.published, x < 65536) (op : BlkOp) :
    ∀ x ∈ (h.step D op).published, x < 65536 := by
  cases op with
  | advance n =>
    intro x hx
    rcases List.mem_append.mp hx with hx | hx
    · exact hh x hx
    · obtain ⟨j, -, rfl⟩ := List.mem_map.mp hx
      exact word16_lt _ _
  | thread =>
    show ∀ x ∈ (h.threadStep D).published, x < 65536
    unfold threadStep
    dsimp only
    split <;> exact hh
  | _ => exact hh

/-- The used ring has the available heads in order, each once: the entries handed back are the heads
published first, the ring's index counts them, and its slots hold the last 256. A thread asleep and
not kicked has handed back what was published before the last notify. A buffer handed back whose
`queue_interrupt` found interrupts wanted has the ISR bit set until ISR is read after it was handed
back, and outside a batch every buffer handed back has had its `queue_interrupt`. -/
structure Completes (h : BlkHistory δ) : Prop where
  order : h.used.map Prod.fst = h.published.take h.used.length
  usedIdx : word16 h.dev.mem (usedBase h.dev.pfn + 2) = h.used.length % 65536
  entries : ∀ k < h.used.length, h.used.length ≤ k + kQueueSize →
    h.published[k]? = some (leNat (fetch busSize h.dev.mem (usedSlot h.dev.pfn k) 4))
  done : h.dev.pc = .waiting → h.dev.kicked = false → h.notified ≤ h.used.length
  settled : h.dev.pc = .waiting → h.signals.length = h.used.length
  isr : ∀ k, h.signals[k]? = some true → h.seen ≤ k → h.dev.isr.getLsbD 0 = true

theorem completes_of_inv (hi : BlkInv h) (hh : ∀ x ∈ h.published, x < 65536) : h.Completes where
  order := hi.order
  usedIdx := hi.rings.usedMem
  entries k hk hle := by
    have hfetch : fetch busSize h.dev.mem (usedSlot h.dev.pfn k) 4 = leBytes 4 h.used[k].1 := by
      have := congrArg (List.take 4) (hi.rings.entries k hle hk)
      rw [List.take_left' (Lib.length_leBytes 4 _)] at this
      rw [← this]
      unfold fetch
      rw [← List.map_take, List.take_range]
      rfl
    have hget : h.published[k]? = some h.used[k].1 := by
      have := congrArg (fun l => l[k]?) hi.order
      simpa [List.getElem?_take, hk] using this.symm
    have hlt := hh _ (List.mem_of_getElem? hget)
    rw [hget, hfetch, Lib.leNat_leBytes, Nat.mod_eq_of_lt (by omega)]
  done hpc hk := by
    have := hi.stage
    rw [hpc] at this
    exact this.1.resolve_left (by simp [hk])
  settled hpc := by
    have := hi.stage
    rw [hpc] at this
    exact this.2
  isr := hi.isr

/-- Over every interleaving of the driver's steps and the thread's, in which no chain lets the device
write into the rings. -/
theorem virtio_completes_in_order (hr : Lib.Reach Start RingsKept (step D) h) : h.Completes := by
  have hinv : BlkInv h ∧ ∀ x ∈ h.published, x < 65536 := by
    refine hr.inv (P := fun h => BlkInv h ∧ ∀ x ∈ h.published, x < 65536) (fun h hs => ?_)
      fun h op hP hok => ?_
    · refine ⟨BlkInv.start hs, ?_⟩
      simp [hs.published]
    · exact ⟨inv_step hP.1 hok, heads_step hP.2 op⟩
  exact completes_of_inv hinv.1 hinv.2

/-! ## Two runs -/

/-- No disk: nothing of it is used. -/
def noDisk : BlkDisk Unit where
  byteSize _ := 0
  ro _ := false
  serial _ := []
  seekByte _ _ := none
  readBytes d _ := ([], d)
  writeBytes d _ := some (0, d)
  flush d := d

/-- Guest memory with a chain at descriptor 0: a header of zeros, then a byte for the status where
the used ring has its first entry. -/
def overlapping : GuestMem := fun x =>
  if x = 4098 then 1 else if x = 4104 then 16 else if x = 4108 then 1 else if x = 4110 then 1
  else if x = 4112 then 0x04 else if x = 4113 then 0x30 else if x = 4120 then 1
  else if x = 4124 then 2 else 0

def queueAt1 (mem : GuestMem) : BlkHistory Unit where
  dev := ⟨mem, 1, 0, 0, 0, false, false, none, .waiting⟩
  published := []
  used := []
  notified := 0
  seen := 0
  signals := []

theorem start_overlapping : (queueAt1 overlapping).Start := by
  refine ⟨by decide, ?_, by decide +kernel, by decide +kernel, rfl, rfl, rfl, rfl, rfl, rfl, rfl, rfl⟩
  show usedBase 1 + 4 + 8 * kQueueSize ≤ busSize
  decide

/-- Descriptor 5, empty, and descriptor 0 are published; the thread answers both. -/
def twoBuffers : List BlkOp :=
  [.writeSlot 0 5, .writeSlot 1 0, .advance 2, .notify, .thread, .thread, .thread, .thread, .thread,
    .thread, .thread]

theorem reach_twoBuffers :
    Lib.Reach Start DriverOk (step noDisk) (twoBuffers.foldl (step noDisk) (queueAt1 overlapping)) := by
  simp only [twoBuffers, List.foldl_cons, List.foldl_nil]
  refine Lib.Reach.next (Lib.Reach.next (Lib.Reach.next (Lib.Reach.next (Lib.Reach.next (Lib.Reach.next
    (Lib.Reach.next (Lib.Reach.next (Lib.Reach.next (Lib.Reach.next (Lib.Reach.next
      (.start start_overlapping) ?_) ?_) ?_) trivial) trivial) trivial) trivial) trivial) trivial)
        trivial) trivial
  · show 0 + 0 < 0 + 256
    decide
  · show 0 + 1 < 0 + 256
    decide
  · show 0 + 2 ≤ 0 + 256
    decide

/-- The status byte of the second buffer goes over the first entry of the used ring. -/
theorem virtio_overwrites_used : ¬∀ h : BlkHistory Unit,
    Lib.Reach Start DriverOk (step noDisk) h → h.Completes := by
  intro hall
  have := (hall _ reach_twoBuffers).entries 0 (by decide +kernel) (by decide +kernel)
  revert this
  decide +kernel

/-- The same chain with its status byte in a page of its own. -/
def apart : GuestMem := Function.update (Function.update overlapping 4112 0) 4113 0x50

theorem start_apart : (queueAt1 apart).Start := by
  refine ⟨by decide, ?_, by decide +kernel, by decide +kernel, rfl, rfl, rfl, rfl, rfl, rfl, rfl, rfl⟩
  show usedBase 1 + 4 + 8 * kQueueSize ≤ busSize
  decide

/-- A chain keeps the rings when none of its device-writable bytes, each looked at, is in them. -/
theorem ringsKept_thread {h : BlkHistory δ} (hw : (match h.dev.pc with
      | .requesting c => c.segs.all fun s => !s.write ||
          (List.range s.len).all fun k => !decide (InRings h.dev.pfn ((s.addr + k) % busSize))
      | _ => true) = true) : h.RingsKept .thread := by
  refine ⟨trivial, fun c _ hpc s hs x hcov => ?_⟩
  obtain ⟨hwrite, k, hk, rfl⟩ := hcov
  rw [hpc] at hw
  have hseg := List.all_eq_true.mp hw s hs
  rw [hwrite, Bool.not_true, Bool.false_or] at hseg
  have hbyte := List.all_eq_true.mp hseg k (List.mem_range.mpr hk)
  simpa using hbyte

/-- The two buffers, to the interrupt. -/
def twoAnswered : List BlkOp := twoBuffers ++ [.thread, .thread]

theorem reach_twoAnswered : Lib.Reach Start RingsKept (step noDisk)
    (twoAnswered.foldl (step noDisk) (queueAt1 apart)) := by
  simp only [twoAnswered, twoBuffers, List.cons_append, List.nil_append, List.foldl_cons,
    List.foldl_nil]
  refine Lib.Reach.next (Lib.Reach.next (Lib.Reach.next (Lib.Reach.next (Lib.Reach.next
    (Lib.Reach.next (Lib.Reach.next (Lib.Reach.next (Lib.Reach.next (Lib.Reach.next (Lib.Reach.next
      (Lib.Reach.next (Lib.Reach.next (.start start_apart) ⟨?_, nofun⟩) ⟨?_, nofun⟩) ⟨?_, nofun⟩)
        ⟨trivial, nofun⟩) ?_) ?_) ?_) ?_) ?_) ?_) ?_) ?_) ?_
  · show 0 + 0 < 0 + 256
    decide
  · show 0 + 1 < 0 + 256
    decide
  · show 0 + 2 ≤ 0 + 256
    decide
  all_goals
    apply ringsKept_thread
    decide +kernel

/-- The ring has both heads, the second one's status, an error, is where its chain says, and the
interrupt is up. -/
theorem virtio_completes_in_order_two :
    let h := twoAnswered.foldl (step noDisk) (queueAt1 apart)
    h.dev.pc = .waiting ∧ h.dev.mem 0x5000 = BlkStatus.ioerr.byte ∧ 2 ≤ h.used.length ∧
      some 5 = some (leNat (fetch busSize h.dev.mem (usedSlot 1 0) 4)) ∧
      some 0 = some (leNat (fetch busSize h.dev.mem (usedSlot 1 1) 4)) ∧
      h.dev.isr.getLsbD 0 = true := by
  have hc := virtio_completes_in_order reach_twoAnswered
  have hused : (twoAnswered.foldl (step noDisk) (queueAt1 apart)).used.length = 2 := by
    decide +kernel
  have hsize : 2 ≤ kQueueSize := by decide
  have hdone := hc.done (by decide +kernel) (by decide +kernel)
  refine ⟨by decide +kernel, by decide +kernel, le_trans (by decide +kernel) hdone, ?_, ?_, ?_⟩
  · exact hc.entries 0 (by omega) (by omega)
  · exact hc.entries 1 (by omega) (by omega)
  · exact hc.isr 1 (by decide +kernel) (by decide +kernel)

end BlkHistory

end Alphabox.Pci
