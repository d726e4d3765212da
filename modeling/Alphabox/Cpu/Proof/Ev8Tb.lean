import Alphabox.Cpu.Ev8Tb
import Alphabox.Cpu.Proof.Restore

/-!
# The native EV8's TB is one tagged by group

In every state reached from reset an entry is valid just when it is present and of its stream's
group, and the index holds the valid 8 KB entries and counts the valid larger ones
(`Ev8.Inv`). So the two TBs are those of `GroupTb` seen through `Ev8.groupTb`, operation by
operation (`Ev8.step_sim`), and a lookup finds an entry just when the tagged TB holds a match.
-/

namespace Alphabox.Cpu

open Function (update)

/-! ## The index holds nothing else -/

/-- Every way in use is of a live 8 KB entry of the set, and no slot is in two ways. -/
structure IndexOnly (tb : TbSlot → STBEntry) (ix : TbIndex) : Prop where
  once : ∀ s i, (ix.ways s).count (some i) ≤ 1
  sound : ∀ s i, some i ∈ ix.ways s →
    (tb i).valid = true ∧ tbIdx8k (tb i).matchMask = true ∧ tbIdxSet (tb i).virt = s

/-- The index is exact and holds nothing else. -/
structure IndexExact (tb : TbSlot → STBEntry) (ix : TbIndex) : Prop extends
  IndexOk tb ix, IndexOnly tb ix

section Ways

variable {ix : TbIndex} {virt : BitVec 64} {slot j : TbSlot} {s : BitVec 11}
  {w : List (Option TbSlot)}

/-- An insert takes the slot's own way when it has one. -/
theorem insertWay_own (hl : w.length = kTbIdxWays) (hp : Lib.Packed w) (hm : some slot ∈ w) :
    w[TbIndex.insertWay w slot]? = some (some slot) := by
  have hlt : (w.findIdx fun x => x == some slot || x == none) < w.length :=
    List.findIdx_lt_length_of_exists ⟨some slot, hm, by simp⟩
  have hw : TbIndex.insertWay w slot = w.findIdx fun x => x == some slot || x == none := by
    unfold TbIndex.insertWay
    omega
  rw [hw, List.getElem?_eq_getElem hlt]
  have hk := List.findIdx_getElem (w := hlt)
  rw [Bool.or_eq_true, beq_iff_eq, beq_iff_eq] at hk
  rcases hk with hk | hk
  · rw [hk]
  -- an empty way is after all those in use
  · obtain ⟨i, hi, hs⟩ := List.mem_iff_getElem.mp hm
    rcases Nat.lt_trichotomy i (w.findIdx fun x => x == some slot || x == none) with h | h | h
    · have := List.not_of_lt_findIdx h
      simp [hs] at this
    · subst h
      rw [hs]
    · have := List.pairwise_iff_getElem.mp hp _ _ hlt hi h hk
      rw [hs] at this
      cases this

theorem insert_mem (h : some j ∈ (ix.insert virt slot).ways s) :
    (s = tbIdxSet virt ∧ j = slot) ∨ some j ∈ ix.ways s := by
  unfold TbIndex.insert at h
  dsimp only at h
  by_cases hs : s = tbIdxSet virt
  · subst hs
    rw [Function.update_self] at h
    rcases List.mem_cons.mp h with h | h
    · exact .inl ⟨rfl, Option.some.inj h⟩
    · exact .inr (List.mem_of_mem_eraseIdx h)
  · rw [Function.update_of_ne hs] at h
    exact .inr h

theorem insert_once (hl : ∀ s, (ix.ways s).length = kTbIdxWays) (hp : ∀ s, Lib.Packed (ix.ways s))
    (h : ∀ s i, (ix.ways s).count (some i) ≤ 1) :
    ((ix.insert virt slot).ways s).count (some j) ≤ 1 := by
  unfold TbIndex.insert
  dsimp only
  by_cases hs : s = tbIdxSet virt
  · subst hs
    rw [Function.update_self]
    have hle := (List.eraseIdx_sublist (ix.ways (tbIdxSet virt))
      (TbIndex.insertWay (ix.ways (tbIdxSet virt)) slot)).count_le (some j)
    have hj := h (tbIdxSet virt) j
    by_cases hjs : j = slot
    · subst hjs
      rw [List.count_cons_self]
      by_cases hm : some j ∈ ix.ways (tbIdxSet virt)
      · obtain ⟨hlt, hk⟩ := List.getElem?_eq_some_iff.mp (insertWay_own (hl _) (hp _) hm)
        have hc := (List.getElem_cons_eraseIdx_perm hlt).count_eq (some j)
        rw [hk, List.count_cons_self] at hc
        omega
      · have := List.count_eq_zero.mpr hm
        omega
    · rw [List.count_cons_of_ne (by simpa using Ne.symm hjs)]
      omega
  · rw [Function.update_of_ne hs]
    exact h s j

theorem remove_mem (h : some j ∈ (ix.remove virt slot).ways s) : some j ∈ ix.ways s := by
  unfold TbIndex.remove at h
  dsimp only at h
  split at h
  · by_cases hs : s = tbIdxSet virt
    · subst hs
      dsimp only at h
      rw [Function.update_self] at h
      rcases List.mem_append.mp h with h | h
      · exact List.mem_of_mem_eraseIdx h
      · simp at h
    · dsimp only at h
      rwa [Function.update_of_ne hs] at h
  · exact h

theorem remove_count_le :
    ((ix.remove virt slot).ways s).count (some j) ≤ (ix.ways s).count (some j) := by
  unfold TbIndex.remove
  dsimp only
  split
  · by_cases hs : s = tbIdxSet virt
    · subst hs
      dsimp only
      rw [Function.update_self, List.count_append]
      have := (List.eraseIdx_sublist (ix.ways (tbIdxSet virt)) ‹Nat›).count_le (some j)
      simpa using this
    · dsimp only
      rw [Function.update_of_ne hs]
  · exact le_rfl

/-- A slot that is in one way leaves its set. -/
theorem remove_self (h : (ix.ways (tbIdxSet virt)).count (some slot) ≤ 1) :
    some slot ∉ (ix.remove virt slot).ways (tbIdxSet virt) := by
  unfold TbIndex.remove
  dsimp only
  split
  · rename_i k hk
    obtain ⟨hlt, hb, -⟩ := List.findIdx?_eq_some_iff_getElem.mp hk
    have hc := (List.getElem_cons_eraseIdx_perm hlt).count_eq (some slot)
    rw [beq_iff_eq.mp hb, List.count_cons_self] at hc
    dsimp only
    rw [Function.update_self]
    refine List.count_eq_zero.mp ?_
    rw [List.count_append]
    simp
    omega
  · rename_i hk
    intro hm
    have := List.findIdx?_eq_none_iff.mp hk (some slot) hm
    simp at this

end Ways

namespace IndexOnly

variable {tb : TbSlot → STBEntry} {ix : TbIndex} {i : TbSlot} {e : STBEntry}

/-- What an invalid slot's new entry does not disturb. -/
theorem update_invalid (h : IndexOnly tb ix) (hv : (tb i).valid = false) :
    IndexOnly (update tb i e) ix := by
  refine ⟨h.once, fun s j hj => ?_⟩
  have hs := h.sound s j hj
  by_cases hji : j = i
  · subst hji
    rw [hv] at hs
    cases hs.1
  · rwa [Function.update_of_ne hji]

theorem drop (h : IndexOnly tb ix) (hv : (tb i).valid = true) :
    IndexOnly (update tb i e) (ix.drop (tb i) i) := by
  unfold TbIndex.drop
  split
  · rename_i h8
    refine ⟨fun s j => le_trans remove_count_le (h.once s j), fun s j hj => ?_⟩
    have hs := h.sound s j (remove_mem hj)
    by_cases hji : j = i
    · subst hji
      rw [← hs.2.2] at hj
      exact absurd hj (remove_self (h.once _ _))
    · rwa [Function.update_of_ne hji]
  · rename_i h8
    refine ⟨h.once, fun s j hj => ?_⟩
    have hs := h.sound s j hj
    by_cases hji : j = i
    · subst hji
      exact absurd hs.2.1 h8
    · rwa [Function.update_of_ne hji]

theorem add (h : IndexOnly tb ix) (ho : IndexOk tb ix) (hv : (tb i).valid = false)
    (he : e.valid = true) : IndexOnly (update tb i e) (ix.add e i) := by
  have hu := h.update_invalid (e := e) hv
  unfold TbIndex.add
  split
  · rename_i h8
    refine ⟨fun s j => insert_once ho.len ho.packed h.once, fun s j hj => ?_⟩
    rcases insert_mem hj with ⟨rfl, rfl⟩ | hj
    · rw [Function.update_self]
      exact ⟨he, h8, rfl⟩
    · exact hu.sound s j hj
  · exact ⟨hu.once, hu.sound⟩

end IndexOnly

namespace IndexExact

variable {tb : TbSlot → STBEntry} {ix : TbIndex} {i : TbSlot} {e : STBEntry}

theorem empty (h : ∀ i, (tb i).valid = false) : IndexExact tb TbIndex.empty where
  toIndexOk := indexOk_empty h
  once s j := by simp [TbIndex.empty, emptyWays, List.count_replicate]
  sound s j hj := by simp [TbIndex.empty, emptyWays, List.mem_replicate] at hj

theorem add (h : IndexExact tb ix) (hv : (tb i).valid = false) (he : e.valid = true) :
    IndexExact (update tb i e) (ix.add e i) :=
  ⟨h.toIndexOk.add hv he, h.toIndexOnly.add h.toIndexOk hv he⟩

theorem skip (h : IndexExact tb ix) (hv : (tb i).valid = false) (he : e.valid = false) :
    IndexExact (update tb i e) ix :=
  ⟨h.toIndexOk.update_invalid hv he, h.toIndexOnly.update_invalid hv⟩

theorem rebuild (tb : TbSlot → STBEntry) : IndexExact tb (TbIndex.rebuild tb) :=
  rebuild_inv (P := IndexExact) empty add skip tb

/-- An entry leaves its slot, shown by the index or not. -/
theorem leave (h : IndexExact tb ix) (he : e.valid = false) :
    IndexExact (update tb i e) (if (tb i).valid then ix.drop (tb i) i else ix) := by
  split
  · rename_i hv
    exact ⟨h.toIndexOk.drop hv he, h.toIndexOnly.drop hv⟩
  · rename_i hv
    exact h.skip (by simpa using hv) he

/-- An entry takes a slot over. -/
theorem fill (h : IndexExact tb ix) (he : e.valid = true) :
    IndexExact (update tb i e) ((if (tb i).valid then ix.drop (tb i) i else ix).add e i) := by
  have := (h.leave (i := i) (e := (tb i).invalidate) rfl).add (i := i)
    (by rw [Function.update_self]; rfl) he
  rwa [Function.update_idem] at this

/-- A live 8 KB entry moves to the front of its set. -/
theorem insert (h : IndexExact tb ix) (hv : (tb i).valid = true)
    (h8 : tbIdx8k (tb i).matchMask = true) : IndexExact tb (ix.insert (tb i).virt i) := by
  refine ⟨h.toIndexOk.insert, fun s j => insert_once h.len h.packed h.once, fun s j hj => ?_⟩
  rcases insert_mem hj with ⟨rfl, rfl⟩ | hj
  · exact ⟨hv, h8, rfl⟩
  · exact h.sound s j hj

end IndexExact

/-! ## The invariant and the tagged TB -/

namespace Ev8

variable {s : Ev8} {t : Tb} {i : TbSlot} {e : STBEntry} {va : BitVec 64}

/-- A TB's cached view of its entries is right (module doc). Nothing fills the shadow. -/
structure Inv (s : Ev8) : Prop where
  valid : ∀ t i, (s.cpu.tb t i).valid = s.inGroup t i
  idx : ∀ t, IndexExact (s.cpu.tb t) (s.cpu.idx t)
  shadow : ∀ k, (s.cpu.shadow k).valid = false
  grp : ∀ t, s.grp t < 256

/-- The entry of a slot, whatever its group. -/
def slotEntry (s : Ev8) (t : Tb) (i : TbSlot) : Option GroupEntry :=
  if s.present t i then some ⟨s.entryGrp t i, { s.cpu.tb t i with valid := true }⟩ else none

/-- The tagged TB a stream's TB stands for. -/
def groupTb (s : Ev8) (t : Tb) : GroupTb where
  slots := s.slotEntry t
  next := s.cpu.nextTb t
  grp := s.grp t
  asn := s.cpu.asnOf t
  ctl := s.ctl t

theorem covers_valid (e : STBEntry) (b : Bool) : { e with valid := b }.covers va = e.covers va := rfl

theorem matches_iff (h : s.Inv) :
    (s.groupTb t).Matches va i ↔ (s.cpu.tb t i).hits va (s.cpu.asnOf t) = true := by
  rw [STBEntry.hits_iff, h.valid]
  unfold GroupTb.Matches groupTb slotEntry inGroup
  cases hp : s.present t i with
  | false => simp [hp]
  | true => simp [hp, covers_valid]

/-! ### Fills -/

theorem fill_spec (s : Ev8) (t : Tb) (virt : BitVec 64) (e : STBEntry) (i : TbSlot) :
    ∃ last dpc, s.fill t virt e i = { s with
      cpu := { s.cpu with
        tb := update s.cpu.tb t (update (s.cpu.tb t) i e)
        idx := update s.cpu.idx t ((if (s.cpu.tb t i).valid then
          (s.cpu.idx t).drop (s.cpu.tb t i) i else s.cpu.idx t).add e i)
        lastFoundTb := last
        dpc }
      present := update s.present t (update (s.present t) i true)
      entryGrp := update s.entryGrp t (update (s.entryGrp t) i (s.grp t % 256)) } := by
  unfold fill
  cases hv : (s.cpu.tb t i).valid <;> cases t <;>
    simp only [AlphaCPU.setEntry, AlphaCPU.tbIdxAdd, AlphaCPU.tbIdxDrop, AlphaCPU.setIdx,
      AlphaCPU.setLastFound, AlphaCPU.flushDataPageCacheRange, Function.update_self,
      Function.update_idem, hv, Bool.false_eq_true, if_false, if_true] <;>
    exact ⟨_, _, rfl⟩

theorem fill_sim (h : s.Inv) (he : e.valid = true) (virt : BitVec 64) :
    (s.fill t virt e i).Inv ∧ (s.fill t virt e i).groupTb = update s.groupTb t
      { s.groupTb t with slots := update (s.groupTb t).slots i (some ⟨s.grp t, e⟩) } := by
  obtain ⟨last, dpc, hf⟩ := fill_spec s t virt e i
  rw [hf]
  have hmod : s.grp t % 256 = s.grp t := Nat.mod_eq_of_lt (h.grp t)
  have hee : { e with valid := true } = e := by rw [← he]
  refine ⟨⟨fun t' j => ?_, fun t' => ?_, h.shadow, h.grp⟩, ?_⟩
  · show (update s.cpu.tb t (update (s.cpu.tb t) i e) t' j).valid =
      (update s.present t (update (s.present t) i true) t' j &&
        update s.entryGrp t (update (s.entryGrp t) i (s.grp t % 256)) t' j == s.grp t')
    rw [Lib.update_row_apply, Lib.update_row_apply, Lib.update_row_apply]
    split
    · rename_i hti
      simp [he, hmod, hti.1]
    · exact h.valid t' j
  · by_cases ht : t' = t
    · subst ht
      simp only [Function.update_self]
      exact (h.idx t').fill he
    · simp only [Function.update_of_ne ht]
      exact h.idx t'
  · funext t'
    by_cases ht : t' = t
    · subst ht
      rw [Function.update_self]
      unfold groupTb
      simp only [GroupTb.mk.injEq, true_and, and_true]
      refine ⟨?_, rfl⟩
      funext j
      by_cases hj : j = i
      · subst hj
        simp [slotEntry, hmod, hee]
      · simp [slotEntry, hj]
    · rw [Function.update_of_ne ht]
      unfold groupTb slotEntry
      simp only [Function.update_of_ne ht]
      rfl

/-- The fill's search finds the same slot in the tagged TB. -/
theorem sameSlot_eq (s : Ev8) (t : Tb) (virt : BitVec 64) (asmBit : Bool) :
    s.sameSlot t virt (s.cpu.asnOf t) asmBit = (s.groupTb t).sameSlot virt asmBit := by
  unfold sameSlot GroupTb.sameSlot
  congr 1
  funext j
  simp only [groupTb, slotEntry, inGroup]
  cases s.present t j with
  | false => simp
  | true => simp [covers_valid]

theorem setNext_sim (h : s.Inv) (i : TbSlot) :
    ({ s with cpu := s.cpu.setNext t i } : Ev8).Inv ∧
      ({ s with cpu := s.cpu.setNext t i } : Ev8).groupTb =
        update s.groupTb t { s.groupTb t with next := i } := by
  refine ⟨⟨h.valid, h.idx, h.shadow, h.grp⟩, ?_⟩
  funext t'
  by_cases ht : t' = t
  · subst ht
    rw [Function.update_self]
    unfold groupTb AlphaCPU.setNext
    simp only [Function.update_self]
    rfl
  · rw [Function.update_of_ne ht]
    unfold groupTb AlphaCPU.setNext
    simp only [Function.update_of_ne ht]
    rfl

theorem addTb_sim (h : s.Inv) (t : Tb) (virt pte : BitVec 64) :
    (s.addTb t virt pte).Inv ∧ (s.addTb t virt pte).groupTb =
      update s.groupTb t ((s.groupTb t).exec t (.addTb t virt pte)) := by
  unfold addTb GroupTb.exec
  dsimp only
  by_cases hd : t = .dtb ∧ pte.getLsbD 0 = false
  · rw [if_pos hd, if_pos hd, Function.update_eq_self]
    exact ⟨⟨h.valid, h.idx, h.shadow, h.grp⟩, rfl⟩
  · rw [if_neg hd, if_neg hd]
    have he : (STBEntry.ofEv8Pte t (ev8Va52 (s.ctl t)) virt pte (s.cpu.asnOf t)).valid = true := rfl
    have hg : STBEntry.ofEv8Pte t (ev8Va52 (s.groupTb t).ctl) virt pte (s.groupTb t).asn =
        STBEntry.ofEv8Pte t (ev8Va52 (s.ctl t)) virt pte (s.cpu.asnOf t) := rfl
    have ha : (STBEntry.ofEv8Pte t (ev8Va52 (s.ctl t)) virt pte (s.cpu.asnOf t)).asn =
        s.cpu.asnOf t := rfl
    rw [hg, ha]
    generalize STBEntry.ofEv8Pte t (ev8Va52 (s.ctl t)) virt pte (s.cpu.asnOf t) = e at he
    unfold fillSlot GroupTb.add
    rw [sameSlot_eq]
    cases (s.groupTb t).sameSlot virt e.asmBit with
    | some i => exact fill_sim h he virt
    | none =>
      obtain ⟨hn, hv⟩ := setNext_sim (t := t) h (s.cpu.nextTb t + 1)
      obtain ⟨hi, hf⟩ := fill_sim (t := t) (i := s.cpu.nextTb t) hn he virt
      refine ⟨hi, ?_⟩
      dsimp only at hf ⊢
      rw [hf, hv, Function.update_self, Function.update_idem]
      rfl

/-! ### Invalidates -/

theorem drop_eq (s : Ev8) (t : Tb) (j : TbSlot) : s.drop t j = { s with
    cpu := { s.cpu with
      tb := update s.cpu.tb t (update (s.cpu.tb t) j (s.cpu.tb t j).invalidate)
      idx := update s.cpu.idx t
        (if (s.cpu.tb t j).valid then (s.cpu.idx t).drop (s.cpu.tb t j) j else s.cpu.idx t) }
    present := update s.present t (update (s.present t) j false) } := by
  unfold drop
  cases hv : (s.cpu.tb t j).valid <;>
    simp [AlphaCPU.setEntry, AlphaCPU.tbIdxDrop, AlphaCPU.setIdx]

/-- The slot is free in the tagged TB too. -/
theorem drop_sim (h : s.Inv) (t : Tb) (j : TbSlot) :
    (s.drop t j).Inv ∧ (s.drop t j).groupTb = update s.groupTb t
      { s.groupTb t with slots := update (s.groupTb t).slots j none } := by
  rw [drop_eq]
  refine ⟨⟨fun t' k => ?_, fun t' => ?_, h.shadow, h.grp⟩, ?_⟩
  · show (update s.cpu.tb t (update (s.cpu.tb t) j (s.cpu.tb t j).invalidate) t' k).valid =
      (update s.present t (update (s.present t) j false) t' k && s.entryGrp t' k == s.grp t')
    rw [Lib.update_row_apply, Lib.update_row_apply]
    split
    · simp [STBEntry.invalidate]
    · exact h.valid t' k
  · by_cases ht : t' = t
    · subst ht
      simp only [Function.update_self]
      exact (h.idx t').leave rfl
    · simp only [Function.update_of_ne ht]
      exact h.idx t'
  · funext t'
    by_cases ht : t' = t
    · subst ht
      rw [Function.update_self]
      unfold groupTb
      simp only [GroupTb.mk.injEq, true_and, and_true]
      refine ⟨?_, rfl⟩
      funext k
      by_cases hk : k = j
      · subst hk
        simp [slotEntry]
      · simp [slotEntry, hk]
    · rw [Function.update_of_ne ht]
      unfold groupTb slotEntry
      simp only [Function.update_of_ne ht]
      rfl

/-- One turn of an invalidate's loop, with what it flushes from the page cache: the slot's entry
goes if `p` names it. -/
structure Turn (t : Tb) (p : Nat → Nat → Nat → STBEntry → Bool) (f : Ev8 → TbSlot → Ev8) : Prop where
  keep : ∀ {s j}, (s.present t j && p (s.grp t) (s.cpu.asnOf t) (s.entryGrp t j) (s.cpu.tb t j)) =
    false → f s j = s
  take : ∀ {s j}, (s.present t j && p (s.grp t) (s.cpu.asnOf t) (s.entryGrp t j) (s.cpu.tb t j)) =
    true → ∃ dpc, f s j = { s.drop t j with cpu := { (s.drop t j).cpu with dpc } }

theorem turn_im (t : Tb) (mode : BitVec 64) : Turn t (imSelects mode) (tbImSlot t mode) where
  keep hp := by
    unfold tbImSlot
    rw [if_neg (by simp [hp])]
  take hp := by
    unfold tbImSlot
    rw [if_pos hp]
    exact ⟨_, rfl⟩

theorem turn_is (t : Tb) (va : BitVec 64) : Turn t (isSelects va) (tbIsSlot t va) where
  keep hp := by
    unfold tbIsSlot
    rw [if_neg (by simp [hp])]
  take hp := by
    unfold tbIsSlot
    rw [if_pos hp]
    cases t with
    | itb => exact ⟨_, rfl⟩
    | dtb => exact ⟨_, rfl⟩

/-- `p` does not look at `valid`. -/
def IgnoresValid (p : Nat → Nat → Nat → STBEntry → Bool) : Prop :=
  ∀ g a k e b, p g a k { e with valid := b } = p g a k e

theorem turn_sim {p : Nat → Nat → Nat → STBEntry → Bool} {f : Ev8 → TbSlot → Ev8} (hf : Turn t p f)
    (hi : IgnoresValid p) (h : s.Inv) (j : TbSlot) :
    (f s j).Inv ∧ (f s j).groupTb = update s.groupTb t { s.groupTb t with
      slots := update (s.groupTb t).slots j (((s.groupTb t).slots j).filter fun x =>
        !p (s.grp t) (s.cpu.asnOf t) x.grp x.page) } := by
  have hslot : (s.groupTb t).slots j = s.slotEntry t j := rfl
  cases hp : s.present t j && p (s.grp t) (s.cpu.asnOf t) (s.entryGrp t j) (s.cpu.tb t j) with
  | true =>
    obtain ⟨dpc, he⟩ := hf.take hp
    obtain ⟨hd, hg⟩ := drop_sim h t j
    rw [Bool.and_eq_true] at hp
    have hnone : ((s.groupTb t).slots j).filter (fun x =>
        !p (s.grp t) (s.cpu.asnOf t) x.grp x.page) = none := by
      simp [hslot, slotEntry, hp.1, hi _ _ _ (s.cpu.tb t j) true, hp.2]
    rw [he, hnone, ← hg]
    exact ⟨⟨hd.valid, hd.idx, hd.shadow, hd.grp⟩, rfl⟩
  | false =>
    rw [hf.keep hp]
    refine ⟨h, ?_⟩
    have hsame : ((s.groupTb t).slots j).filter (fun x =>
        !p (s.grp t) (s.cpu.asnOf t) x.grp x.page) = (s.groupTb t).slots j := by
      cases hpr : s.present t j with
      | false => simp [hslot, slotEntry, hpr]
      | true =>
        rw [hpr, Bool.true_and] at hp
        simp [hslot, slotEntry, hpr, hi _ _ _ (s.cpu.tb t j) true, hp]
    rw [hsame, Function.update_eq_self, Function.update_eq_self]

/-- An invalidate's loop over the slots `l` deletes from the tagged TB what `p` names there. -/
theorem loop_sim {p : Nat → Nat → Nat → STBEntry → Bool} {f : Ev8 → TbSlot → Ev8} (hf : Turn t p f)
    (hi : IgnoresValid p) (h : s.Inv) (l : List TbSlot) :
    (l.foldl f s).Inv ∧ (l.foldl f s).groupTb = update s.groupTb t { s.groupTb t with
      slots := fun i => if i ∈ l then ((s.groupTb t).slots i).filter fun x =>
        !p (s.grp t) (s.cpu.asnOf t) x.grp x.page else (s.groupTb t).slots i } := by
  induction l generalizing s with
  | nil =>
    simp only [List.foldl_nil, List.not_mem_nil, if_false]
    exact ⟨h, (Function.update_eq_self ..).symm⟩
  | cons a l ih =>
    obtain ⟨h1, hg1⟩ := turn_sim hf hi h a
    obtain ⟨h2, hg2⟩ := ih h1
    refine ⟨h2, ?_⟩
    have hgrp : (f s a).grp t = s.grp t := by
      have := congrArg (fun r => (r t).grp) hg1
      simpa [groupTb] using this
    have hasn : (f s a).cpu.asnOf t = s.cpu.asnOf t := by
      have := congrArg (fun r => (r t).asn) hg1
      simpa [groupTb] using this
    rw [List.foldl_cons, hg2, hg1, hgrp, hasn, Function.update_self, Function.update_idem]
    refine congrArg (update s.groupTb t) ?_
    simp only [GroupTb.mk.injEq, and_true]
    funext i
    by_cases hia : i = a
    · subst hia
      simp [Option.filter_filter]
    · simp [hia]

theorem delete_sim {p : Nat → Nat → Nat → STBEntry → Bool} {f : Ev8 → TbSlot → Ev8} (hf : Turn t p f)
    (hi : IgnoresValid p) (h : s.Inv) :
    ((List.finRange TB_ENTRIES).foldl f s).Inv ∧ ((List.finRange TB_ENTRIES).foldl f s).groupTb =
      update s.groupTb t
        ((s.groupTb t).delete fun x => p (s.groupTb t).grp (s.groupTb t).asn x.grp x.page) := by
  obtain ⟨hinv, hg⟩ := loop_sim hf hi h (List.finRange TB_ENTRIES)
  refine ⟨hinv, ?_⟩
  rw [hg]
  simp only [List.mem_finRange, if_true]
  rfl

theorem tbIm_sim (h : s.Inv) (t : Tb) (mode : BitVec 64) :
    (s.tbIm t mode).Inv ∧ (s.tbIm t mode).groupTb =
      update s.groupTb t ((s.groupTb t).exec t (.tbIm t mode)) := by
  obtain ⟨hl, hg⟩ := delete_sim (turn_im t mode) (fun _ _ _ _ _ => rfl) h
  unfold tbIm GroupTb.exec
  generalize (List.finRange TB_ENTRIES).foldl (tbImSlot t mode) s = s' at hl hg
  have hc : ∀ c : AlphaCPU, ({ s' with cpu := c } : Ev8).Inv →
      ({ s' with cpu := tbChanged c t } : Ev8).Inv ∧
        ({ s' with cpu := tbChanged c t } : Ev8).groupTb = ({ s' with cpu := c } : Ev8).groupTb := by
    intro c hc
    cases t with
    | itb => exact ⟨hc, rfl⟩
    | dtb => exact ⟨⟨hc.valid, hc.idx, hc.shadow, hc.grp⟩, rfl⟩
  dsimp only
  cases mode.getLsbD 4 with
  | false =>
    obtain ⟨hi, he⟩ := hc s'.cpu hl
    exact ⟨hi, he.trans hg⟩
  | true =>
    obtain ⟨hn, hv⟩ := setNext_sim (t := t) hl 0
    obtain ⟨hi, he⟩ := hc (s'.cpu.setNext t 0) hn
    refine ⟨hi, he.trans (hv.trans ?_)⟩
    rw [hg, Function.update_self, Function.update_idem]
    rfl

theorem tbIs_sim (h : s.Inv) (t : Tb) (va : BitVec 64) :
    (s.tbIs t va).Inv ∧ (s.tbIs t va).groupTb =
      update s.groupTb t ((s.groupTb t).exec t (.tbIs t va)) := by
  obtain ⟨hl, hg⟩ := delete_sim (turn_is t va) (fun _ _ _ _ _ => rfl) h
  unfold tbIs GroupTb.exec
  generalize (List.finRange TB_ENTRIES).foldl (tbIsSlot t va) s = s' at hl hg
  cases t with
  | itb => exact ⟨hl, hg⟩
  | dtb => exact ⟨⟨hl.valid, hl.idx, hl.shadow, hl.grp⟩, hg⟩

/-! ### Groups and address spaces -/

/-- The entries of the new group show, the others do not; the tagged TB has only its group
changed. -/
theorem setGroup_sim (h : s.Inv) (t : Tb) {grp : Nat} (hlt : grp < 256) :
    (s.setGroup t grp).Inv ∧ (s.setGroup t grp).groupTb =
      update s.groupTb t { s.groupTb t with grp } := by
  unfold setGroup
  split
  · rename_i hgrp
    refine ⟨h, ?_⟩
    subst hgrp
    exact (Function.update_eq_self ..).symm
  · -- for either TB, whatever else of the processor the change touches
    have key : ∀ c : AlphaCPU, c.tb = (update s.cpu.tb t fun j =>
          { s.cpu.tb t j with valid := s.present t j && s.entryGrp t j == grp }) →
        c.idx = (fun t => TbIndex.rebuild (c.tb t)) → c.shadow = s.cpu.shadow →
        c.nextTb = s.cpu.nextTb → c.asnOf = s.cpu.asnOf →
        ({ s with cpu := c, grp := update s.grp t grp } : Ev8).Inv ∧
          ({ s with cpu := c, grp := update s.grp t grp } : Ev8).groupTb =
            update s.groupTb t { s.groupTb t with grp } := by
      intro c htb hidx hsh hnext hasn
      refine ⟨⟨fun t' i => ?_, fun t' => ?_, fun k => ?_, fun t' => ?_⟩, ?_⟩
      · simp only [inGroup, htb]
        by_cases ht : t' = t
        · subst ht
          simp only [Function.update_self]
        · simp only [Function.update_of_ne ht]
          exact h.valid t' i
      · simp only [hidx]
        exact IndexExact.rebuild (c.tb t')
      · simp only [hsh]
        exact h.shadow k
      · by_cases ht : t' = t
        · subst ht
          simpa using hlt
        · simpa [ht] using h.grp t'
      · funext t'
        have hslot : ({ s with cpu := c, grp := update s.grp t grp } : Ev8).slotEntry t' =
            s.slotEntry t' := by
          funext i
          unfold slotEntry
          by_cases ht : t' = t
          · subst ht
            simp only [htb, Function.update_self]
          · simp only [htb, Function.update_of_ne ht]
        by_cases ht : t' = t
        · subst ht
          simp [groupTb, hslot, hnext, hasn]
        · simp [groupTb, hslot, hnext, hasn, ht]
    cases t with
    | itb =>
      apply key
      · rfl
      · simp only [tbChanged, tbIdxRebuild]
      · rfl
      · rfl
      · rfl
    | dtb =>
      apply key
      · rfl
      · simp only [tbChanged, tbIdxRebuild, AlphaCPU.flushDataPageCache]
      · rfl
      · rfl
      · rfl

theorem setAsn_sim (h : s.Inv) (t : Tb) (asn : Nat) :
    (s.setAsn t asn).Inv ∧ (s.setAsn t asn).groupTb =
      update s.groupTb t { s.groupTb t with asn } := by
  unfold setAsn
  cases t with
  | itb =>
    refine ⟨⟨h.valid, h.idx, h.shadow, h.grp⟩, funext fun t' => ?_⟩
    cases t' <;> rfl
  | dtb =>
    refine ⟨⟨h.valid, h.idx, h.shadow, h.grp⟩, funext fun t' => ?_⟩
    cases t' <;> rfl

theorem pctx_sim (h : s.Inv) (t : Tb) (index : BitVec 2) (value : BitVec 64) :
    (s.pctx t index value).Inv ∧ (s.pctx t index value).groupTb =
      update s.groupTb t ((s.groupTb t).exec t (.pctx t index value)) := by
  have hlt : (value.extractLsb' 16 2).toNat < 256 := by
    have := (value.extractLsb' 16 2).isLt
    omega
  unfold pctx GroupTb.exec
  dsimp only
  obtain ⟨ha, hga⟩ := setAsn_sim h t (value.extractLsb' 8 8).toNat
  cases index.getLsbD 0 with
  | false =>
    cases index.getLsbD 1 with
    | false => exact ⟨h, (Function.update_eq_self t s.groupTb).symm⟩
    | true => exact setGroup_sim h t hlt
  | true =>
    cases index.getLsbD 1 with
    | false => exact ⟨ha, hga⟩
    | true =>
      obtain ⟨hg, hgg⟩ := setGroup_sim ha t hlt
      refine ⟨hg, hgg.trans ?_⟩
      rw [hga, Function.update_self, Function.update_idem]
      rfl

theorem writeCtl_sim (h : s.Inv) (t : Tb) (mask value : BitVec 64) :
    (s.writeCtl t mask value).Inv ∧ (s.writeCtl t mask value).groupTb =
      update s.groupTb t ((s.groupTb t).exec t (.writeCtl t mask value)) := by
  unfold writeCtl GroupTb.exec
  cases t with
  | itb =>
    refine ⟨⟨h.valid, h.idx, h.shadow, h.grp⟩, funext fun t' => ?_⟩
    cases t' <;> rfl
  | dtb =>
    refine ⟨⟨h.valid, h.idx, h.shadow, h.grp⟩, funext fun t' => ?_⟩
    cases t' <;> rfl

/-! ### Lookups -/

/-- A lookup leaves the entries as they are, and finds a match of the tagged TB if there is one. -/
theorem find_sim (h : s.Inv) (t : Tb) (va : BitVec 64) (rw : Bool) :
    ({ s with cpu := (s.cpu.findTBEntry va t rw).2 } : Ev8).Inv ∧
      ({ s with cpu := (s.cpu.findTBEntry va t rw).2 } : Ev8).groupTb = s.groupTb ∧
      (∀ i, (s.cpu.findTBEntry va t rw).1 = some i → (s.groupTb t).Matches va i) ∧
      ((s.cpu.findTBEntry va t rw).1 = none → ∀ i, ¬(s.groupTb t).Matches va i) := by
  rcases AlphaCPU.findTBEntry_cases s.cpu va t rw with
    ⟨i, ix, he, hh, hix, -⟩ | ⟨-, -, -, i, c', hr, -⟩ | ⟨he, hs, -⟩
  · rw [he]
    refine ⟨⟨h.valid, fun t' => ?_, h.shadow, h.grp⟩, rfl, fun j hj => ?_, fun hn => by cases hn⟩
    · show IndexExact (s.cpu.tb t') (update s.cpu.idx t ix t')
      by_cases ht : t' = t
      · subst ht
        rw [Function.update_self]
        rcases hix with rfl | ⟨h0, rfl⟩
        · exact h.idx t'
        · obtain ⟨hv, -⟩ := STBEntry.hits_iff.mp hh
          exact (h.idx t').insert hv ((h.idx t').tbIdx8k_of_live h0 hv)
      · rw [Function.update_of_ne ht]
        exact h.idx t'
    · obtain rfl := Option.some.inj hj
      exact (matches_iff h).mpr hh
  -- nothing is ever in the shadow
  · obtain ⟨hsh, -⟩ := AlphaCPU.tbRefillFromShadow_some hr
    simp [AlphaCPU.shadowHits, h.shadow] at hsh
  · rw [he]
    refine ⟨h, rfl, (fun _ hn => by cases hn), fun _ i hm => ?_⟩
    have hn := AlphaCPU.searchTb_none (h.idx t).toIndexOk hs i
    rw [(matches_iff h).mp hm] at hn
    cases hn

/-! ### Runs -/

theorem reset_sim (s : Ev8) : s.reset.Inv ∧ s.reset.groupTb = fun _ => GroupTb.empty := by
  refine ⟨⟨fun t i => ?_, fun t => ?_, fun k => rfl, fun t => by simp [reset, tbClear]⟩, ?_⟩
  · cases t <;> rfl
  · cases t with
    | itb => exact IndexExact.empty fun i => rfl
    | dtb => exact IndexExact.empty fun i => rfl
  · funext t
    cases t <;> rfl

/-- Every operation is the tagged TB's. -/
theorem step_sim (h : s.Inv) {op : Op} (hop : op.Ok) :
    (s.step op).Inv ∧ (s.step op).groupTb = GroupTb.step s.groupTb op := by
  cases op with
  | addTb t virt pte => exact addTb_sim h t virt pte
  | tbIm t mode => exact tbIm_sim h t mode
  | tbIs t va => exact tbIs_sim h t va
  | setGroup t grp => exact setGroup_sim h t hop
  | setAsn t asn => exact setAsn_sim h t asn
  | pctx t index value => exact pctx_sim h t index value
  | writeCtl t mask value => exact writeCtl_sim h t mask value
  | find t va rw =>
    obtain ⟨hi, hg, -⟩ := find_sim h t va rw
    exact ⟨hi, hg.trans (Function.update_eq_self t s.groupTb).symm⟩

theorem run_sim {ops : List Op} (h : s.Inv) (hops : ∀ op ∈ ops, op.Ok) :
    (ops.foldl step s).Inv ∧ (ops.foldl step s).groupTb = ops.foldl GroupTb.step s.groupTb := by
  induction ops generalizing s with
  | nil => exact ⟨h, rfl⟩
  | cons op ops ih =>
    obtain ⟨h1, hg1⟩ := step_sim h (hops op List.mem_cons_self)
    obtain ⟨h2, hg2⟩ := ih h1 fun o ho => hops o (List.mem_cons_of_mem op ho)
    exact ⟨h2, by rw [List.foldl_cons, List.foldl_cons, hg2, hg1]⟩

/-! ## What the tagged TB says of invalidates -/

/-- What an operation invalidates, of a stream in group `grp` and address space `asn`. -/
def Op.selects : Op → Nat → Nat → Nat → STBEntry → Bool
  | .tbIm _ mode => imSelects mode
  | .tbIs _ va => isSelects va
  | _ => fun _ _ _ _ => false

/-- An invalidate of one group's entries only. -/
def Op.oneGroup : Op → Bool
  | .tbIm _ mode => mode.getLsbD 0
  | .tbIs .. => true
  | _ => false

/-- A fill of a stream's TB. -/
def Op.Fills (t : Tb) : Op → Prop
  | .addTb t' .. => t' = t
  | _ => False

/-- An entry the operation names is deleted. -/
theorem exec_selects {op : Op} {r : GroupTb} {x : GroupEntry} (hx : r.slots i = some x)
    (hs : op.selects r.grp r.asn x.grp x.page = true) : (r.exec t op).slots i = none := by
  cases op with
  | tbIm t' mode =>
    have hs : imSelects mode r.grp r.asn x.grp x.page = true := hs
    unfold GroupTb.exec GroupTb.delete
    dsimp only
    split <;> simp [hx, hs]
  | tbIs t' va =>
    have hs : isSelects va r.grp r.asn x.grp x.page = true := hs
    simp [GroupTb.exec, GroupTb.delete, hx, hs]
  | _ => cases hs

/-- Nothing but a fill puts an entry into a free slot. -/
theorem step_none {op : Op} {r : Tb → GroupTb} (hf : ¬op.Fills t) (h : (r t).slots i = none) :
    (GroupTb.step r op t).slots i = none := by
  unfold GroupTb.step
  by_cases ht : t = op.tb
  · subst ht
    rw [Function.update_self]
    cases op with
    | addTb t' virt pte => exact absurd rfl hf
    | tbIm t' mode =>
      unfold GroupTb.exec GroupTb.delete
      dsimp only
      split <;> simp [h]
    | tbIs t' va => simp [GroupTb.exec, GroupTb.delete, h]
    | _ => exact h
  · rwa [Function.update_of_ne ht]

theorem foldl_none {ops : List Op} {r : Tb → GroupTb} (hf : ∀ op ∈ ops, ¬op.Fills t)
    (h : (r t).slots i = none) : (ops.foldl GroupTb.step r t).slots i = none := by
  induction ops generalizing r with
  | nil => exact h
  | cons op ops ih =>
    exact ih (fun o ho => hf o (List.mem_cons_of_mem op ho))
      (step_none (hf op List.mem_cons_self) h)

/-- An invalidate of one group leaves the entries of the others. -/
theorem step_oneGroup {op : Op} {r : Tb → GroupTb} (h1 : op.oneGroup = true)
    (hg : t ≠ op.tb ∨ ∀ x, (r t).slots i = some x → x.grp ≠ (r t).grp) :
    (GroupTb.step r op t).slots i = (r t).slots i := by
  unfold GroupTb.step
  by_cases ht : t = op.tb
  · have hg := hg.resolve_left (not_not.mpr ht)
    subst ht
    rw [Function.update_self]
    have keep : ∀ p : GroupEntry → Bool, (∀ x, p x = true → x.grp = (r op.tb).grp) →
        ((r op.tb).delete p).slots i = (r op.tb).slots i := by
      intro p hp
      unfold GroupTb.delete
      cases hx : (r op.tb).slots i with
      | none => simp [hx]
      | some x =>
        have : p x = false := by
          by_contra hpx
          exact hg x hx (hp x (by simpa using hpx))
        simp [hx, this]
    cases op with
    | tbIm t' mode =>
      have h1 : mode.getLsbD 0 = true := h1
      have := keep (fun x => imSelects mode (r t').grp (r t').asn x.grp x.page) fun x hx => by
        simp only [imSelects, h1, Bool.not_true, Bool.false_or, Bool.and_eq_true, beq_iff_eq] at hx
        exact hx.1.1.1
      unfold GroupTb.exec
      dsimp only
      split
      · exact this
      · exact this
    | tbIs t' va =>
      refine keep (fun x => isSelects va (r t').grp (r t').asn x.grp x.page) fun x hx => ?_
      simp only [isSelects, Bool.and_eq_true, beq_iff_eq] at hx
      exact hx.1.1
    | _ => cases h1
  · rw [Function.update_of_ne ht]

/-- An invalidated entry does not come back without a fill. -/
theorem not_back (h : s.Inv) {op : Op} (hop : op.Ok) {more : List Op}
    (hm : ∀ o ∈ more, o.Ok ∧ ¬o.Fills op.tb) (hp : s.present op.tb i = true)
    (hs : op.selects (s.grp op.tb) (s.cpu.asnOf op.tb) (s.entryGrp op.tb i) (s.cpu.tb op.tb i) =
      true) :
    (more.foldl step (s.step op)).present op.tb i = false ∧
      ((more.foldl step (s.step op)).cpu.tb op.tb i).valid = false := by
  obtain ⟨h1, hg1⟩ := step_sim h hop
  obtain ⟨h2, hg2⟩ := run_sim h1 fun o ho => (hm o ho).1
  have hslot : (s.groupTb op.tb).slots i =
      some ⟨s.entryGrp op.tb i, { s.cpu.tb op.tb i with valid := true }⟩ := by
    simp [groupTb, slotEntry, hp]
  have hsel : op.selects (s.groupTb op.tb).grp (s.groupTb op.tb).asn (s.entryGrp op.tb i)
      { s.cpu.tb op.tb i with valid := true } = true := by
    cases op with
    | tbIm t' mode => exact hs
    | tbIs t' va => exact hs
    | _ => cases hs
  have hn : ((s.step op).groupTb op.tb).slots i = none := by
    rw [hg1, GroupTb.step, Function.update_self]
    exact exec_selects hslot hsel
  have hend := foldl_none (fun o ho => (hm o ho).2) hn
  rw [← hg2] at hend
  have hpres : (more.foldl step (s.step op)).present op.tb i = false := by
    simpa [groupTb, slotEntry] using hend
  refine ⟨hpres, ?_⟩
  rw [h2.valid, inGroup, hpres, Bool.false_and]

/-- An invalidate of one group leaves the slots of the others. -/
theorem oneGroup_keeps (h : s.Inv) {op : Op} (h1 : op.oneGroup = true)
    (ht : t ≠ op.tb ∨ s.entryGrp t i ≠ s.grp t) : (s.step op).slotEntry t i = s.slotEntry t i := by
  have hop : op.Ok := by
    cases op with
    | setGroup t' grp => cases h1
    | _ => trivial
  obtain ⟨-, hg⟩ := step_sim h hop
  have hgrp : ∀ x, (s.groupTb t).slots i = some x → x.grp = s.entryGrp t i := by
    intro x hx
    unfold groupTb slotEntry at hx
    dsimp only at hx
    split at hx
    · cases hx
      rfl
    · cases hx
  have := step_oneGroup (r := s.groupTb) (i := i) h1
    (ht.imp_right fun hne x hx => by rw [hgrp x hx]; exact hne)
  rw [← hg] at this
  exact this

/-- In every state reached from reset: an entry is valid just when it is present and of its
stream's group; the index is exact; the TBs are the tagged ones after the same operations; a lookup
finds a match of the tagged TB if there is one; an entry invalidated does not come back without a
fill; and an invalidate of one group leaves the entries of the others. -/
theorem ev8_tb_tagged_by_group (s₀ : Ev8) {ops : List Op} (hops : ∀ op ∈ ops, op.Ok) :
    let s := ops.foldl step s₀.reset
    let r := ops.foldl GroupTb.step fun _ => GroupTb.empty
    (∀ t i, (s.cpu.tb t i).valid = true ↔ s.present t i = true ∧ s.entryGrp t i = s.grp t) ∧
    (∀ t, IndexExact (s.cpu.tb t) (s.cpu.idx t)) ∧
    s.groupTb = r ∧
    (∀ t va rw, (∀ i, (s.cpu.findTBEntry va t rw).1 = some i → (r t).Matches va i) ∧
      ((s.cpu.findTBEntry va t rw).1.isSome = true ↔ ∃ i, (r t).Matches va i)) ∧
    (∀ (op : Op) i (more : List Op), op.Ok → (∀ o ∈ more, o.Ok ∧ ¬o.Fills op.tb) →
      s.present op.tb i = true →
      op.selects (s.grp op.tb) (s.cpu.asnOf op.tb) (s.entryGrp op.tb i) (s.cpu.tb op.tb i) = true →
      let s' := more.foldl step (s.step op)
      s'.present op.tb i = false ∧ (s'.cpu.tb op.tb i).valid = false) ∧
    (∀ (op : Op) t i, op.oneGroup = true → (t ≠ op.tb ∨ s.entryGrp t i ≠ s.grp t) →
      (s.step op).slotEntry t i = s.slotEntry t i) := by
  obtain ⟨h0, hg0⟩ := reset_sim s₀
  obtain ⟨h, hg⟩ := run_sim h0 hops
  rw [hg0] at hg
  dsimp only
  generalize ops.foldl step s₀.reset = s at h hg
  rw [← hg]
  refine ⟨fun t i => ?_, h.idx, rfl, fun t va rw => ?_,
    fun op i more hop hm hp hs => not_back h hop hm hp hs, fun op t i h1 ht => oneGroup_keeps h h1 ht⟩
  · rw [h.valid]
    simp [inGroup]
  · obtain ⟨-, -, hsome, hnone⟩ := find_sim h t va rw
    refine ⟨hsome, fun hf => ?_, fun ⟨i, hi⟩ => ?_⟩
    · obtain ⟨i, hi⟩ := Option.isSome_iff_exists.mp hf
      exact ⟨i, hsome i hi⟩
    · by_contra hf
      exact hnone (by simpa using hf) i hi

/-- A processor before its first reset. -/
def powerUp : Ev8 := ⟨AlphaCPU.init true, fun _ _ => false, fun _ _ => 0, fun _ => 0, fun _ => 0, 0⟩

/-- A page filled in group 1 of the DTB, hidden in group 0 and invalidated there for group 0 only,
is found again in group 1. -/
def switchOps : List Op :=
  [.setGroup .dtb 1, .addTb .dtb 0x2000#64 0x500000f01#64, .setGroup .dtb 0, .tbIm .dtb 1#64,
    .setGroup .dtb 1]

theorem ev8_tb_tagged_by_group_switch : (∀ op ∈ switchOps, op.Ok) ∧
    ((switchOps.foldl step powerUp.reset).cpu.findTBEntry 0x2000#64 .dtb false).1.isSome = true := by
  have hops : ∀ op ∈ switchOps, op.Ok := by
    simp [switchOps, Op.Ok]
  obtain ⟨-, -, -, hfind, -⟩ := ev8_tb_tagged_by_group powerUp hops
  refine ⟨hops, (hfind .dtb 0x2000#64 false).2.mpr ⟨0, ?_⟩⟩
  exact ⟨_, rfl, by decide +kernel, by decide +kernel, .inr (by decide +kernel)⟩

end Ev8

end Alphabox.Cpu
