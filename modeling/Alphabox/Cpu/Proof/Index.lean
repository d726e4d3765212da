import Alphabox.Cpu.Run
import Alphabox.Lib.Bits
import Mathlib.Data.Fintype.Card

/-!
# The TB index is exact

`IndexOk tb ix`: every live 8 KB entry of the TB is in the packed ways of its set or that set is
marked as overflowed, and `ghLive` counts the live entries with a granularity hint. One entry
leaving (`IndexOk.drop`), entering (`IndexOk.add`) or moving to the front (`IndexOk.insert`) keeps
it.
-/

namespace Alphabox.Cpu

open Function (update)

/-! ## Entries -/

/-- An entry as `add_tb` makes them: its masks are those of one granularity hint, and its
addresses are cut to them. -/
def STBEntry.Wf (e : STBEntry) : Prop :=
  ∃ g : Fin 4, e.matchMask = ghMatch g ∧ e.keepMask = ghKeep g ∧
    e.virt &&& ghMatch g = e.virt ∧ e.phys &&& ghPhys g = e.phys

theorem wf_ofPte (virt ptePhys pteFlags : BitVec 64) (asn : Nat) :
    (STBEntry.ofPte virt ptePhys pteFlags asn).Wf :=
  ⟨granularity pteFlags, rfl, rfl, by simp [STBEntry.ofPte, BitVec.and_assoc],
    by simp [STBEntry.ofPte, BitVec.and_assoc]⟩

theorem ghMatch_bit (g : Fin 4) (i : Nat) :
    (ghMatch g).getLsbD i = (decide (13 + 3 * g.val ≤ i) && decide (i < 48)) := by
  by_cases hi : i < 64
  · have : ∀ g : Fin 4, ∀ i : Fin 64, (ghMatch g).getLsbD i.val =
        (decide (13 + 3 * g.val ≤ i.val) && decide (i.val < 48)) := by decide
    exact this g ⟨i, hi⟩
  · rw [BitVec.getLsbD_of_ge _ _ (by omega)]
    simp
    omega

theorem tbIdx8k_ghMatch : ∀ g : Fin 4, tbIdx8k (ghMatch g) = (g == 0) := by decide

theorem STBEntry.Wf.tbIdx8k_iff {e : STBEntry} (h : e.Wf) :
    tbIdx8k e.matchMask = true ↔ e.matchMask = ghMatch 0 := by
  obtain ⟨g, hm, -⟩ := h
  rw [hm, tbIdx8k_ghMatch]
  clear hm
  revert g
  decide

/-- An 8 KB entry covers addresses of its own set only. -/
theorem tbIdxSet_of_covers {e : STBEntry} {va : BitVec 64} (h8 : tbIdx8k e.matchMask = true)
    (hc : e.covers va = true) : tbIdxSet e.virt = tbIdxSet va := by
  have hbits := Lib.xor_and_eq_zero.mp (beq_iff_eq.mp hc)
  have hmask : ∀ i, (ghMatch 0).getLsbD i = true → e.matchMask.getLsbD i = true := fun i hi => by
    have := congrArg (·.getLsbD i) (beq_iff_eq.mp h8)
    simpa [hi] using this
  refine BitVec.eq_of_getLsbD_eq fun i hi => ?_
  have hg : (ghMatch 0).getLsbD (13 + i) = true := by
    rw [ghMatch_bit]
    simp
    omega
  simp [tbIdxSet, hi, hbits _ (hmask _ hg)]

theorem STBEntry.hits_iff {e : STBEntry} {va : BitVec 64} {asn : Nat} :
    e.hits va asn = true ↔
      e.valid = true ∧ e.covers va = true ∧ (e.asmBit = true ∨ e.asn = asn) := by
  simp [hits, and_assoc]

/-! ## The index of one TB -/

/-- A live entry that the index cannot hold. -/
def liveGh (tb : TbSlot → STBEntry) (i : TbSlot) : Prop :=
  (tb i).valid = true ∧ tbIdx8k (tb i).matchMask = false

instance (tb : TbSlot → STBEntry) : DecidablePred (liveGh tb) :=
  fun _ => inferInstanceAs (Decidable (_ ∧ _))

/-- The index is exact (module doc). -/
structure IndexOk (tb : TbSlot → STBEntry) (ix : TbIndex) : Prop where
  len : ∀ s, (ix.ways s).length = kTbIdxWays
  packed : ∀ s, Lib.Packed (ix.ways s)
  held : ∀ i, (tb i).valid = true → tbIdx8k (tb i).matchMask = true →
    some i ∈ ix.ways (tbIdxSet (tb i).virt) ∨ ix.lost (tbIdxSet (tb i).virt) = true
  live : ix.ghLive = (Finset.univ.filter (liveGh tb)).card

theorem indexOk_empty {tb : TbSlot → STBEntry} (h : ∀ i, (tb i).valid = false) :
    IndexOk tb TbIndex.empty where
  len _ := List.length_replicate
  packed _ := Lib.packed_replicate _
  held i hv := by simp [h i] at hv
  live := by
    have : Finset.univ.filter (liveGh tb) = ∅ := by
      ext i
      simp [liveGh, h i]
    simp [this, TbIndex.empty]

section Insert

variable {ix : TbIndex} {virt : BitVec 64} {slot j : TbSlot} {s : BitVec 11}

theorem insertWay_lt {w : List (Option TbSlot)} (h : w.length = kTbIdxWays) :
    TbIndex.insertWay w slot < w.length := by
  rw [h]
  exact lt_of_le_of_lt (min_le_right _ _) (by decide)

theorem insert_len (h : ∀ s, (ix.ways s).length = kTbIdxWays) :
    ((ix.insert virt slot).ways s).length = kTbIdxWays := by
  unfold TbIndex.insert
  dsimp only
  by_cases hs : s = tbIdxSet virt
  · subst hs
    rw [Function.update_self, List.length_cons,
      List.length_eraseIdx_of_lt (insertWay_lt (h _)), h]
    rfl
  · rw [Function.update_of_ne hs, h]

theorem insert_packed (h : ∀ s, Lib.Packed (ix.ways s)) :
    Lib.Packed ((ix.insert virt slot).ways s) := by
  unfold TbIndex.insert
  dsimp only
  by_cases hs : s = tbIdxSet virt
  · subst hs
    rw [Function.update_self]
    exact (h _).eraseIdx.cons
  · rw [Function.update_of_ne hs]
    exact h s

theorem insert_self : some slot ∈ (ix.insert virt slot).ways (tbIdxSet virt) := by
  simp [TbIndex.insert]

/-- An insert loses no slot from a set without marking it. -/
theorem insert_keeps (h : some j ∈ ix.ways s ∨ ix.lost s = true) :
    some j ∈ (ix.insert virt slot).ways s ∨ (ix.insert virt slot).lost s = true := by
  unfold TbIndex.insert
  dsimp only
  by_cases hs : s = tbIdxSet virt
  · subst hs
    rw [Function.update_self]
    split
    · right
      rw [Function.update_self]
    · rename_i hf
      refine h.imp_left fun hm => ?_
      by_cases hj : j = slot
      · simp [hj]
      -- the way taken is the slot's own or empty
      · refine List.mem_cons_of_mem _ (Lib.mem_eraseIdx_of_ne hm fun hk => hf ?_)
        simp [hk, hj]
  · rw [Function.update_of_ne hs]
    refine h.imp_right fun hl => ?_
    split
    · rw [Function.update_of_ne hs, hl]
    · exact hl

theorem insert_ghLive : (ix.insert virt slot).ghLive = ix.ghLive := rfl

theorem remove_len (h : ∀ s, (ix.ways s).length = kTbIdxWays) :
    ((ix.remove virt slot).ways s).length = kTbIdxWays := by
  unfold TbIndex.remove
  dsimp only
  split
  · rename_i k hk
    by_cases hs : s = tbIdxSet virt
    · subst hs
      obtain ⟨hlt, -⟩ := List.findIdx?_eq_some_iff_getElem.mp hk
      dsimp only
      rw [Function.update_self, List.length_append, List.length_eraseIdx_of_lt hlt, h]
      rfl
    · dsimp only
      rw [Function.update_of_ne hs, h]
  · exact h s

theorem remove_packed (h : ∀ s, Lib.Packed (ix.ways s)) :
    Lib.Packed ((ix.remove virt slot).ways s) := by
  unfold TbIndex.remove
  dsimp only
  split
  · by_cases hs : s = tbIdxSet virt
    · subst hs
      dsimp only
      rw [Function.update_self]
      exact (h _).eraseIdx.append_none
    · dsimp only
      rw [Function.update_of_ne hs]
      exact h s
  · exact h s

theorem remove_keeps (hj : j ≠ slot) (h : some j ∈ ix.ways s) :
    some j ∈ (ix.remove virt slot).ways s := by
  unfold TbIndex.remove
  dsimp only
  split
  · rename_i k hk
    by_cases hs : s = tbIdxSet virt
    · subst hs
      obtain ⟨hlt, hb, -⟩ := List.findIdx?_eq_some_iff_getElem.mp hk
      dsimp only
      rw [Function.update_self]
      refine List.mem_append_left _ (Lib.mem_eraseIdx_of_ne h fun he => hj ?_)
      rw [List.getElem?_eq_getElem hlt] at he
      have := beq_iff_eq.mp hb
      rw [Option.some.inj he] at this
      exact Option.some.inj this
    · dsimp only
      rwa [Function.update_of_ne hs]
  · exact h

theorem remove_lost : (ix.remove virt slot).lost = ix.lost := by
  unfold TbIndex.remove
  dsimp only
  split <;> rfl

theorem remove_ghLive : (ix.remove virt slot).ghLive = ix.ghLive := by
  unfold TbIndex.remove
  dsimp only
  split <;> rfl

end Insert

namespace IndexOk

variable {tb : TbSlot → STBEntry} {ix : TbIndex} {i : TbSlot} {e : STBEntry}

/-- With no entry with a granularity hint live, a live entry is an 8 KB one. -/
theorem tbIdx8k_of_live (h : IndexOk tb ix) (h0 : ix.ghLive = 0) (hv : (tb i).valid = true) :
    tbIdx8k (tb i).matchMask = true := by
  by_contra h8
  have hi : i ∈ Finset.univ.filter (liveGh tb) := by simpa [liveGh, hv] using h8
  have := Finset.card_pos.mpr ⟨i, hi⟩
  have := h.live
  omega

theorem gh_update_of_not (h : ¬liveGh tb i) (he : ¬liveGh (update tb i e) i) :
    Finset.univ.filter (liveGh (update tb i e)) = Finset.univ.filter (liveGh tb) := by
  ext j
  by_cases hj : j = i
  · subst hj
    simp [h, he]
  · simp [liveGh, Function.update_of_ne hj]

/-- The entry of a slot leaves it. -/
theorem drop (h : IndexOk tb ix) (hv : (tb i).valid = true) (he : e.valid = false) :
    IndexOk (update tb i e) (ix.drop (tb i) i) := by
  have hn : ¬liveGh (update tb i e) i := by simp [liveGh, he]
  have held : ∀ j, j ≠ i → (tb j).valid = true → tbIdx8k (tb j).matchMask = true →
      some j ∈ ix.ways (tbIdxSet (tb j).virt) ∨ ix.lost (tbIdxSet (tb j).virt) = true :=
    fun j _ => h.held j
  unfold TbIndex.drop
  split
  · rename_i h8
    refine ⟨fun s => remove_len h.len, fun s => remove_packed h.packed, fun j hj hm => ?_, ?_⟩
    · by_cases hji : j = i
      · subst hji
        simp [he] at hj
      · rw [Function.update_of_ne hji] at hj hm ⊢
        rw [remove_lost]
        exact (held j hji hj hm).imp_left (remove_keeps hji)
    · rw [remove_ghLive, h.live, gh_update_of_not (by simp [liveGh, h8]) hn]
  · rename_i h8
    refine ⟨h.len, h.packed, fun j hj hm => ?_, ?_⟩
    · by_cases hji : j = i
      · subst hji
        simp [he] at hj
      · rw [Function.update_of_ne hji] at hj hm ⊢
        exact held j hji hj hm
    · have hi : i ∈ Finset.univ.filter (liveGh tb) := by simp [liveGh, hv, h8]
      have : Finset.univ.filter (liveGh (update tb i e)) =
          (Finset.univ.filter (liveGh tb)).erase i := by
        ext j
        by_cases hj : j = i
        · subst hj
          simp [hn]
        · simp [liveGh, hj]
      have hc := Finset.card_erase_add_one hi
      rw [this]
      dsimp only
      rw [h.live]
      omega

/-- An entry enters a free slot. -/
theorem add (h : IndexOk tb ix) (hv : (tb i).valid = false) (he : e.valid = true) :
    IndexOk (update tb i e) (ix.add e i) := by
  have hn : ¬liveGh tb i := by simp [liveGh, hv]
  unfold TbIndex.add
  split
  · rename_i h8
    refine ⟨fun s => insert_len h.len, fun s => insert_packed h.packed, fun j hj hm => ?_, ?_⟩
    · by_cases hji : j = i
      · subst hji
        rw [Function.update_self]
        exact .inl insert_self
      · rw [Function.update_of_ne hji] at hj hm ⊢
        exact insert_keeps (h.held j hj hm)
    · rw [insert_ghLive, h.live, gh_update_of_not hn (by simp [liveGh, h8])]
  · rename_i h8
    refine ⟨h.len, h.packed, fun j hj hm => ?_, ?_⟩
    · by_cases hji : j = i
      · subst hji
        simp [h8] at hm
      · rw [Function.update_of_ne hji] at hj hm ⊢
        exact h.held j hj hm
    · have hi : i ∉ Finset.univ.filter (liveGh tb) := by simp [hn]
      have : Finset.univ.filter (liveGh (update tb i e)) =
          insert i (Finset.univ.filter (liveGh tb)) := by
        ext j
        by_cases hj : j = i
        · subst hj
          simp [liveGh, he, h8]
        · simp [liveGh, hj]
      rw [this, Finset.card_insert_of_notMem hi]
      dsimp only
      rw [h.live]
      omega

/-- A live 8 KB entry moves to the front of its set. -/
theorem insert (h : IndexOk tb ix) : IndexOk tb (ix.insert (tb i).virt i) :=
  ⟨fun _ => insert_len h.len, fun _ => insert_packed h.packed,
    fun j hj hm => insert_keeps (h.held j hj hm), h.live⟩

/-- An entry replaces the one of a slot. -/
theorem fill (h : IndexOk tb ix) (he : e.valid = true) :
    IndexOk (update tb i e) ((if (tb i).valid then ix.drop (tb i) i else ix).add e i) := by
  split
  · rename_i hv
    have := (h.drop hv (e := (tb i).invalidate) rfl).add (i := i)
      (by rw [Function.update_self]; rfl) he
    rwa [Function.update_idem] at this
  · rename_i hv
    exact h.add (by simpa using hv) he

end IndexOk

end Alphabox.Cpu
