import Alphabox.Cpu.Proof.Spec

/-!
# A lookup misses nothing that is live

`TbInv` is kept by every operation: the index of each TB is exact, live entries are as `add_tb`
makes them, and the shadow holds 8 KB entries at their own place. So a lookup that returns nothing
proves that nothing matches (`findTBEntry_exact`).
-/

namespace Alphabox.Cpu

open Function (update)

namespace AlphaCPU

/-- What holds of the TBs, the shadow and the page cache in every reachable state. -/
structure TbInv (c : AlphaCPU) : Prop where
  idx : ∀ t, IndexOk (c.tb t) (c.idx t)
  wf : ∀ t i, (c.tb t i).valid = true → (c.tb t i).Wf
  shadow : ∀ k, (c.shadow k).valid = true →
    (c.shadow k).Wf ∧ (c.shadow k).matchMask = ghMatch 0 ∧ tbShadowIndex (c.shadow k).virt = k
  dpc : c.dpc.Ok

variable {c : AlphaCPU} {t : Tb} {i : TbSlot} {virt : BitVec 64} {asn : Nat} {rw : Bool}

/-- The shadow's slot matches an address just when the refill takes it. -/
theorem shadowHits_iff (h : TbInv c) (virt : BitVec 64) (asn : Nat) :
    c.shadowHits virt asn = true ↔ (c.shadow (tbShadowIndex virt)).hits virt asn = true := by
  have hc : (c.shadow (tbShadowIndex virt)).valid = true →
      ((c.shadow (tbShadowIndex virt)).virt =
          virt &&& (c.shadow (tbShadowIndex virt)).matchMask ↔
        (c.shadow (tbShadowIndex virt)).covers virt = true) := by
    intro hv
    obtain ⟨g, hm, -, hvirt, -⟩ := (h.shadow _ hv).1
    rw [STBEntry.covers, beq_iff_eq, Lib.xor_and_eq_zero, ← Lib.and_eq_and, hm, hvirt]
  rw [STBEntry.hits_iff]
  simp only [shadowHits, Bool.and_eq_true, Bool.or_eq_true, beq_iff_eq, and_assoc]
  exact ⟨fun ⟨hv, hx, ha⟩ => ⟨hv, (hc hv).mp hx, ha⟩, fun ⟨hv, hx, ha⟩ => ⟨hv, (hc hv).mpr hx, ha⟩⟩

/-! ## Every operation keeps the invariant -/

theorem tbInv_init (keep : Bool) : TbInv (init keep) where
  idx _ := indexOk_empty fun _ => rfl
  wf _ _ h := nomatch h
  shadow _ h := nomatch h
  dpc := PageCache.ok_init

theorem Dropped.ok {e : STBEntry} {p p' : PageCache} (h : c.Dropped e p p') (hp : p.Ok) : p'.Ok := by
  rcases h with rfl | ⟨rfl, -⟩
  · exact hp.flushRange
  · exact hp

/-- An entry enters a slot of one TB. -/
theorem TbInv.idx_fill (h : TbInv c) (t : Tb) (i : TbSlot) {e : STBEntry} (he : e.valid = true)
    (t' : Tb) :
    IndexOk (update c.tb t (update (c.tb t) i e) t') (update c.idx t
      ((if (c.tb t i).valid then (c.idx t).drop (c.tb t i) i else c.idx t).add e i) t') := by
  by_cases ht : t' = t
  · subst ht
    rw [Function.update_self, Function.update_self]
    exact (h.idx t').fill he
  · rw [Function.update_of_ne ht, Function.update_of_ne ht]
    exact h.idx t'

theorem TbInv.wf_fill (h : TbInv c) (t : Tb) (i : TbSlot) {e : STBEntry} (he : e.Wf) (t' : Tb)
    (j : TbSlot) (hv : (update c.tb t (update (c.tb t) i e) t' j).valid = true) :
    (update c.tb t (update (c.tb t) i e) t' j).Wf := by
  rw [Lib.update_row_apply] at hv ⊢
  split
  · exact he
  · rename_i hn
    rw [if_neg hn] at hv
    exact h.wf t' j hv

theorem tbInv_refill (h : TbInv c) {c' : AlphaCPU}
    (hr : c.tbRefillFromShadow virt asn = some (i, c')) : TbInv c' := by
  obtain ⟨hs, -, dpc, hc', hd⟩ := tbRefillFromShadow_some hr
  have hv := (STBEntry.hits_iff.mp ((shadowHits_iff h _ _).mp hs)).1
  have hdpc := hd.ok h.dpc
  subst hc'
  exact ⟨h.idx_fill .dtb i hv, h.wf_fill .dtb i (h.shadow _ hv).1, h.shadow, hdpc⟩

theorem tbInv_findTBEntry (h : TbInv c) (virt : BitVec 64) (t : Tb) (rw : Bool) :
    TbInv (c.findTBEntry virt t rw).2 := by
  rcases findTBEntry_cases c virt t rw with ⟨i, ix, he, -, hix, -⟩ | ⟨-, -, -, i, c', hr, he⟩ | ⟨he, -⟩
  · rw [he]
    refine ⟨fun t' => ?_, h.wf, h.shadow, h.dpc⟩
    change IndexOk (c.tb t') (update c.idx t ix t')
    by_cases ht : t' = t
    · subst ht
      rw [Function.update_self]
      rcases hix with rfl | ⟨-, rfl⟩
      · exact h.idx t'
      · exact (h.idx t').insert
    · rw [Function.update_of_ne ht]
      exact h.idx t'
  · rw [he]
    have := tbInv_refill h hr
    exact ⟨this.idx, this.wf, this.shadow, this.dpc⟩
  · rw [he]
    exact h

theorem tbShadowIndex_and_ghMatch (virt : BitVec 64) :
    tbShadowIndex (virt &&& ghMatch 0) = tbShadowIndex virt := by
  refine BitVec.eq_of_getLsbD_eq fun i hi => ?_
  have : (ghMatch 0).getLsbD (13 + i) = true := by
    rw [ghMatch_bit]
    simp
    omega
  simp [tbShadowIndex, hi, this]

theorem tbInv_addTb (h : TbInv c) (virt ptePhys pteFlags : BitVec 64) (t : Tb) (rw : Bool)
    (asn : Nat) : TbInv (c.addTb virt ptePhys pteFlags t rw asn) := by
  obtain ⟨i, next, last, dpc, -, he, hitb, hdtb⟩ :=
    addTb_spec (h.wf t) virt ptePhys pteFlags rw asn
  have hdpc : dpc.Ok := by
    cases t with
    | itb => rw [hitb rfl]; exact h.dpc
    | dtb =>
      obtain ⟨d1, d2, rfl, h1, h2⟩ := hdtb rfl
      exact (h2.ok (h1.ok h.dpc)).flushRange
  rw [he]
  refine ⟨h.idx_fill t i rfl, h.wf_fill t i (wf_ofPte _ _ _ _), fun k hv => ?_, hdpc⟩
  dsimp only at hv ⊢
  split at hv
  · rename_i hm
    rw [if_pos hm]
    rw [Function.update_apply] at hv ⊢
    split
    · rename_i hk
      refine ⟨wf_ofPte _ _ _ _, hm.2, ?_⟩
      rw [STBEntry.ofPte, hm.2, tbShadowIndex_and_ghMatch, hk]
    · rename_i hk
      rw [if_neg hk] at hv
      exact h.shadow k hv
  · rename_i hm
    rw [if_neg hm]
    exact h.shadow k hv

/-- Nothing becomes live: `c'` has of the entries of `c` those it has not invalidated. -/
structure Kept (c c' : AlphaCPU) : Prop where
  tb : ∀ t i, (c'.tb t i).valid = true → c'.tb t i = c.tb t i
  shadow : ∀ k, (c'.shadow k).valid = true → c'.shadow k = c.shadow k

theorem TbInv.of_kept (h : TbInv c) {c' : AlphaCPU} (hk : Kept c c')
    (hi : ∀ t, IndexOk (c'.tb t) (c'.idx t)) (hd : c'.dpc.Ok) : TbInv c' := by
  refine ⟨hi, fun t i hv => ?_, fun k hv => ?_, hd⟩
  · have he := hk.tb t i hv
    rw [he] at hv ⊢
    exact h.wf t i hv
  · have he := hk.shadow k hv
    rw [he] at hv ⊢
    exact h.shadow k hv

theorem killed_live {p : STBEntry → Bool} {l : List TbSlot} {tb : TbSlot → STBEntry}
    (hv : (killed p l tb i).valid = true) : killed p l tb i = tb i ∧ (i ∈ l → p (tb i) = false) := by
  unfold killed at hv ⊢
  split
  · rename_i hk
    rw [if_pos hk] at hv
    cases hv
  · rename_i hk
    exact ⟨rfl, fun hm => by simpa [hm] using hk⟩

/-- One TB changes to `tb`. -/
theorem kept_update {tb : TbSlot → STBEntry} (h : ∀ i, (tb i).valid = true → tb i = c.tb t i)
    (t' : Tb) (i : TbSlot) (hv : (update c.tb t tb t' i).valid = true) :
    update c.tb t tb t' i = c.tb t' i := by
  by_cases ht : t' = t
  · subst ht
    rw [Function.update_self] at hv ⊢
    exact h i hv
  · rw [Function.update_of_ne ht]

theorem TbInv.idx_update (h : TbInv c) {tb : TbSlot → STBEntry} {ix : TbIndex}
    (hi : IndexOk tb ix) (t' : Tb) : IndexOk (update c.tb t tb t') (update c.idx t ix t') := by
  by_cases ht : t' = t
  · subst ht
    rw [Function.update_self, Function.update_self]
    exact hi
  · rw [Function.update_of_ne ht, Function.update_of_ne ht]
    exact h.idx t'

theorem kept_tbiap (c : AlphaCPU) (t : Tb) : Kept c (c.tbiap t) := by
  obtain ⟨ix, d, he, -⟩ := tbiap_spec c t
  rw [he]
  refine ⟨kept_update fun i hv => (killed_live hv).1, fun k hv => ?_⟩
  dsimp only at hv ⊢
  split at hv
  · rename_i ht
    dsimp only at hv
    split at hv
    · cases hv
    · rename_i ha
      rw [if_pos ht, if_neg ha]
  · rename_i ht
    rw [if_neg ht]

theorem tbInv_tbiap (h : TbInv c) (t : Tb) : TbInv (c.tbiap t) := by
  have hk := kept_tbiap c t
  obtain ⟨ix, d, he, hi, hd⟩ := tbiap_spec c t
  rw [he] at hk ⊢
  refine h.of_kept hk (h.idx_update (hi (h.idx t))) ?_
  dsimp only
  split
  · exact (hd h.dpc).1.flush
  · exact (hd h.dpc).1

theorem kept_tbisD (c : AlphaCPU) (virt : BitVec 64) (asn : Nat) : Kept c (c.tbisD virt asn) := by
  obtain ⟨ix, d, he, -⟩ := tbisD_spec c virt asn
  rw [he]
  refine ⟨kept_update fun i hv => (killed_live hv).1, fun k hv => ?_⟩
  dsimp only at hv ⊢
  rw [Function.update_apply] at hv ⊢
  split at hv
  · rename_i hk
    subst hk
    split at hv
    · cases hv
    · rename_i hs
      rw [if_pos rfl, if_neg hs]
  · rename_i hk
    rw [if_neg hk]

theorem tbInv_tbisD (h : TbInv c) (virt : BitVec 64) (asn : Nat) : TbInv (c.tbisD virt asn) := by
  have hk := kept_tbisD c virt asn
  obtain ⟨ix, d, he, hi, hd⟩ := tbisD_spec c virt asn
  rw [he] at hk ⊢
  refine h.of_kept hk (h.idx_update (hi (h.idx .dtb))) ?_
  dsimp only
  exact (hd h.dpc).1.flushRange

theorem kept_tbia (c : AlphaCPU) (t : Tb) : Kept c (c.tbia t) := by
  obtain ⟨next, last, he⟩ := tbia_spec c t
  rw [he]
  refine ⟨kept_update (fun i hv => nomatch hv), fun k hv => ?_⟩
  dsimp only at hv ⊢
  split at hv
  · cases hv
  · rename_i ht
    rw [if_neg ht]

theorem tbInv_tbia (h : TbInv c) (t : Tb) : TbInv (c.tbia t) := by
  have hk := kept_tbia c t
  obtain ⟨next, last, he⟩ := tbia_spec c t
  rw [he] at hk ⊢
  refine h.of_kept hk (h.idx_update (indexOk_empty fun _ => rfl)) ?_
  dsimp only
  split
  · exact h.dpc.flush
  · exact h.dpc

theorem tbisShadow_spec (c : AlphaCPU) (virt : BitVec 64) :
    ∃ sh, c.tbisShadow virt = { c with shadow := update c.shadow (tbShadowIndex virt) sh } ∧
      (sh = c.shadow (tbShadowIndex virt) ∨ sh = (c.shadow (tbShadowIndex virt)).invalidate ∧
        (c.shadow (tbShadowIndex virt)).virt =
          virt &&& (c.shadow (tbShadowIndex virt)).matchMask) := by
  unfold tbisShadow
  dsimp only
  split
  · rename_i hm
    simp only [Bool.and_eq_true, beq_iff_eq] at hm
    exact ⟨_, rfl, .inr ⟨rfl, hm.2⟩⟩
  · exact ⟨_, by rw [Function.update_eq_self], .inl rfl⟩

theorem kept_tbisShadow (c : AlphaCPU) (virt : BitVec 64) : Kept c (c.tbisShadow virt) := by
  obtain ⟨sh, he, hsh⟩ := tbisShadow_spec c virt
  rw [he]
  refine ⟨fun _ _ _ => rfl, fun k hv => ?_⟩
  simp only [Function.update_apply] at hv ⊢
  split
  · rename_i hk
    rw [if_pos hk] at hv
    rcases hsh with rfl | ⟨rfl, -⟩
    · rw [hk]
    · cases hv
  · rfl

theorem tbInv_tbisShadow (h : TbInv c) (virt : BitVec 64) : TbInv (c.tbisShadow virt) := by
  have hk := kept_tbisShadow c virt
  obtain ⟨sh, he, -⟩ := tbisShadow_spec c virt
  rw [he] at hk ⊢
  exact h.of_kept hk h.idx h.dpc

theorem tbInv_killEntry (h : TbInv c) (hv : (c.tb t i).valid = true) : TbInv (c.killEntry t i) := by
  have he : c.killEntry t i = { c with
      tb := update c.tb t (update (c.tb t) i (c.tb t i).invalidate)
      idx := update c.idx t ((c.idx t).drop (c.tb t i) i) } := by
    simp [killEntry, setEntry, tbIdxDrop, setIdx, STBEntry.invalidate, TbIndex.drop]
  rw [he]
  refine h.of_kept ⟨kept_update fun j hj => ?_, fun _ _ => rfl⟩
    (h.idx_update ((h.idx t).drop hv rfl)) h.dpc
  rw [Function.update_apply] at hj ⊢
  split at hj
  · cases hj
  · rename_i hn
    rw [if_neg hn]

theorem tbInv_tbis (h : TbInv c) (virt : BitVec 64) (t : Tb) : TbInv (c.tbis virt t) := by
  unfold tbis
  cases t with
  | dtb =>
    dsimp only
    have h1 := tbInv_tbisD (tbInv_tbisShadow h virt) virt c.asn0
    split
    · exact tbInv_tbisD h1 _ _
    · exact h1
  | itb =>
    have hf := tbInv_findTBEntry h virt .itb false
    rcases findTBEntry_cases c virt .itb false with ⟨i, ix, he, hh, -⟩ | ⟨hn, -⟩ | ⟨he, -⟩
    · rw [he] at hf
      dsimp only
      rw [he]
      exact tbInv_killEntry hf (STBEntry.hits_iff.mp hh).1
    · cases hn
    · dsimp only
      rw [he]
      exact h

theorem tbInv_virt2phys (h : TbInv c) (virt : BitVec 64) (f : Flags) :
    TbInv (c.virt2phys virt f).2 := by
  unfold virt2phys virt2physFast
  have hf := tbInv_findTBEntry h virt f.tb f.write
  split
  · exact h
  · split
    · split
      · exact h
      · exact h
    · split
      · rename_i he
        rwa [he] at hf
      · rename_i he
        rwa [he] at hf

theorem tbInv_dataPhysNt (h : TbInv c) (va : BitVec 64) (rw : Bool) :
    TbInv (c.dataPhysNt va rw).2 := by
  unfold dataPhysNt
  split
  · rename_i dpc hp
    refine ⟨h.idx, h.wf, h.shadow, ?_⟩
    unfold dpcProbe at hp
    split at hp
    · cases hp
      exact h.dpc
    · exact h.dpc.promote PageCache.dpcIndex_pageOf hp
  · have hv := tbInv_virt2phys h va { write := rw }
    split
    · rename_i he
      rw [he] at hv
      exact ⟨hv.idx, hv.wf, hv.shadow, hv.dpc.put⟩
    · exact hv

theorem tbInv_hwMtpr (h : TbInv c) (ipr : Ipr) (value : BitVec 64) :
    TbInv (c.hwMtpr ipr value) := by
  -- a write of a control register keeps the TBs and flushes the page cache at most
  have ctl : ∀ c' : AlphaCPU, c'.tb = c.tb → c'.idx = c.idx → c'.shadow = c.shadow →
      (c'.dpc = c.dpc ∨ c'.dpc = c.dpc.flush) → TbInv c' := by
    intro c' htb hidx hsh hd
    refine ⟨by rw [htb, hidx]; exact h.idx, by rw [htb]; exact h.wf,
      by rw [hsh]; exact h.shadow, ?_⟩
    rcases hd with hd | hd
    · rw [hd]
      exact h.dpc
    · rw [hd]
      exact h.dpc.flush
  cases ipr with
  | ITB_PTE => rw [hwMtpr, addTbI]; exact tbInv_addTb h _ _ _ _ _ _
  | DTB_PTE => rw [hwMtpr, addTbD]; exact tbInv_addTb h _ _ _ _ _ _
  | ITB_IAP | DTB_IAP => rw [hwMtpr]; exact tbInv_tbiap h _
  | ITB_IA | DTB_IA => rw [hwMtpr]; exact tbInv_tbia h _
  | ITB_IS => rw [hwMtpr]; exact tbInv_tbis h _ _
  | DTB_IS => rw [hwMtpr]; exact tbInv_tbisD h _ _
  | VA_CTL =>
    rw [hwMtpr]
    refine tbInv_tbia ?_ _
    exact ctl _ rfl rfl rfl (.inr rfl)
  | PCTX | M_CTL => exact ctl _ rfl rfl rfl (.inr rfl)
  | DTB_ASN port => cases port <;> exact ctl _ rfl rfl rfl (.inr rfl)
  | ITB_TAG | CM | IER_CM | I_CTL | DTB_TAG | DTB_ALTMODE => exact ctl _ rfl rfl rfl (.inl rfl)

theorem tbInv_exec (h : TbInv c) (op : Op) : TbInv (op.exec c) := by
  cases op with
  | addTb virt ptePhys pteFlags t rw asn => exact tbInv_addTb h virt ptePhys pteFlags t rw asn
  | tbia t => exact tbInv_tbia h t
  | tbiap t => exact tbInv_tbiap h t
  | tbis virt t => exact tbInv_tbis h virt t
  | tbisD virt asn => exact tbInv_tbisD h virt asn
  | findTBEntry virt t rw => exact tbInv_findTBEntry h virt t rw
  | virt2phys virt f => exact tbInv_virt2phys h virt f
  | dataPhysNt va rw => exact tbInv_dataPhysNt h va rw
  | hwMtpr ipr value => exact tbInv_hwMtpr h ipr value

end AlphaCPU

theorem Reachable.tbInv {ok : Traced → Op → Prop} {keep : Bool} {s : Traced}
    (h : Reachable ok keep s) : s.cpu.TbInv := by
  refine Lib.Reach.inv (P := fun s : Traced => s.cpu.TbInv) ?_ ?_ h
  · rintro _ rfl
    exact AlphaCPU.tbInv_init keep
  · exact fun s op hs _ => AlphaCPU.tbInv_exec hs op

namespace AlphaCPU

variable {c : AlphaCPU} {t : Tb} {virt : BitVec 64} {rw : Bool}

/-- A lookup that returns nothing proves that nothing matches. -/
theorem findTBEntry_none (h : TbInv c) (hf : (c.findTBEntry virt t rw).1 = none) :
    (∀ i, (c.tb t i).hits virt (c.asnOf t) = false) ∧
      (t = .dtb → (c.shadow (tbShadowIndex virt)).hits virt c.asn0 = false) := by
  rcases findTBEntry_cases c virt t rw with ⟨i, ix, he, -⟩ | ⟨-, -, -, i, c', -, he⟩ | ⟨-, hs, hsh⟩
  · simp [he] at hf
  · simp [he] at hf
  · refine ⟨searchTb_none (h.idx t) hs, fun ht => ?_⟩
    have := (shadowHits_iff h virt c.asn0).not
    simpa [hsh ht] using this

/-- The slot a lookup returns is live and matches. -/
theorem findTBEntry_some (h : TbInv c) {i : TbSlot} {c' : AlphaCPU}
    (hf : c.findTBEntry virt t rw = (some i, c')) :
    (c'.tb t i).hits virt (c.asnOf t) = true := by
  rcases findTBEntry_cases c virt t rw with ⟨i, ix, he, hh, -⟩ | ⟨rfl, -, -, i, c', hr, he⟩ | ⟨he, -⟩
  · rw [he] at hf
    cases hf
    exact hh
  · rw [he] at hf
    cases hf
    obtain ⟨hs, -, dpc, rfl, -⟩ := tbRefillFromShadow_some hr
    simpa [setLastFound, asnOf] using (shadowHits_iff h _ _).mp hs
  · rw [he] at hf
    cases hf

end AlphaCPU

/-- **The index hides no live entry.** In every reachable state, under any ASN, a lookup returns
nothing only when no live entry of that TB matches, nor the shadow's slot on the data side, and a
slot it returns is live and matches; every live 8 KB entry is in its set's packed ways or the set
is marked, and `m_tb_gh_live` counts the live larger entries. -/
theorem findTBEntry_exact {keep : Bool} {s : Traced} (h : Reachable (fun _ _ => True) keep s)
    (asn asn0 : Nat) (va : BitVec 64) (t : Tb) (rw : Bool) :
    let c : AlphaCPU := { s.cpu with asn, asn0 }
    ((c.findTBEntry va t rw).1 = none →
      (∀ i, (c.tb t i).hits va (c.asnOf t) = false) ∧
        (t = .dtb → (c.shadow (tbShadowIndex va)).hits va asn0 = false)) ∧
    (∀ i, (c.findTBEntry va t rw).1 = some i →
      ((c.findTBEntry va t rw).2.tb t i).hits va (c.asnOf t) = true) ∧
    (∀ i, (c.tb t i).valid = true → (c.tb t i).matchMask = ghMatch 0 →
      i ∈ Lib.front ((c.idx t).ways (tbIdxSet (c.tb t i).virt)) ∨
        (c.idx t).lost (tbIdxSet (c.tb t i).virt) = true) ∧
    (c.idx t).ghLive = (Finset.univ.filter fun i : TbSlot =>
      (c.tb t i).valid = true ∧ (c.tb t i).matchMask ≠ ghMatch 0).card := by
  intro c
  have hc : c.TbInv := ⟨h.tbInv.idx, h.tbInv.wf, h.tbInv.shadow, h.tbInv.dpc⟩
  refine ⟨AlphaCPU.findTBEntry_none hc, fun i hi => ?_, fun i hv hm => ?_, ?_⟩
  · exact AlphaCPU.findTBEntry_some hc (Prod.ext hi rfl)
  · have h8 := (hc.wf t i hv).tbIdx8k_iff.mpr hm
    exact ((hc.idx t).held i hv h8).imp_left ((hc.idx t).packed _).mem_front.mpr
  · rw [(hc.idx t).live]
    congr 2
    ext i
    simp only [liveGh, Finset.mem_filter, Finset.mem_univ, true_and]
    refine and_congr_right fun hv => ?_
    rw [← Bool.not_eq_true, (hc.wf t i hv).tbIdx8k_iff]

theorem findTBEntry_exact_added :
    ((runOps true [.addTb 0x2000#64 0x4000#64 0x1100#64 .dtb false 3]).cpu.tb .dtb 0).valid = true ∧
      0 ∈ Lib.front (((runOps true [.addTb 0x2000#64 0x4000#64 0x1100#64 .dtb false 3]).cpu.idx
        .dtb).ways 1) := by
  have hr : Reachable (fun _ _ => True) true
      (runOps true [.addTb 0x2000#64 0x4000#64 0x1100#64 .dtb false 3]) :=
    reachable_runOps true _ fun _ _ _ => trivial
  refine ⟨by decide +kernel, ?_⟩
  rcases (findTBEntry_exact hr 0 0 0 .dtb false).2.2.1 0 (by decide +kernel) (by decide +kernel)
    with hm | hl
  · exact hm
  · revert hl
    decide +kernel

end Alphabox.Cpu
