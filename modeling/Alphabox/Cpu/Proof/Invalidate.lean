import Alphabox.Cpu.Proof.Lookup

/-!
# Invalidates reach every copy of a translation

`Prov`: every live entry of a TB and of the shadow was inserted by an `add_tb` that no matching
invalidate followed. The data side invalidates every match. `ITB_IS` invalidates only the entry
its lookup finds, so the instruction side has the property in the runs where at most one entry
matches (`Unambiguous`).
-/

namespace Alphabox.Cpu

open Function (update)

variable {t : Tb} {e : STBEntry} {ev : Event} {log : List Event}

theorem Live.append {evs : List Event} (h : Live t e log) (hk : ∀ ev ∈ evs, ¬ev.kills t e) :
    Live t e (evs ++ log) := by
  induction evs with
  | nil => exact h
  | cons ev evs ih =>
    exact .inr ⟨hk ev List.mem_cons_self, ih fun ev' hm => hk ev' (List.mem_cons_of_mem _ hm)⟩

namespace AlphaCPU

/-- Every live entry of the TBs `ts` and of the shadow was inserted and no matching invalidate
followed. -/
structure Prov (ts : Tb → Prop) (c : AlphaCPU) (log : List Event) : Prop where
  tb : ∀ t, ts t → ∀ i, (c.tb t i).valid = true → Live t (c.tb t i) log
  shadow : ∀ k, (c.shadow k).valid = true → Live .dtb (c.shadow k) log

variable {ts : Tb → Prop} {c c' : AlphaCPU} {i : TbSlot} {virt va : BitVec 64} {asn : Nat}
  {rw : Bool}

/-! ## What is gone after an invalidate -/

theorem tbShadowIndex_of_covers {e : STBEntry} (hm : e.matchMask = ghMatch 0)
    (hc : e.covers va = true) : tbShadowIndex e.virt = tbShadowIndex va := by
  have hbits := Lib.xor_and_eq_zero.mp (beq_iff_eq.mp hc)
  refine BitVec.eq_of_getLsbD_eq fun i hi => ?_
  have hg : e.matchMask.getLsbD (13 + i) = true := by
    rw [hm, ghMatch_bit]
    simp
    omega
  simp [tbShadowIndex, hi, hbits _ hg]

/-- Only one slot of the shadow can match an address. -/
theorem TbInv.shadow_index (h : TbInv c) {k : BitVec 12} (hh : (c.shadow k).hits va asn = true) :
    k = tbShadowIndex va := by
  obtain ⟨hv, hc, -⟩ := STBEntry.hits_iff.mp hh
  obtain ⟨-, hm, hk⟩ := h.shadow k hv
  rw [← hk]
  exact tbShadowIndex_of_covers hm hc

theorem tbisD_tb (c : AlphaCPU) (va : BitVec 64) (asn : Nat) (i : TbSlot) :
    ((c.tbisD va asn).tb .dtb i).hits va asn = false := by
  obtain ⟨ix, d, he, -⟩ := tbisD_spec c va asn
  rw [he]
  dsimp only
  rw [Function.update_self]
  by_contra hh
  have hh : (killed (fun e => e.hits va asn) (List.finRange TB_ENTRIES) (c.tb .dtb) i).hits va asn
      = true := by simpa using hh
  obtain ⟨hk, hn⟩ := killed_live (STBEntry.hits_iff.mp hh).1
  rw [hk, hn (List.mem_finRange i)] at hh
  cases hh

theorem tbisD_shadow (h : TbInv c) (k : BitVec 12) :
    ((c.tbisD va asn).shadow k).hits va asn = false := by
  have h' : TbInv (c.tbisD va asn) := tbInv_tbisD h va asn
  by_contra hh
  have hh : ((c.tbisD va asn).shadow k).hits va asn = true := by simpa using hh
  have hk := h'.shadow_index hh
  subst hk
  obtain ⟨ix, d, he, -⟩ := tbisD_spec c va asn
  rw [he] at hh
  dsimp only at hh
  rw [Function.update_self] at hh
  split at hh
  · cases hh
  · rename_i hs
    exact hs ((shadowHits_iff h _ _).mpr hh)

/-- After `tbis_d` the page cache holds nothing of the page. -/
theorem tbisD_dpc (h : TbInv c) {s : Slot} (hs : (c.tbisD va asn).dpc.Holds rw s) :
    s.virtPage ≠ pageOf va := by
  obtain ⟨ix, d, he, -, hd⟩ := tbisD_spec c va asn
  rw [he] at hs
  dsimp only at hs
  have hsame := ((hd h.dpc).1.holds_flushRange hs).2.2
  intro hp
  have : s.same va = true := by
    rw [Slot.same, beq_iff_eq, Lib.xor_and_eq_zero, hp]
    intro i hi
    rw [PageCache.page_bit] at hi
    rw [PageCache.pageOf_bit]
    simp only [Bool.and_eq_true, decide_eq_true_eq] at hi
    simp [hi.1]
  rw [this] at hsame
  cases hsame

theorem tbiap_tb (c : AlphaCPU) (t : Tb) (i : TbSlot) (hv : ((c.tbiap t).tb t i).valid = true) :
    ((c.tbiap t).tb t i).asmBit = true := by
  obtain ⟨ix, d, he, -⟩ := tbiap_spec c t
  rw [he] at hv ⊢
  dsimp only at hv ⊢
  rw [Function.update_self] at hv ⊢
  obtain ⟨hk, hn⟩ := killed_live hv
  rw [hk] at hv ⊢
  simpa [hv] using hn (List.mem_finRange i)

theorem tbiap_shadow (c : AlphaCPU) (k : BitVec 12)
    (hv : ((c.tbiap .dtb).shadow k).valid = true) : ((c.tbiap .dtb).shadow k).asmBit = true := by
  obtain ⟨ix, d, he, -⟩ := tbiap_spec c .dtb
  rw [he] at hv ⊢
  simp only [if_true] at hv ⊢
  split at hv
  · cases hv
  · rename_i ha
    rw [if_neg ha]
    simpa using ha

/-- At most one live ITB entry matches an address. -/
def Single (c : AlphaCPU) (va : BitVec 64) : Prop :=
  ∀ i j, (c.tb .itb i).hits va c.asn = true → (c.tb .itb j).hits va c.asn = true → i = j

/-- `ITB_IS` invalidates one match: the entry its lookup finds. -/
theorem tbis_itb_cases (h : TbInv c) (va : BitVec 64) :
    (∃ i ix last, (c.tb .itb i).hits va c.asn = true ∧ c.tbis va .itb = { c with
        tb := update c.tb .itb (update (c.tb .itb) i (c.tb .itb i).invalidate)
        lastFoundTb := last
        idx := update c.idx .itb ix }) ∨
    ((∀ i, (c.tb .itb i).hits va c.asn = false) ∧ c.tbis va .itb = c) := by
  rcases findTBEntry_cases c va .itb false with ⟨i, ix, he, hh, -⟩ | ⟨hn, -⟩ | ⟨he, hs, -⟩
  · refine .inl ⟨i, ix.drop (c.tb .itb i) i,
      update c.lastFoundTb .itb (update (c.lastFoundTb .itb) false i), hh, ?_⟩
    unfold tbis
    dsimp only
    rw [he]
    simp [killEntry, setEntry, tbIdxDrop, setIdx, setLastFound, STBEntry.invalidate, TbIndex.drop]
  · cases hn
  · refine .inr ⟨searchTb_none (h.idx .itb) hs, ?_⟩
    unfold tbis
    dsimp only
    rw [he]

/-- After `ITB_IS` nothing matches just when at most one entry did. -/
theorem tbis_itb_iff (h : TbInv c) (va : BitVec 64) :
    (∀ i, ((c.tbis va .itb).tb .itb i).hits va c.asn = false) ↔ c.Single va := by
  rcases tbis_itb_cases h va with ⟨i, ix, last, hi, he⟩ | ⟨hn, he⟩
  · rw [he]
    dsimp only
    rw [Function.update_self]
    constructor
    · -- an entry that survives would match still
      intro hgone
      have only : ∀ j, (c.tb .itb j).hits va c.asn = true → j = i := by
        intro j hj
        by_contra hne
        have := hgone j
        rw [Function.update_of_ne hne, hj] at this
        cases this
      exact fun j k hj hk => (only j hj).trans (only k hk).symm
    · intro hs j
      by_cases hj : j = i
      · subst hj
        rw [Function.update_self]
        rfl
      · rw [Function.update_of_ne hj]
        by_contra hh
        exact hj (hs j i (by simpa using hh) hi)
  · rw [he]
    exact ⟨fun _ i j hi => by simp [hn i] at hi, fun _ => hn⟩

/-! ## Provenance -/

theorem prov_init (keep : Bool) : Prov ts (init keep) [] where
  tb _ _ _ h := nomatch h
  shadow _ h := nomatch h

/-- Entries that survive keep their provenance, if the events are no invalidates of them. -/
theorem Prov.kept (h : Prov ts c log) (evs : List Event) (hk : Kept c c')
    (ht : ∀ ev ∈ evs, ∀ t, ts t → ∀ i, (c'.tb t i).valid = true → ¬ev.kills t (c'.tb t i))
    (hs : ∀ ev ∈ evs, ∀ k, (c'.shadow k).valid = true → ¬ev.kills .dtb (c'.shadow k)) :
    Prov ts c' (evs ++ log) := by
  refine ⟨fun t htt i hv => ?_, fun k hv => ?_⟩
  · refine Live.append ?_ fun ev hm => ht ev hm t htt i hv
    have he := hk.tb t i hv
    rw [he] at hv ⊢
    exact h.tb t htt i hv
  · refine Live.append ?_ fun ev hm => hs ev hm k hv
    have he := hk.shadow k hv
    rw [he] at hv ⊢
    exact h.shadow k hv

theorem prov_findTBEntry (h : Prov ts c log) (hi : TbInv c) (virt : BitVec 64) (t : Tb) (rw : Bool) :
    Prov ts (c.findTBEntry virt t rw).2 log := by
  rcases findTBEntry_cases c virt t rw with ⟨i, ix, he, -⟩ | ⟨rfl, -, -, i, c', hr, he⟩ | ⟨he, -⟩
  · rw [he]
    exact ⟨h.tb, h.shadow⟩
  · rw [he]
    obtain ⟨hs, -, dpc, rfl, -⟩ := tbRefillFromShadow_some hr
    have hsv := (STBEntry.hits_iff.mp ((shadowHits_iff hi _ _).mp hs)).1
    refine ⟨fun t ht j hv => ?_, h.shadow⟩
    simp only [setLastFound, Lib.update_row_apply] at hv ⊢
    split at hv
    · rename_i hj
      obtain ⟨rfl, rfl⟩ := hj
      rw [if_pos ⟨rfl, rfl⟩]
      exact h.shadow _ hsv
    · rename_i hj
      rw [if_neg hj]
      exact h.tb t ht j hv
  · rw [he]
    exact h

theorem prov_addTb (h : Prov ts c log) (hi : TbInv c) (virt ptePhys pteFlags : BitVec 64) (t : Tb)
    (rw : Bool) (asn : Nat) :
    Prov ts (c.addTb virt ptePhys pteFlags t rw asn)
      (.ins t (.ofPte virt ptePhys pteFlags asn) :: log) := by
  obtain ⟨i, next, last, dpc, -, he, -⟩ := addTb_spec (hi.wf t) virt ptePhys pteFlags rw asn
  have keep : ∀ {t' e'}, Live t' e' log →
      Live t' e' (.ins t (.ofPte virt ptePhys pteFlags asn) :: log) := fun hl => .inr ⟨id, hl⟩
  rw [he]
  refine ⟨fun t' ht j hv => ?_, fun k hv => ?_⟩
  · simp only [Lib.update_row_apply] at hv ⊢
    split at hv
    · rename_i hj
      obtain ⟨rfl, rfl⟩ := hj
      rw [if_pos ⟨rfl, rfl⟩]
      exact .inl rfl
    · rename_i hj
      rw [if_neg hj]
      exact keep (h.tb t' ht j hv)
  · dsimp only at hv ⊢
    split at hv
    · rename_i hm
      obtain ⟨rfl, hm⟩ := hm
      rw [if_pos ⟨rfl, hm⟩]
      rw [Function.update_apply] at hv ⊢
      split at hv
      · rename_i hk
        rw [if_pos hk]
        exact .inl rfl
      · rename_i hk
        rw [if_neg hk]
        exact keep (h.shadow k hv)
    · rename_i hm
      rw [if_neg hm]
      exact keep (h.shadow k hv)

theorem prov_tbisD (h : Prov ts c log) (hi : TbInv c) (va : BitVec 64) (asn : Nat) :
    Prov ts (c.tbisD va asn) (.is .dtb va asn :: log) := by
  refine h.kept [.is .dtb va asn] (kept_tbisD c va asn) ?_ ?_
  · rintro ev hm t ht i - hkill
    obtain rfl := List.mem_singleton.mp hm
    obtain ⟨rfl, hh⟩ := hkill
    rw [tbisD_tb] at hh
    cases hh
  · rintro ev hm k - hkill
    obtain rfl := List.mem_singleton.mp hm
    obtain ⟨-, hh⟩ := hkill
    rw [tbisD_shadow hi] at hh
    cases hh

theorem prov_tbia (h : Prov ts c log) (t : Tb) : Prov ts (c.tbia t) (.ia t :: log) := by
  refine h.kept [.ia t] (kept_tbia c t) ?_ ?_
  all_goals obtain ⟨next, last, he⟩ := tbia_spec c t
  · rintro ev hm t' - i hv hkill
    obtain rfl := List.mem_singleton.mp hm
    obtain rfl : t = t' := hkill
    rw [he] at hv
    dsimp only at hv
    rw [Function.update_self] at hv
    cases hv
  · rintro ev hm k hv hkill
    obtain rfl := List.mem_singleton.mp hm
    obtain rfl : t = .dtb := hkill
    rw [he] at hv
    cases hv

theorem prov_tbiap (h : Prov ts c log) (t : Tb) : Prov ts (c.tbiap t) (.iap t :: log) := by
  refine h.kept [.iap t] (kept_tbiap c t) ?_ ?_
  · rintro ev hm t' - i hv hkill
    obtain rfl := List.mem_singleton.mp hm
    obtain ⟨rfl, ha⟩ := hkill
    rw [tbiap_tb c t i hv] at ha
    cases ha
  · rintro ev hm k hv hkill
    obtain rfl := List.mem_singleton.mp hm
    obtain ⟨rfl, ha⟩ := hkill
    rw [tbiap_shadow c k hv] at ha
    cases ha

theorem tbisD_asn (c : AlphaCPU) (va : BitVec 64) (asn : Nat) :
    (c.tbisD va asn).asn0 = c.asn0 ∧ (c.tbisD va asn).asn1 = c.asn1 := by
  obtain ⟨ix, d, he, -⟩ := tbisD_spec c va asn
  rw [he]
  exact ⟨rfl, rfl⟩

theorem tbisShadow_asn (c : AlphaCPU) (va : BitVec 64) :
    (c.tbisShadow va).asn0 = c.asn0 ∧ (c.tbisShadow va).asn1 = c.asn1 := by
  obtain ⟨sh, he, -⟩ := tbisShadow_spec c va
  rw [he]
  exact ⟨rfl, rfl⟩

theorem prov_tbis_dtb (h : Prov ts c log) (hi : TbInv c) (va : BitVec 64) :
    Prov ts (c.tbis va .dtb) (.is .dtb va c.asn1 :: .is .dtb va c.asn0 :: log) := by
  have hi1 : TbInv (c.tbisShadow va) := tbInv_tbisShadow hi va
  have h1 : Prov ts (c.tbisShadow va) log :=
    h.kept [] (kept_tbisShadow c va) (by simp) (by simp)
  have h2 := prov_tbisD h1 hi1 va c.asn0
  have hi2 : TbInv ((c.tbisShadow va).tbisD va c.asn0) := tbInv_tbisD hi1 va c.asn0
  obtain ⟨e0, e1⟩ := tbisD_asn (c.tbisShadow va) va c.asn0
  obtain ⟨s0, s1⟩ := tbisShadow_asn c va
  unfold tbis
  dsimp only
  rw [e0, e1, s0, s1]
  split
  · exact prov_tbisD h2 hi2 va c.asn1
  · rename_i hn
    -- the two ASNs are one, and nothing is left that matches it
    have hn : c.asn1 = c.asn0 := by simpa using hn
    rw [hn]
    refine h2.kept [.is .dtb va c.asn0] ⟨fun _ _ _ => rfl, fun _ _ => rfl⟩ ?_ ?_
    · rintro ev hm t ht i - hkill
      obtain rfl := List.mem_singleton.mp hm
      obtain ⟨rfl, hh⟩ := hkill
      rw [tbisD_tb] at hh
      cases hh
    · rintro ev hm k - hkill
      obtain rfl := List.mem_singleton.mp hm
      obtain ⟨-, hh⟩ := hkill
      rw [tbisD_shadow hi1] at hh
      cases hh

theorem prov_tbis_itb (h : Prov ts c log) (hi : TbInv c) {va : BitVec 64}
    (hs : ts .itb → c.Single va) : Prov ts (c.tbis va .itb) (.is .itb va c.asn :: log) := by
  have hkept : Kept c (c.tbis va .itb) := by
    rcases tbis_itb_cases hi va with ⟨i, ix, last, -, he⟩ | ⟨-, he⟩
    · rw [he]
      refine ⟨kept_update fun j hv => ?_, fun _ _ => rfl⟩
      rw [Function.update_apply] at hv ⊢
      split at hv
      · cases hv
      · rename_i hn
        rw [if_neg hn]
    · rw [he]
      exact ⟨fun _ _ _ => rfl, fun _ _ => rfl⟩
  refine h.kept [.is .itb va c.asn] hkept ?_ ?_
  · rintro ev hm t ht i - hkill
    obtain rfl := List.mem_singleton.mp hm
    obtain ⟨rfl, hh⟩ := hkill
    rw [(tbis_itb_iff hi va).mpr (hs ht)] at hh
    cases hh
  · rintro ev hm k - hkill
    obtain rfl := List.mem_singleton.mp hm
    cases hkill.1

theorem prov_virt2phys (h : Prov ts c log) (hi : TbInv c) (virt : BitVec 64) (f : Flags) :
    Prov ts (c.virt2phys virt f).2 log := by
  have hf := prov_findTBEntry h hi virt f.tb f.write
  unfold virt2phys virt2physFast
  split
  · exact h
  · split
    · split <;> exact h
    · split
      all_goals
        rename_i he
        rwa [he] at hf

theorem prov_dataPhysNt (h : Prov ts c log) (hi : TbInv c) (va : BitVec 64) (rw : Bool) :
    Prov ts (c.dataPhysNt va rw).2 log := by
  have hv := prov_virt2phys h hi va { write := rw }
  unfold dataPhysNt
  split
  · exact ⟨h.tb, h.shadow⟩
  · split
    · rename_i he
      rw [he] at hv
      exact ⟨hv.tb, hv.shadow⟩
    · exact hv

end AlphaCPU

/-! ## Every run -/

/-- The address of an `ITB_IS`. -/
def Op.itbIs : Op → Option (BitVec 64)
  | .tbis va .itb => some va
  | .hwMtpr .ITB_IS va => some va
  | _ => none

/-- An `ITB_IS` is taken where at most one live ITB entry matches its address. -/
def Unambiguous (s : Traced) (op : Op) : Prop := ∀ va, op.itbIs = some va → s.cpu.Single va

open AlphaCPU in
theorem prov_exec {ts : Tb → Prop} {s : Traced} (h : Prov ts s.cpu s.log) (hi : s.cpu.TbInv)
    {op : Op} (hu : ts .itb → Unambiguous s op) : Prov ts (s.step op).cpu (s.step op).log := by
  have same : ∀ c' : AlphaCPU, c'.tb = s.cpu.tb → c'.shadow = s.cpu.shadow → Prov ts c' s.log :=
    fun c' ht hs => ⟨by rw [ht]; exact h.tb, by rw [hs]; exact h.shadow⟩
  cases op with
  | addTb virt ptePhys pteFlags t rw asn => exact prov_addTb h hi virt ptePhys pteFlags t rw asn
  | tbia t => exact prov_tbia h t
  | tbiap t =>
    simp only [Traced.step, Op.exec, Op.events, List.cons_append, List.nil_append]
    exact prov_tbiap h t
  | tbis virt t =>
    cases t <;> simp only [Traced.step, Op.exec, Op.events, Op.tbisEvents, List.cons_append,
      List.nil_append]
    case dtb => exact prov_tbis_dtb h hi virt
    case itb => exact prov_tbis_itb h hi fun ht => hu ht virt rfl
  | tbisD virt asn =>
    simp only [Traced.step, Op.exec, Op.events, List.cons_append, List.nil_append]
    exact prov_tbisD h hi virt asn
  | findTBEntry virt t rw => exact prov_findTBEntry h hi virt t rw
  | virt2phys virt f => exact prov_virt2phys h hi virt f
  | dataPhysNt va rw => exact prov_dataPhysNt h hi va rw
  | hwMtpr ipr value =>
    cases ipr <;> simp only [Traced.step, Op.exec, Op.events, hwMtpr, List.cons_append,
      List.nil_append]
    case ITB_PTE => exact prov_addTb h hi _ _ _ _ _ _
    case DTB_PTE => exact prov_addTb h hi _ _ _ _ _ _
    case ITB_IAP => exact prov_tbiap h _
    case DTB_IAP => exact prov_tbiap h _
    case ITB_IA => exact prov_tbia h _
    case DTB_IA => exact prov_tbia h _
    case ITB_IS => exact prov_tbis_itb h hi fun ht => hu ht value rfl
    case DTB_IS => exact prov_tbisD h hi _ _
    case VA_CTL =>
      refine prov_tbia ?_ .dtb
      exact same _ rfl rfl
    case DTB_ASN port => cases port <;> exact same _ rfl rfl
    all_goals exact same _ rfl rfl

/-- The instruction side needs its `ITB_IS` writes to be unambiguous, the data side nothing. -/
theorem Reachable.prov {ok : Traced → Op → Prop} {ts : Tb → Prop}
    (hok : ∀ s op, ok s op → ts .itb → Unambiguous s op) {keep : Bool} {s : Traced}
    (h : Reachable ok keep s) : s.cpu.TbInv ∧ AlphaCPU.Prov ts s.cpu s.log := by
  refine Lib.Reach.inv (P := fun s : Traced => s.cpu.TbInv ∧ AlphaCPU.Prov ts s.cpu s.log) ?_ ?_ h
  · rintro _ rfl
    exact ⟨AlphaCPU.tbInv_init keep, AlphaCPU.prov_init keep⟩
  · exact fun s op hs ha => ⟨AlphaCPU.tbInv_exec hs.1 op, prov_exec hs.2 hs.1 (hok s op ha)⟩

/-- **Invalidates reach every copy.** In every run whose `ITB_IS` writes each find at most one
match: after `tbis_d` nothing translates the address under that ASN, in the data TB, the shadow or
the page cache; after `tbiap` nothing without ASM is left; after `ITB_IS` nothing matches under
the current ASN, just when at most one entry did; and what a lookup returns was inserted by an
`add_tb` that no matching invalidate followed. -/
theorem invalidates_reach_all {keep : Bool} {s : Traced} (h : Reachable Unambiguous keep s) :
    (∀ va asn,
      (∀ i, ((s.cpu.tbisD va asn).tb .dtb i).hits va asn = false) ∧
      (∀ k, ((s.cpu.tbisD va asn).shadow k).hits va asn = false) ∧
      (∀ rw slot, (s.cpu.tbisD va asn).dpc.Holds rw slot → slot.virtPage ≠ pageOf va)) ∧
    (∀ va, (∀ i, ((s.cpu.tbis va .itb).tb .itb i).hits va s.cpu.asn = false) ↔
      s.cpu.Single va) ∧
    (∀ t i, ((s.cpu.tbiap t).tb t i).valid = true → ((s.cpu.tbiap t).tb t i).asmBit = true) ∧
    (∀ k, ((s.cpu.tbiap .dtb).shadow k).valid = true →
      ((s.cpu.tbiap .dtb).shadow k).asmBit = true) ∧
    (∀ va t rw i, (s.cpu.findTBEntry va t rw).1 = some i →
      Live t ((s.cpu.findTBEntry va t rw).2.tb t i) s.log) := by
  obtain ⟨hi, hp⟩ : s.cpu.TbInv ∧ AlphaCPU.Prov (fun _ => True) s.cpu s.log :=
    h.prov fun _ _ hu _ => hu
  refine ⟨fun va asn => ⟨AlphaCPU.tbisD_tb _ va asn, AlphaCPU.tbisD_shadow hi,
    fun rw slot hs => AlphaCPU.tbisD_dpc hi hs⟩, AlphaCPU.tbis_itb_iff hi,
    AlphaCPU.tbiap_tb _, AlphaCPU.tbiap_shadow _, fun va t rw i hf => ?_⟩
  have he : s.cpu.findTBEntry va t rw = (some i, (s.cpu.findTBEntry va t rw).2) := Prod.ext hf rfl
  have hh := AlphaCPU.findTBEntry_some hi he
  exact (AlphaCPU.prov_findTBEntry hp hi va t rw).tb t trivial i (STBEntry.hits_iff.mp hh).1

/-- Two instruction pages and three data pages, the second of each with ASM. -/
def fills : List Op :=
  [.hwMtpr .PCTX 0x8000000000#64, .hwMtpr .ITB_TAG 0x2000#64, .hwMtpr .ITB_PTE 0x4100#64,
    .hwMtpr .ITB_TAG 0x4000#64, .hwMtpr .ITB_PTE 0x6110#64,
    .addTb 0x2000#64 0x8000#64 0x1100#64 .dtb false 0,
    .addTb 0x4000#64 0xa000#64 0x1110#64 .dtb false 0,
    .addTb 0x6000#64 0xc000#64 0x1100#64 .dtb false 0]

/-- The first data page goes by itself, the third with all that have no ASM; the first instruction
page, which an `ITB_IS` has taken, comes back. -/
def invalidates : List Op :=
  [.tbisD 0x2000#64 0, .tbiap .dtb, .hwMtpr .ITB_TAG 0x2000#64, .hwMtpr .ITB_PTE 0x8100#64]

/-- The processor after both, with an `ITB_IS` of the first page between. -/
def invalidated : Traced :=
  invalidates.foldl Traced.step ((runOps true fills).step (.hwMtpr .ITB_IS 0x2000#64))


theorem invalidates_reach_all_later :
    (invalidated.cpu.findTBEntry 0x6000#64 .dtb false).1 = none ∧
    (∀ i, ((invalidated.cpu.tbisD 0x4000#64 0).tb .dtb i).hits 0x4000#64 0 = false) ∧
    (∀ i, ((invalidated.cpu.tbiap .itb).tb .itb i).valid = true →
      ((invalidated.cpu.tbiap .itb).tb .itb i).asmBit = true) ∧
    Live .dtb ((invalidated.cpu.findTBEntry 0x4000#64 .dtb false).2.tb .dtb 1) invalidated.log ∧
    Live .itb ((invalidated.cpu.findTBEntry 0x2000#64 .itb false).2.tb .itb 2) invalidated.log ∧
    ∀ i, ((invalidated.cpu.tbis 0x2000#64 .itb).tb .itb i).hits 0x2000#64 invalidated.cpu.asn =
      false := by
  have none_is {op : Op} (h : op.itbIs = none) (s : Traced) : Unambiguous s op := fun va hva => by
    rw [h] at hva
    cases hva
  have hfills : Reachable Unambiguous true (runOps true fills) := by
    have hnone : ∀ op ∈ fills, op.itbIs = none := by simp [fills, Op.itbIs]
    exact reachable_runOps true _ fun op hm => none_is (hnone op hm)
  have hsingle : (runOps true fills).cpu.Single 0x2000#64 := by
    have only : ∀ i, ((runOps true fills).cpu.tb .itb i).hits 0x2000#64
        (runOps true fills).cpu.asn = true → i = 0 := by decide +kernel
    exact fun i j hi hj => (only i hi).trans (only j hj).symm
  have hr : Reachable Unambiguous true invalidated := by
    have hnone : ∀ op ∈ invalidates, op.itbIs = none := by simp [invalidates, Op.itbIs]
    have his : Unambiguous (runOps true fills) (.hwMtpr .ITB_IS 0x2000#64) := fun va hva => by
      have hva : 0x2000#64 = va := Option.some.inj hva
      rw [← hva]
      exact hsingle
    exact (hfills.next his).foldl invalidates fun op hm => none_is (hnone op hm)
  obtain ⟨hd, his, hiap, -, hlive⟩ := invalidates_reach_all hr
  refine ⟨by decide +kernel, (hd 0x4000#64 0).1, hiap .itb, hlive _ _ _ _ (by decide +kernel),
    hlive _ _ _ _ (by decide +kernel), (his 0x2000#64).mpr ?_⟩
  have only : ∀ i, (invalidated.cpu.tb .itb i).hits 0x2000#64 invalidated.cpu.asn = true →
      i = 2 := by decide +kernel
  exact fun i j hi hj => (only i hi).trans (only j hj).symm

/-- A page mapped for process 1, then, by process 2, for every process; process 1 runs again. -/
def asmBesideAsn : List Op :=
  [.hwMtpr .PCTX 0x8000000000#64, .hwMtpr .ITB_TAG 0x2000#64, .hwMtpr .ITB_PTE 0x4100#64,
    .hwMtpr .PCTX 0x10000000000#64, .hwMtpr .ITB_PTE 0x6110#64, .hwMtpr .PCTX 0x8000000000#64]

/-- With both entries live an `ITB_IS` of the page leaves the one for process 1. -/
theorem itbIs_leaves_match :
    ¬∀ s : Traced, Reachable (fun _ _ => True) true s → ∀ va i,
      ((s.cpu.tbis va .itb).tb .itb i).hits va s.cpu.asn = false := by
  intro h
  have := h _ (reachable_runOps true asmBesideAsn fun _ _ _ => trivial) 0x2000#64 0
  revert this
  decide +kernel

end Alphabox.Cpu
