import Alphabox.Cpu.Proof.Invalidate

/-!
# The page cache agrees with the data TB

`Coherent`: what the data TB and its shadow hold is unambiguous, and everything the page cache
holds is a superpage's translation or is backed by an entry they hold. It is kept in the runs
whose data insertions agree with the live ones they overlap (`NoConflict`), with `m_dpc_keep` on.
-/

namespace Alphabox.Cpu

open Function (update)

/-! ## Pages -/

theorem pageOf_and (va : BitVec 64) {m : BitVec 64} (h : ~~~0x1fff#64 &&& m = m) :
    pageOf va &&& m = va &&& m := by
  rw [pageOf, BitVec.and_assoc, h]

theorem and_pageOf (va m : BitVec 64) : pageOf (va &&& m) = pageOf va &&& m := by
  simp only [pageOf]
  rw [BitVec.and_assoc, BitVec.and_comm m, BitVec.and_assoc]

theorem or_pageOf (a b : BitVec 64) : pageOf (a ||| b) = pageOf a ||| pageOf b := by
  refine BitVec.eq_of_getLsbD_eq fun i _ => ?_
  simp only [BitVec.getLsbD_or, PageCache.pageOf_bit]
  cases decide (13 ≤ i) <;> rfl

theorem pageOf_eq_of_and {m : BitVec 64} (h : ~~~0x1fff#64 &&& m = m) : pageOf m = m := by
  rw [pageOf, BitVec.and_comm, h]

/-- The page and the offset make up the address. -/
theorem pageOf_or_offset (va : BitVec 64) : pageOf va ||| (va &&& 0x1fff#64) = va := by
  refine BitVec.eq_of_getLsbD_eq fun i hi => ?_
  have hm : ∀ i : Fin 64, (0x1fff#64).getLsbD i.val = decide (i.val < 13) := by decide
  rw [BitVec.getLsbD_or, PageCache.pageOf_bit, BitVec.getLsbD_and, hm ⟨i, hi⟩]
  by_cases h : 13 ≤ i
  · simp [h]
  · simp [h, not_le.mp h]

/-- Sign extension looks above the page. -/
theorem extended_pageOf (va : BitVec 64) {t o n : BitVec 64} (ht : ~~~0x1fff#64 &&& t = t)
    (ho : ~~~0x1fff#64 &&& o = o) (hn : 0x1fff#64 &&& n = 0x1fff#64) :
    ((if pageOf va &&& t ≠ 0 then pageOf va ||| o else pageOf va &&& n) = pageOf va) ↔
      ((if va &&& t ≠ 0 then va ||| o else va &&& n) = va) := by
  rw [pageOf_and va ht]
  split
  · constructor
    · intro h
      conv_rhs => rw [← pageOf_or_offset va, ← h]
      conv_lhs => rw [← pageOf_or_offset va]
      rw [BitVec.or_assoc, BitVec.or_comm (va &&& _), BitVec.or_assoc]
    · intro h
      conv_rhs => rw [← h]
      rw [or_pageOf, pageOf_eq_of_and ho]
  · constructor
    · intro h
      have hoff : va &&& 0x1fff#64 &&& n = va &&& 0x1fff#64 := by rw [BitVec.and_assoc, hn]
      calc va &&& n = (pageOf va ||| (va &&& 0x1fff#64)) &&& n := by rw [pageOf_or_offset]
        _ = va := by rw [BitVec.and_or_distrib_right, h, hoff, pageOf_or_offset]
    · intro h
      rw [← and_pageOf, h]

theorem alphaValidVaForm_pageOf (va : BitVec 64) (b : Bool) :
    AlphaCPU.alphaValidVaForm (pageOf va) b = AlphaCPU.alphaValidVaForm va b := by
  rw [Bool.eq_iff_iff]
  simp only [AlphaCPU.alphaValidVaForm, beq_iff_eq]
  cases b
  · exact extended_pageOf va (by decide) (by decide) (by decide)
  · exact extended_pageOf va (by decide) (by decide) (by decide)

theorem superpage_pageOf (spe : BitVec 3) (va : BitVec 64) :
    AlphaCPU.superpage spe (pageOf va) = (AlphaCPU.superpage spe va).map pageOf := by
  simp only [AlphaCPU.superpage]
  rw [pageOf_and va (m := 0x0000c00000000000#64) (by decide),
    pageOf_and va (m := 0x0000fe0000000000#64) (by decide),
    pageOf_and va (m := 0x0000ffffc0000000#64) (by decide),
    pageOf_and va (m := 0x0000010000000000#64) (by decide)]
  split
  · simp [and_pageOf]
  · split
    · simp only [Option.map_some, or_pageOf, and_pageOf]
      congr 2
      split <;> decide
    · split
      · simp [and_pageOf]
      · rfl

theorem superpage_offset {spe : BitVec 3} {va phys : BitVec 64}
    (h : AlphaCPU.superpage spe va = some phys) : phys &&& 0x1fff#64 = va &&& 0x1fff#64 := by
  have cut : ∀ m : BitVec 64, m &&& 0x1fff#64 = 0x1fff#64 →
      va &&& m &&& 0x1fff#64 = va &&& 0x1fff#64 := fun m hm => by rw [BitVec.and_assoc, hm]
  simp only [AlphaCPU.superpage] at h
  split at h
  · cases h
    exact cut _ (by decide)
  · split at h
    · cases h
      rw [BitVec.and_or_distrib_right, cut _ (by decide)]
      split <;> simp
    · split at h
      · cases h
        exact cut _ (by decide)
      · cases h

/-! ## Entries -/

section Entries

variable {e e' : STBEntry} {va : BitVec 64} {asn : Nat} {s : Slot}

theorem covers_iff : e.covers va = true ↔ e.virt &&& e.matchMask = va &&& e.matchMask := by
  rw [STBEntry.covers, beq_iff_eq, Lib.xor_and_eq_zero, Lib.and_eq_and]

theorem STBEntry.Wf.hits_pageOf (h : e.Wf) : e.hits (pageOf va) asn = e.hits va asn := by
  obtain ⟨g, hm, -⟩ := h
  have : e.covers (pageOf va) = e.covers va := by
    rw [Bool.eq_iff_iff, covers_iff, covers_iff, hm, pageOf_and va]
    clear hm
    revert g
    decide
  rw [STBEntry.hits, STBEntry.hits, this]

theorem overlaps_of_hits (h : e.hits va asn = true) (h' : e'.hits va asn = true) :
    e.overlaps e' := by
  obtain ⟨-, hc, ha⟩ := STBEntry.hits_iff.mp h
  obtain ⟨-, hc', ha'⟩ := STBEntry.hits_iff.mp h'
  refine ⟨Lib.xor_and_eq_zero.mpr fun i hi => ?_, ?_⟩
  · rw [BitVec.getLsbD_and, Bool.and_eq_true] at hi
    rw [Lib.and_eq_and.mp (covers_iff.mp hc) i hi.1, Lib.and_eq_and.mp (covers_iff.mp hc') i hi.2]
  · rcases ha with ha | ha
    · exact .inl ha
    · rcases ha' with ha' | ha'
      · exact .inr (.inl ha')
      · exact .inr (.inr (ha.trans ha'.symm))

theorem STBEntry.overlaps.symm (h : e.overlaps e') : e'.overlaps e := by
  refine ⟨?_, ?_⟩
  · rw [BitVec.xor_comm, BitVec.and_comm e'.matchMask]
    exact h.1
  · rcases h.2 with h | h | h
    · exact .inr (.inl h)
    · exact .inl h
    · exact .inr (.inr h.symm)

/-- Of an 8 KB entry the cached pages are those of its own page. -/
theorem same_of_hits (hm : e.matchMask = ghMatch 0) (h : e.hits s.virtPage asn = true) :
    s.same e.virt = true := by
  obtain ⟨-, hc, -⟩ := STBEntry.hits_iff.mp h
  rw [STBEntry.covers, hm, BitVec.xor_comm] at hc
  exact hc

/-- The pages an 8 KB entry translates are one. -/
theorem same_of_covers (hm : e.matchMask = ghMatch 0) (h : e.hits s.virtPage asn = true)
    (hc : e.virt &&& ghMatch 0 = va &&& ghMatch 0) : s.same va = true := by
  have hs := same_of_hits hm h
  rw [Slot.same, beq_iff_eq, Lib.xor_and_eq_zero, ← Lib.and_eq_and] at hs ⊢
  exact hs.trans hc

theorem STBEntry.Wf.page_of_bit13 (h : e.Wf) (hb : e.matchMask &&& 0x2000#64 ≠ 0) :
    e.matchMask = ghMatch 0 := by
  obtain ⟨g, hm, -⟩ := h
  rw [hm] at hb ⊢
  clear hm
  revert g
  decide

theorem STBEntry.Wf.phys_page (h : e.Wf) :
    pageOf (e.phys ||| (va &&& e.keepMask)) = e.phys ||| (pageOf va &&& e.keepMask) := by
  obtain ⟨g, -, -, -, hp⟩ := h
  have hg : ∀ g : Fin 4, ~~~0x1fff#64 &&& ghPhys g = ghPhys g := by decide
  have : pageOf e.phys = e.phys := by rw [← hp, and_pageOf, pageOf_and _ (hg g)]
  rw [or_pageOf, this, and_pageOf]

theorem STBEntry.Wf.phys_offset (h : e.Wf) :
    (e.phys ||| (pageOf va &&& e.keepMask)) ||| (va &&& 0x1fff#64) =
      e.phys ||| (va &&& e.keepMask) := by
  obtain ⟨g, -, hk, -⟩ := h
  have hg : ∀ g : Fin 4, 0x1fff#64 &&& ghKeep g = 0x1fff#64 := by decide
  have : va &&& e.keepMask = (pageOf va &&& e.keepMask) ||| (va &&& 0x1fff#64) := by
    conv_lhs => rw [← pageOf_or_offset va]
    rw [BitVec.and_or_distrib_right, BitVec.and_assoc, hk, hg g]
  rw [BitVec.or_assoc, ← this]

end Entries

/-! ## What the data TB and its shadow hold -/

namespace AlphaCPU

variable {c c' : AlphaCPU} {i : TbSlot} {virt va : BitVec 64} {asn : Nat} {rw : Bool} {e : STBEntry}
  {s : Slot} {log : List Event}

/-- A live entry of the data TB or of the shadow. -/
def Held (c : AlphaCPU) (e : STBEntry) : Prop :=
  e.valid = true ∧ ((∃ i, c.tb .dtb i = e) ∨ ∃ k, c.shadow k = e)

theorem Held.wf (h : TbInv c) (he : Held c e) : e.Wf := by
  obtain ⟨hv, ⟨i, rfl⟩ | ⟨k, rfl⟩⟩ := he
  · exact h.wf .dtb i hv
  · exact (h.shadow k hv).1

theorem Held.live (h : Prov (· = .dtb) c log) (he : Held c e) : Live .dtb e log := by
  obtain ⟨hv, ⟨i, rfl⟩ | ⟨k, rfl⟩⟩ := he
  · exact h.tb .dtb rfl i hv
  · exact h.shadow k hv

theorem Kept.held (h : Kept c c') (he : Held c' e) : Held c e := by
  obtain ⟨hv, ⟨i, rfl⟩ | ⟨k, rfl⟩⟩ := he
  · exact ⟨hv, .inl ⟨i, (h.tb .dtb i hv).symm⟩⟩
  · exact ⟨hv, .inr ⟨k, (h.shadow k hv).symm⟩⟩

/-- No two live entries of a TB overlap. -/
def SlotsApart (tb : TbSlot → STBEntry) : Prop :=
  ∀ i j, (tb i).valid = true → (tb j).valid = true → (tb i).overlaps (tb j) → i = j

theorem SlotsApart.update {tb : TbSlot → STBEntry} (h : SlotsApart tb)
    (he : ∀ j, j ≠ i → (tb j).valid = true → ¬e.overlaps (tb j)) :
    SlotsApart (update tb i e) := by
  intro j k hj hk ho
  by_cases hji : j = i <;> by_cases hki : k = i
  · rw [hji, hki]
  · subst hji
    rw [Function.update_of_ne hki] at hk ho
    rw [Function.update_self] at ho
    exact absurd ho (he k hki hk)
  · subst hki
    rw [Function.update_of_ne hji] at hj ho
    rw [Function.update_self] at ho
    exact absurd ho.symm (he j hji hj)
  · rw [Function.update_of_ne hji] at hj ho
    rw [Function.update_of_ne hki] at hk ho
    exact h j k hj hk ho

/-- Of the entries held no two overlap, but for the shadow's copy of one in the TB. -/
structure OneEach (c : AlphaCPU) : Prop where
  one : ∀ e e', Held c e → Held c e' → e.overlaps e' → e = e'
  slot : SlotsApart (c.tb .dtb)

theorem OneEach.kept (h : OneEach c) (hk : Kept c c') : OneEach c' := by
  refine ⟨fun e e' he he' => h.one e e' (hk.held he) (hk.held he'), fun i j hi hj ho => ?_⟩
  have ei := hk.tb .dtb i hi
  have ej := hk.tb .dtb j hj
  rw [ei] at hi ho
  rw [ej] at hj ho
  exact h.slot i j hi hj ho

/-- An entry that overlaps a new one of the same ASM bit and granularity matches its address. -/
theorem hits_of_overlaps {ptePhys pteFlags : BitVec 64} {x : STBEntry} (hv : x.valid = true)
    (ho : (STBEntry.ofPte virt ptePhys pteFlags asn).overlaps x)
    (ha : x.asmBit = (STBEntry.ofPte virt ptePhys pteFlags asn).asmBit)
    (hm : x.matchMask = (STBEntry.ofPte virt ptePhys pteFlags asn).matchMask) :
    x.hits virt asn = true := by
  refine STBEntry.hits_iff.mpr ⟨hv, covers_iff.mpr ?_, ?_⟩
  · have hx := Lib.and_eq_and.mpr (Lib.xor_and_eq_zero.mp ho.1)
    rw [← hm, BitVec.and_self] at hx
    rw [← hx, hm]
    simp only [STBEntry.ofPte, BitVec.and_assoc, BitVec.and_self]
  · rcases ho.2 with h | h | h
    · exact .inl (ha.trans h)
    · exact .inl h
    · exact .inr h.symm

section Insertion

variable {ptePhys pteFlags : BitVec 64} (h : OneEach c) (hi : TbInv c) (hp : Prov (· = .dtb) c log)
  (hn : NoConflict (.ins .dtb (.ofPte virt ptePhys pteFlags asn) :: log))

include h hp hn in
/-- A new entry takes the slot of the one it overlaps. -/
theorem not_overlaps_tb (hslot : c.scan .dtb virt asn = some i ∨ c.scan .dtb virt asn = none)
    {j : TbSlot} (hj : j ≠ i) (hv : (c.tb .dtb j).valid = true) :
    ¬(STBEntry.ofPte virt ptePhys pteFlags asn).overlaps (c.tb .dtb j) := by
  intro ho
  obtain ⟨ha, hm⟩ := hn.1 _ (hp.tb .dtb rfl j hv) ho
  have hjh := hits_of_overlaps hv ho ha hm
  rcases hslot with hs | hs
  · have hih := scan_some hs
    exact hj (h.slot j i hv (STBEntry.hits_iff.mp hih).1 (overlaps_of_hits hjh hih))
  · rw [scan_none hs j] at hjh
    cases hjh

include hi hp hn in
/-- It takes the place of the one it overlaps in the shadow. -/
theorem not_overlaps_shadow {k : BitVec 12}
    (hk : ghMatch (granularity pteFlags) = ghMatch 0 → k ≠ tbShadowIndex virt)
    (hv : (c.shadow k).valid = true) :
    ¬(STBEntry.ofPte virt ptePhys pteFlags asn).overlaps (c.shadow k) := by
  intro ho
  obtain ⟨ha, hm⟩ := hn.1 _ (hp.shadow k hv) ho
  obtain ⟨-, h0, -⟩ := hi.shadow k hv
  exact hk (hm.symm.trans h0) (hi.shadow_index (hits_of_overlaps hv ho ha hm))

include h hi hp hn

/-- What an insertion leaves: itself, and entries it does not overlap. -/
theorem held_addTb (rw : Bool) {x : STBEntry}
    (hx : Held (c.addTb virt ptePhys pteFlags .dtb rw asn) x) :
    x = .ofPte virt ptePhys pteFlags asn ∨
      Held c x ∧ ¬(STBEntry.ofPte virt ptePhys pteFlags asn).overlaps x := by
  obtain ⟨i, next, last, dpc, hslot, he, -⟩ := addTb_spec (hi.wf .dtb) virt ptePhys pteFlags rw asn
  rw [he] at hx
  obtain ⟨hv, ⟨j, hj⟩ | ⟨k, hk⟩⟩ := hx
  · simp only [Function.update_self, Function.update_apply] at hj
    split at hj
    · exact .inl hj.symm
    · rename_i hji
      subst hj
      exact .inr ⟨⟨hv, .inl ⟨j, rfl⟩⟩, not_overlaps_tb h hp hn hslot hji hv⟩
  · have old : c.shadow k = x → (ghMatch (granularity pteFlags) = ghMatch 0 →
        k ≠ tbShadowIndex virt) →
        Held c x ∧ ¬(STBEntry.ofPte virt ptePhys pteFlags asn).overlaps x := by
      rintro rfl hne
      exact ⟨⟨hv, .inr ⟨k, rfl⟩⟩, not_overlaps_shadow hi hp hn hne hv⟩
    dsimp only at hk
    split at hk
    · rw [Function.update_apply] at hk
      split at hk
      · exact .inl hk.symm
      · rename_i hne
        exact .inr (old hk fun _ => hne)
    · rename_i hm
      exact .inr (old hk fun h0 => absurd ⟨rfl, h0⟩ hm)

theorem oneEach_addTb (rw : Bool) : OneEach (c.addTb virt ptePhys pteFlags .dtb rw asn) := by
  refine ⟨fun x y hx hy ho => ?_, ?_⟩
  · rcases held_addTb h hi hp hn rw hx with rfl | ⟨hx, hxn⟩ <;>
      rcases held_addTb h hi hp hn rw hy with rfl | ⟨hy, hyn⟩
    · rfl
    · exact absurd ho hyn
    · exact absurd ho.symm hxn
    · exact h.one x y hx hy ho
  · obtain ⟨i, next, last, dpc, hslot, he, -⟩ :=
      addTb_spec (hi.wf .dtb) virt ptePhys pteFlags rw asn
    rw [he]
    dsimp only
    rw [Function.update_self]
    exact h.slot.update fun j hj hv => not_overlaps_tb h hp hn hslot hj hv

end Insertion

/-! ## A refill -/

/-- A refill holds nothing new. -/
theorem held_refill (hr : c.tbRefillFromShadow virt asn = some (i, c')) (hx : Held c' e) :
    Held c e := by
  obtain ⟨hs, -, dpc, rfl, -⟩ := tbRefillFromShadow_some hr
  obtain ⟨hv, ⟨j, hj⟩ | hk⟩ := hx
  · simp only [Function.update_self, Function.update_apply] at hj
    split at hj
    · exact ⟨hv, .inr ⟨_, hj⟩⟩
    · exact ⟨hv, .inl ⟨j, hj⟩⟩
  · exact ⟨hv, .inr hk⟩

theorem oneEach_refill (h : OneEach c) (hi : TbInv c) (hs : c.searchTb .dtb virt asn = none)
    (hr : c.tbRefillFromShadow virt asn = some (i, c')) : OneEach c' := by
  refine ⟨fun x y hx hy => h.one x y (held_refill hr hx) (held_refill hr hy), ?_⟩
  obtain ⟨hsh, -, dpc, rfl, -⟩ := tbRefillFromShadow_some hr
  have hh := (shadowHits_iff hi _ _).mp hsh
  have hsv := (STBEntry.hits_iff.mp hh).1
  dsimp only
  rw [Function.update_self]
  -- a slot that overlaps the refilled entry would be equal to it, and have been found
  refine h.slot.update fun j _ hj ho => ?_
  have heq := h.one _ _ ⟨hsv, .inr ⟨_, rfl⟩⟩ ⟨hj, .inl ⟨j, rfl⟩⟩ ho
  have hn := searchTb_none (hi.idx .dtb) hs j
  rw [← heq, hh] at hn
  cases hn

/-! ## What backs a page of the cache -/

/-- The entry gives the slot's translation. -/
structure Maps (e : STBEntry) (rw : Bool) (s : Slot) : Prop where
  hits : e.hits s.virtPage s.asn = true
  phys : e.phys ||| (s.virtPage &&& e.keepMask) = s.physBase
  access : e.access (if rw then 1 else 0) s.cm = true
  fault : e.fault (if rw then 1 else 0) = false

/-- The slot's translation is what `virt2phys` would find, without a miss. -/
structure Backed (c : AlphaCPU) (rw : Bool) (s : Slot) : Prop where
  form : alphaValidVaForm s.virtPage (c.vaCtlVaMode.getLsbD 0) = true
  super : ∀ phys, superpage c.mCtlSpe s.virtPage = some phys → phys = s.physBase ∧ s.cm = 0
  entry : superpage c.mCtlSpe s.virtPage = none → ∃ e, Held c e ∧ Maps e rw s

theorem Backed.mono (h : Backed c rw s) (hva : c'.vaCtlVaMode = c.vaCtlVaMode)
    (hspe : c'.mCtlSpe = c.mCtlSpe)
    (hh : ∀ e, Held c e → e.hits s.virtPage s.asn = true → Held c' e) : Backed c' rw s := by
  refine ⟨by rw [hva]; exact h.form, by rw [hspe]; exact h.super, fun hn => ?_⟩
  rw [hspe] at hn
  obtain ⟨e, he, hm⟩ := h.entry hn
  exact ⟨e, hh e he hm.hits, hm⟩

theorem stillMaps_held (h : c.dtbStillMaps e = true) :
    e.matchMask = ghMatch 0 ∧ ∃ x, Held c x ∧ sameAs e x = true := by
  have valid : ∀ {x}, sameAs e x = true → x.valid = true := fun hx => by
    simp only [sameAs, Bool.and_eq_true] at hx
    exact hx.1.1.1
  unfold dtbStillMaps at h
  split at h
  · cases h
  · rename_i hm
    refine ⟨by simpa using hm, ?_⟩
    simp only [Bool.or_eq_true, Bool.and_eq_true, List.any_eq_true] at h
    rcases h with (h | ⟨i, -, h⟩) | ⟨-, i, -, h⟩
    · exact ⟨_, ⟨valid h, .inr ⟨_, rfl⟩⟩, h⟩
    · exact ⟨_, ⟨valid h, .inl ⟨i, rfl⟩⟩, h⟩
    · exact ⟨_, ⟨valid h, .inl ⟨i, rfl⟩⟩, h⟩

theorem sameAs_spec {x : STBEntry} (h : sameAs e x = true) :
    x.virt = e.virt ∧ x.matchMask = ghMatch 0 ∧ x.overlaps e := by
  simp only [sameAs, Bool.and_eq_true, beq_iff_eq] at h
  obtain ⟨⟨⟨-, hm⟩, hv⟩, ha⟩ := h
  refine ⟨hv, hm, by simp [hv], ?_⟩
  split at ha
  · rename_i hx
    exact .inl hx
  · simp only [Bool.and_eq_true, beq_iff_eq] at ha
    exact .inr (.inr ha.2)

/-- The entry behind a page that stays in the cache is held still, though it was replaced. -/
theorem held_of_dropped (h : OneEach c) {p p' : PageCache} (hd : c'.Dropped e p p')
    (hk : c'.dpcKeep = true) (hp : p.Ok) (he : Held c e) (hw : e.Wf) (hs : p'.Holds rw s)
    (hh : e.hits s.virtPage s.asn = true)
    (hback : ∀ x, Held c' x → x.virt = e.virt → e.matchMask = ghMatch 0 → Held c x) :
    Held c' e := by
  rcases hd with rfl | ⟨rfl, hm⟩
  · obtain ⟨-, hb, hn⟩ := hp.holds_flushRange hs
    rw [same_of_hits (hw.page_of_bit13 hb) hh] at hn
    cases hn
  · obtain ⟨he0, x, hx, hsame⟩ := stillMaps_held (hm hk he.1)
    obtain ⟨hv, -, ho⟩ := sameAs_spec hsame
    have := h.one x e (hback x hx hv he0) he ho
    rwa [this] at hx

/-! ## Every operation keeps the page cache coherent -/

/-- The page cache agrees with the data TB and its shadow (module doc). -/
structure Coherent (c : AlphaCPU) : Prop where
  apart : OneEach c
  cached : ∀ rw s, c.dpc.Holds rw s → Backed c rw s
  keep : c.dpcKeep = true

theorem coherent_init : Coherent (init true) where
  apart :=
    { one := fun e e' he => by obtain ⟨hv, ⟨i, rfl⟩ | ⟨k, rfl⟩⟩ := he <;> cases hv
      slot := fun i j hi => nomatch hi }
  cached _ _ hs := absurd hs PageCache.not_holds_init
  keep := rfl

/-- The data side is as it was and the page cache holds nothing new. -/
theorem Coherent.of_same (h : Coherent c) (htb : c'.tb .dtb = c.tb .dtb)
    (hsh : c'.shadow = c.shadow) (hva : c'.vaCtlVaMode = c.vaCtlVaMode)
    (hspe : c'.mCtlSpe = c.mCtlSpe) (hk : c'.dpcKeep = c.dpcKeep)
    (hd : ∀ rw s, c'.dpc.Holds rw s → c.dpc.Holds rw s) : Coherent c' := by
  have held : ∀ e, Held c' e ↔ Held c e := fun e => by rw [Held, Held, htb, hsh]
  refine ⟨⟨fun e e' he he' => h.apart.one e e' ((held e).mp he) ((held e').mp he'), ?_⟩,
    fun rw s hs => ?_, hk.trans h.keep⟩
  · rw [htb]
    exact h.apart.slot
  · exact (h.cached rw s (hd rw s hs)).mono hva hspe fun e he _ => (held e).mpr he

/-- Entries went and the whole page cache with them. -/
theorem Coherent.of_flush (h : Coherent c) (hk : Kept c c') (hkeep : c'.dpcKeep = c.dpcKeep)
    (hd : ∀ rw s, ¬c'.dpc.Holds rw s) : Coherent c' :=
  ⟨h.apart.kept hk, fun rw s hs => absurd hs (hd rw s), hkeep.trans h.keep⟩

theorem Dropped.holds {p p' : PageCache} (hd : c.Dropped e p p') (hp : p.Ok)
    (hs : p'.Holds rw s) : p.Holds rw s := by
  rcases hd with rfl | ⟨rfl, -⟩
  · exact (hp.holds_flushRange hs).1
  · exact hs

theorem coherent_refill (h : Coherent c) (hi : TbInv c) (hs : c.searchTb .dtb virt asn = none)
    (hr : c.tbRefillFromShadow virt asn = some (i, c')) : Coherent c' := by
  have apart := oneEach_refill h.apart hi hs hr
  have back : ∀ x, Held c' x → Held c x := fun x => held_refill hr
  obtain ⟨-, -, dpc, hc', hd⟩ := tbRefillFromShadow_some hr
  have hkeep : c'.dpcKeep = true := by rw [hc']; exact h.keep
  refine ⟨apart, fun rw s hh => ?_, hkeep⟩
  have hh : dpc.Holds rw s := by rwa [hc'] at hh
  refine (h.cached rw s (hd.holds hi.dpc hh)).mono (by rw [hc']) (by rw [hc']) fun e he hhit => ?_
  have hw := he.wf hi
  obtain ⟨hv, ⟨j, hj⟩ | ⟨k, hk⟩⟩ := id he
  · by_cases hji : j = i
    · subst hji
      rw [hj] at hd
      exact held_of_dropped h.apart hd hkeep hi.dpc he hw hh hhit fun x hx _ _ => back x hx
    · refine ⟨hv, .inl ⟨j, ?_⟩⟩
      rw [hc']
      dsimp only
      rw [Function.update_self, Function.update_of_ne hji, hj]
  · refine ⟨hv, .inr ⟨k, ?_⟩⟩
    rw [hc']
    exact hk

theorem coherent_findTBEntry (h : Coherent c) (hi : TbInv c) (virt : BitVec 64) (t : Tb)
    (rw : Bool) : Coherent (c.findTBEntry virt t rw).2 := by
  rcases findTBEntry_cases c virt t rw with ⟨i, ix, he, -⟩ | ⟨-, -, hs, i, c', hr, he⟩ | ⟨he, -⟩
  · rw [he]
    exact h.of_same rfl rfl rfl rfl rfl fun _ _ => id
  · rw [he]
    exact (coherent_refill h hi hs hr).of_same rfl rfl rfl rfl rfl fun _ _ => id
  · rw [he]
    exact h

theorem coherent_addTb_dtb (h : Coherent c) (hi : TbInv c) (hp : Prov (· = .dtb) c log)
    {ptePhys pteFlags : BitVec 64}
    (hn : NoConflict (.ins .dtb (.ofPte virt ptePhys pteFlags asn) :: log)) :
    Coherent (c.addTb virt ptePhys pteFlags .dtb rw asn) := by
  have apart := oneEach_addTb h.apart hi hp hn rw
  have back := fun x => held_addTb h.apart hi hp hn rw (x := x)
  obtain ⟨i, next, last, dpc, -, he, -, hdtb⟩ :=
    addTb_spec (hi.wf .dtb) virt ptePhys pteFlags rw asn
  generalize c.addTb virt ptePhys pteFlags .dtb rw asn = c' at *
  obtain ⟨d1, d2, rfl, hd1, hd2⟩ := hdtb rfl
  have hkeep : c'.dpcKeep = true := by rw [he]; exact h.keep
  refine ⟨apart, fun rw s hh => ?_, hkeep⟩
  rw [he] at hh
  dsimp only at hh
  -- the slot is of no page of the new entry, and was there before
  have ok1 := hd1.ok hi.dpc
  obtain ⟨hs2, hb, hne⟩ := (hd2.ok ok1).holds_flushRange hh
  have hs1 := hd2.holds ok1 hs2
  have hm : ghMatch (granularity pteFlags) = ghMatch 0 :=
    (wf_ofPte virt ptePhys pteFlags asn).page_of_bit13 hb
  rw [if_pos hm] at hd2
  refine (h.cached rw s (hd1.holds hi.dpc hs1)).mono (by rw [he]) (by rw [he]) fun e he0 hhit => ?_
  have hw := he0.wf hi
  have back' : ∀ x, Held c' x → x.virt = e.virt → e.matchMask = ghMatch 0 → Held c x := by
    intro x hx hv hm0
    rcases back x hx with rfl | ⟨hx, -⟩
    · have : e.virt &&& ghMatch 0 = virt &&& ghMatch 0 := by
        rw [← hv, STBEntry.ofPte, hm, BitVec.and_assoc, BitVec.and_self]
      rw [same_of_covers hm0 hhit this] at hne
      cases hne
    · exact hx
  obtain ⟨hv, ⟨j, hj⟩ | ⟨k, hk⟩⟩ := id he0
  · by_cases hji : j = i
    · subst hji
      rw [hj] at hd1
      exact held_of_dropped h.apart hd1 hkeep hi.dpc he0 hw hs1 hhit back'
    · refine ⟨hv, .inl ⟨j, ?_⟩⟩
      rw [he]
      dsimp only
      rw [Function.update_self, Function.update_of_ne hji, hj]
  · by_cases hki : k = tbShadowIndex virt
    · subst hki
      rw [hk] at hd2
      exact held_of_dropped h.apart hd2 hkeep ok1 he0 hw hs2 hhit back'
    · refine ⟨hv, .inr ⟨k, ?_⟩⟩
      rw [he]
      dsimp only
      rw [if_pos ⟨rfl, hm⟩, Function.update_of_ne hki, hk]

theorem coherent_addTb_itb (h : Coherent c) (hi : TbInv c) (virt ptePhys pteFlags : BitVec 64)
    (rw : Bool) (asn : Nat) : Coherent (c.addTb virt ptePhys pteFlags .itb rw asn) := by
  obtain ⟨i, next, last, dpc, -, he, hitb, -⟩ :=
    addTb_spec (hi.wf .itb) virt ptePhys pteFlags rw asn
  rw [he]
  refine h.of_same ?_ ?_ rfl rfl rfl fun _ _ hs => ?_
  · dsimp only
    rw [Function.update_of_ne (by decide)]
  · dsimp only
    rw [if_neg (by simp)]
  · rw [hitb rfl] at hs
    exact hs

/-- `tbis_d` keeps the cache coherent if it was but for pages of the address. -/
theorem coherent_tbisD (hi : TbInv c) (h1 : OneEach c) (hkeep : c.dpcKeep = true)
    (hc : ∀ rw s, c.dpc.Holds rw s → s.same va = false → Backed c rw s) :
    Coherent (c.tbisD va asn) := by
  have hkept := kept_tbisD c va asn
  obtain ⟨ix, d, he, -, hd⟩ := tbisD_spec c va asn
  refine ⟨h1.kept hkept, fun rw s hs => ?_, by rw [he]; exact hkeep⟩
  rw [he] at hs
  dsimp only at hs
  obtain ⟨hok, hfl⟩ := hd hi.dpc
  obtain ⟨hsd, -, hne⟩ := hok.holds_flushRange hs
  obtain ⟨hs0, hgone⟩ := hfl rw s hsd
  refine (hc rw s hs0 hne).mono (by rw [he]) (by rw [he]) fun e he0 hhit => ?_
  have hw := he0.wf hi
  obtain ⟨hv, ⟨j, hj⟩ | ⟨k, hk⟩⟩ := id he0
  · refine ⟨hv, .inl ⟨j, ?_⟩⟩
    rw [he]
    dsimp only
    rw [Function.update_self, killed, hj]
    refine if_neg fun hkill => ?_
    obtain ⟨hb, hn⟩ := hgone rfl j (List.mem_finRange j) (by rw [hj]; exact hkill.2)
    rw [hj] at hb hn
    rw [same_of_hits (hw.page_of_bit13 hb) hhit] at hn
    cases hn
  · refine ⟨hv, .inr ⟨k, ?_⟩⟩
    rw [he]
    dsimp only
    by_cases hki : k = tbShadowIndex va
    · subst hki
      rw [Function.update_self, hk]
      refine if_neg fun hkill => ?_
      -- the shadow's 8 KB entry of the address translates this page alone
      have hm : e.matchMask = ghMatch 0 := by
        rw [← hk] at hv ⊢
        exact (hi.shadow _ hv).2.1
      have hva := (shadowHits_iff hi _ _).mp hkill
      rw [hk] at hva
      obtain ⟨-, hcv, -⟩ := STBEntry.hits_iff.mp hva
      rw [covers_iff, hm] at hcv
      rw [same_of_covers hm hhit hcv] at hne
      cases hne
    · rw [Function.update_of_ne hki, hk]

theorem coherent_tbis_dtb (h : Coherent c) (hi : TbInv c) (va : BitVec 64) :
    Coherent (c.tbis va .dtb) := by
  have hi1 := tbInv_tbisShadow hi va
  have hk1 := kept_tbisShadow c va
  have h2 : Coherent ((c.tbisShadow va).tbisD va c.asn0) := by
    refine coherent_tbisD hi1 (h.apart.kept hk1) ?_ fun rw s hs hne => ?_
    · obtain ⟨sh, he, -⟩ := tbisShadow_spec c va
      rw [he]
      exact h.keep
    · obtain ⟨sh, he, hsh⟩ := tbisShadow_spec c va
      rw [he] at hs ⊢
      refine (h.cached rw s hs).mono rfl rfl fun e he0 hhit => ?_
      obtain ⟨hv, hj | ⟨k, hk⟩⟩ := he0
      · exact ⟨hv, .inl hj⟩
      · refine ⟨hv, .inr ⟨k, ?_⟩⟩
        dsimp only
        by_cases hki : k = tbShadowIndex va
        · subst hki
          rw [Function.update_self]
          rcases hsh with rfl | ⟨-, hpage⟩
          · exact hk
          · rw [hk] at hpage
            have hm : e.matchMask = ghMatch 0 := by
              rw [← hk] at hv ⊢
              exact (hi.shadow _ hv).2.1
            rw [hm] at hpage
            have : e.virt &&& ghMatch 0 = va &&& ghMatch 0 := by
              rw [hpage, BitVec.and_assoc, BitVec.and_self]
            rw [same_of_covers hm hhit this] at hne
            cases hne
        · rw [Function.update_of_ne hki, hk]
  unfold tbis
  dsimp only
  split
  · exact coherent_tbisD (tbInv_tbisD hi1 va c.asn0) h2.apart h2.keep fun rw s hs _ =>
      h2.cached rw s hs
  · exact h2

theorem coherent_tbis_itb (h : Coherent c) (hi : TbInv c) (va : BitVec 64) :
    Coherent (c.tbis va .itb) := by
  rcases tbis_itb_cases hi va with ⟨i, ix, last, -, he⟩ | ⟨-, he⟩
  · rw [he]
    refine h.of_same ?_ rfl rfl rfl rfl fun _ _ => id
    dsimp only
    rw [Function.update_of_ne (by decide)]
  · rw [he]
    exact h

theorem coherent_tbia (h : Coherent c) (hi : TbInv c) (t : Tb) : Coherent (c.tbia t) := by
  have hk := kept_tbia c t
  obtain ⟨next, last, he⟩ := tbia_spec c t
  rw [he] at hk ⊢
  cases t with
  | dtb => exact h.of_flush hk rfl fun rw s hs => hi.dpc.not_holds_flush hs
  | itb =>
    refine h.of_same ?_ rfl rfl rfl rfl fun _ _ => id
    dsimp only
    rw [Function.update_of_ne (by decide)]

theorem coherent_tbiap (h : Coherent c) (hi : TbInv c) (t : Tb) : Coherent (c.tbiap t) := by
  have hk := kept_tbiap c t
  obtain ⟨ix, d, he, -, hd⟩ := tbiap_spec c t
  obtain ⟨hok, hfl⟩ := hd hi.dpc
  rw [he] at hk ⊢
  cases t with
  | dtb => exact h.of_flush hk rfl fun rw s hs => hok.not_holds_flush hs
  | itb =>
    refine h.of_same ?_ rfl rfl rfl rfl fun rw s hs => (hfl rw s hs).1
    dsimp only
    rw [Function.update_of_ne (by decide)]

/-! ## Translation -/

theorem findTBEntry_ctl (c : AlphaCPU) (virt : BitVec 64) (t : Tb) (rw : Bool) :
    (c.findTBEntry virt t rw).2.cm = c.cm ∧ (c.findTBEntry virt t rw).2.asn0 = c.asn0 ∧
      (c.findTBEntry virt t rw).2.mCtlSpe = c.mCtlSpe ∧
      (c.findTBEntry virt t rw).2.vaCtlVaMode = c.vaCtlVaMode := by
  rcases findTBEntry_cases c virt t rw with ⟨i, ix, he, -⟩ | ⟨-, -, -, i, c', hr, he⟩ | ⟨he, -⟩
  · rw [he]
    exact ⟨rfl, rfl, rfl, rfl⟩
  · obtain ⟨-, -, dpc, rfl, -⟩ := tbRefillFromShadow_some hr
    rw [he]
    exact ⟨rfl, rfl, rfl, rfl⟩
  · rw [he]
    exact ⟨rfl, rfl, rfl, rfl⟩

/-- The entry a lookup returns was held before it. -/
theorem findTBEntry_held (hi : TbInv c) (hf : c.findTBEntry virt .dtb rw = (some i, c')) :
    Held c (c'.tb .dtb i) := by
  have hv := (STBEntry.hits_iff.mp (findTBEntry_some hi hf)).1
  rcases findTBEntry_cases c virt .dtb rw with ⟨j, ix, he, -⟩ | ⟨-, -, -, j, c1, hr, he⟩ | ⟨he, -⟩
  · rw [he] at hf
    cases hf
    exact ⟨hv, .inl ⟨i, rfl⟩⟩
  · rw [he] at hf
    cases hf
    exact held_refill hr ⟨hv, .inl ⟨i, rfl⟩⟩
  · rw [he] at hf
    cases hf

/-- What grants a normal access. -/
theorem checkEntry_ok {cm : Fin 4} {phys : BitVec 64} :
    checkEntry e va { write := rw } cm = .ok phys ↔
      e.access (if rw then 1 else 0) cm = true ∧ e.fault (if rw then 1 else 0) = false ∧
        e.phys ||| (va &&& e.keepMask) = phys := by
  unfold checkEntry
  cases rw with
  | false => cases ha : e.access 0 cm <;> cases hf : e.fault 0 <;> simp [ha, hf]
  | true => cases ha : e.access 1 cm <;> cases hf : e.fault 1 <;> simp [ha, hf]

theorem coherent_virt2phys (h : Coherent c) (hi : TbInv c) (virt : BitVec 64) (f : Flags) :
    Coherent (c.virt2phys virt f).2 := by
  have hf := coherent_findTBEntry h hi virt f.tb f.write
  unfold virt2phys virt2physFast
  split
  · exact h
  · split
    · split <;> exact h
    · split
      all_goals
        rename_i he
        rwa [he] at hf

/-- `virt2phys` of a normal data access. -/
theorem virt2phys_data (c : AlphaCPU) (va : BitVec 64) (rw : Bool) :
    c.virt2phys va { write := rw } =
      if !alphaValidVaForm va (c.vaCtlVaMode.getLsbD 0) then (.acv, c)
      else
        match superpage c.mCtlSpe va with
        | some phys => if c.cm ≠ 0 then (.acv, c) else (.ok phys, c)
        | none =>
          match c.findTBEntry va .dtb rw with
          | (none, c) => (.miss, c)
          | (some i, c') => (checkEntry (c'.tb .dtb i) va { write := rw } c.cm, c') := rfl

/-- The translation a fill of the page cache takes is one that backs it. -/
theorem backed_fill (hi : TbInv c) {phys : BitVec 64}
    (hv : c.virt2phys va { write := rw } = (.ok phys, c'))
    (hs : PageCache.FilledFor va phys c'.cm c'.asn0 s) : Backed c' rw s := by
  obtain ⟨hvp, hpb, hcm, hasn⟩ := hs
  rw [virt2phys_data] at hv
  split at hv
  · cases hv
  · rename_i hform
    have hform : alphaValidVaForm (pageOf va) (c.vaCtlVaMode.getLsbD 0) = true := by
      rw [alphaValidVaForm_pageOf]
      simpa using hform
    split at hv
    · rename_i sp hsp
      split at hv
      · cases hv
      · rename_i hcm0
        cases hv
        have hpage : superpage c.mCtlSpe s.virtPage = some s.physBase := by
          rw [hvp, hpb, superpage_pageOf, hsp]
          rfl
        refine ⟨by rw [hvp]; exact hform, fun p hp => ?_, fun hn => ?_⟩
        · rw [hpage] at hp
          exact ⟨(Option.some.inj hp).symm, hcm.trans (not_not.mp hcm0)⟩
        · rw [hpage] at hn
          cases hn
    · rename_i hsp
      split at hv
      · cases hv
      · rename_i i c1 hf
        obtain ⟨hchk, rfl⟩ := Prod.mk.inj hv
        have hctl := findTBEntry_ctl c va .dtb rw
        have hhit : (c1.tb .dtb i).hits va c.asn0 = true := findTBEntry_some hi hf
        have hi1 := tbInv_findTBEntry hi va .dtb rw
        rw [hf] at hctl hi1
        obtain ⟨hcm1, hasn0, hspe, hva⟩ := hctl
        dsimp only at hcm1 hasn0 hspe hva
        obtain ⟨hacc, hflt, hphys⟩ := checkEntry_ok.mp hchk
        have hval := (STBEntry.hits_iff.mp hhit).1
        have hw := hi1.wf .dtb i hval
        have hnone : superpage c1.mCtlSpe s.virtPage = none := by
          rw [hspe, hvp, superpage_pageOf, hsp]
          rfl
        refine ⟨by rw [hva, hvp]; exact hform, fun p hp => ?_, fun _ => ?_⟩
        · rw [hnone] at hp
          cases hp
        · refine ⟨c1.tb .dtb i, ⟨hval, .inl ⟨i, rfl⟩⟩, ?_, ?_, ?_, hflt⟩
          · rw [hvp, hasn, hw.hits_pageOf, hasn0]
            exact hhit
          · rw [hvp, hpb, ← hphys, hw.phys_page]
          · rw [hcm, hcm1]
            exact hacc

theorem dpcProbe_spec {dpc : PageCache} (hp : c.dpcProbe va rw = some dpc) :
    (∀ rw' s, dpc.Holds rw' s → c.dpc.Holds rw' s) ∧
      dpc.Holds rw (dpc.l1 rw (dpcIndex va)) ∧
      (dpc.l1 rw (dpcIndex va)).answers (pageOf va) c.cm c.asn0 = true := by
  unfold dpcProbe at hp
  split at hp
  · rename_i ha
    cases hp
    exact ⟨fun _ _ => id, ⟨(PageCache.answers_iff.mp ha).1, .inl ⟨_, rfl⟩⟩, ha⟩
  · obtain ⟨ha, hg, hd⟩ := PageCache.promote_spec hp
    have hl : dpc.l1 rw (dpcIndex va) = c.dpc.l2 rw (dpc2Index (pageOf va)) := by
      rw [hd]
      simp
    rw [hl]
    exact ⟨fun _ _ => PageCache.holds_promote hp,
      ⟨(PageCache.answers_iff.mp ha).1, .inl ⟨_, hl⟩⟩, ha⟩

theorem coherent_dataPhysNt (h : Coherent c) (hi : TbInv c) (va : BitVec 64) (rw : Bool) :
    Coherent (c.dataPhysNt va rw).2 := by
  have hv := coherent_virt2phys h hi va { write := rw }
  unfold dataPhysNt
  split
  · rename_i dpc hp
    exact h.of_same rfl rfl rfl rfl rfl (dpcProbe_spec hp).1
  · split
    · rename_i phys c1 he
      rw [he] at hv
      refine ⟨⟨hv.apart.one, hv.apart.slot⟩, fun rw' s hs => ?_, hv.keep⟩
      rcases PageCache.holds_put hs with hold | ⟨hrw, hfill⟩
      · exact (hv.cached rw' s hold).mono rfl rfl fun _ he _ => he
      · subst hrw
        exact (backed_fill hi he hfill).mono rfl rfl fun _ he _ => he
    · exact hv

/-- A hit gives what `virt2phys` would, and that is no miss. -/
theorem dataPhysNt_hit (h : Coherent c) (hi : TbInv c) {dpc : PageCache}
    (hp : c.dpcProbe va rw = some dpc) :
    ∃ phys, (c.dataPhysNt va rw).1 = .ok phys ∧ (c.virt2phys va { write := rw }).1 = .ok phys := by
  obtain ⟨hsub, hheld, ha⟩ := dpcProbe_spec hp
  obtain ⟨-, hvp, hcm, hasn⟩ := PageCache.answers_iff.mp ha
  have hb := h.cached rw _ (hsub rw _ hheld)
  refine ⟨(dpc.l1 rw (dpcIndex va)).physBase ||| (va &&& 0x1fff#64), by rw [dataPhysNt, hp], ?_⟩
  generalize dpc.l1 rw (dpcIndex va) = s at *
  have hform := hb.form
  rw [hvp, alphaValidVaForm_pageOf] at hform
  rw [virt2phys_data, hform]
  simp only [Bool.not_true, Bool.false_eq_true, if_false]
  cases hsp : superpage c.mCtlSpe va with
  | some phys =>
    obtain ⟨hpb, hcm0⟩ := hb.super (pageOf phys) (by rw [hvp, superpage_pageOf, hsp]; rfl)
    rw [hcm] at hcm0
    rw [← hpb, ← superpage_offset hsp, pageOf_or_offset]
    simp [hcm0]
  | none =>
    obtain ⟨e, he, hm⟩ := hb.entry (by rw [hvp, superpage_pageOf, hsp]; rfl)
    have hw := he.wf hi
    have hhit := hm.hits
    rw [hvp, hasn, hw.hits_pageOf] at hhit
    -- the lookup finds an entry, and no other than this one matches
    cases hf : (c.findTBEntry va .dtb rw).1 with
    | none =>
      obtain ⟨htb, hsh⟩ := findTBEntry_none hi hf
      obtain ⟨-, ⟨j, rfl⟩ | ⟨k, rfl⟩⟩ := he
      · have := htb j
        rw [asnOf, hhit] at this
        cases this
      · have := hsh rfl
        rw [← hi.shadow_index hhit, hhit] at this
        cases this
    | some i =>
      have hpair : c.findTBEntry va .dtb rw = (some i, (c.findTBEntry va .dtb rw).2) :=
        Prod.ext hf rfl
      have hi' := findTBEntry_some hi hpair
      have heq := h.apart.one _ e (findTBEntry_held hi hpair) he (overlaps_of_hits hi' hhit)
      rw [hpair]
      dsimp only
      rw [heq]
      refine checkEntry_ok.mpr ⟨by rw [← hcm]; exact hm.access, hm.fault, ?_⟩
      rw [← hm.phys, hvp, hw.phys_offset]

end AlphaCPU

/-! ## Every run -/

theorem NoConflict.of_append {evs log : List Event} (h : NoConflict (evs ++ log)) :
    NoConflict log := by
  induction evs with
  | nil => exact h
  | cons ev evs ih =>
    refine ih ?_
    cases ev with
    | ins t e =>
      cases t with
      | dtb => exact h.2
      | itb => exact h
    | ia | iap | is => exact h

open AlphaCPU in
theorem coherent_exec {s : Traced} (h : Coherent s.cpu) (hi : s.cpu.TbInv)
    (hp : Prov (· = .dtb) s.cpu s.log) {op : Op} (hn : NoConflict (s.step op).log) :
    Coherent (s.step op).cpu := by
  have ctl : ∀ c' : AlphaCPU, c'.tb = s.cpu.tb → c'.shadow = s.cpu.shadow →
      c'.dpcKeep = s.cpu.dpcKeep → (c'.dpc = s.cpu.dpc.flush ∨ c'.dpc = s.cpu.dpc ∧
        c'.vaCtlVaMode = s.cpu.vaCtlVaMode ∧ c'.mCtlSpe = s.cpu.mCtlSpe) → Coherent c' := by
    intro c' htb hsh hk hd
    rcases hd with hd | ⟨hd, hva, hspe⟩
    · refine h.of_flush ⟨fun _ _ _ => by rw [htb], fun _ _ => by rw [hsh]⟩ hk fun rw sl hs => ?_
      rw [hd] at hs
      exact hi.dpc.not_holds_flush hs
    · exact h.of_same (by rw [htb]) hsh hva hspe hk fun rw sl hs => by rwa [hd] at hs
  cases op with
  | addTb virt ptePhys pteFlags t rw asn =>
    cases t with
    | dtb => exact coherent_addTb_dtb h hi hp hn
    | itb => exact coherent_addTb_itb h hi virt ptePhys pteFlags rw asn
  | tbia t => exact coherent_tbia h hi t
  | tbiap t => exact coherent_tbiap h hi t
  | tbis virt t =>
    cases t <;> simp only [Traced.step, Op.exec]
    case dtb => exact coherent_tbis_dtb h hi virt
    case itb => exact coherent_tbis_itb h hi virt
  | tbisD virt asn => exact coherent_tbisD hi h.apart h.keep fun rw sl hs _ => h.cached rw sl hs
  | findTBEntry virt t rw => exact coherent_findTBEntry h hi virt t rw
  | virt2phys virt f => exact coherent_virt2phys h hi virt f
  | dataPhysNt va rw => exact coherent_dataPhysNt h hi va rw
  | hwMtpr ipr value =>
    cases ipr <;> simp only [Traced.step, Op.exec, hwMtpr]
    case ITB_PTE => exact coherent_addTb_itb h hi _ _ _ _ _
    case DTB_PTE => exact coherent_addTb_dtb h hi hp hn
    case ITB_IAP => exact coherent_tbiap h hi _
    case DTB_IAP => exact coherent_tbiap h hi _
    case ITB_IA => exact coherent_tbia h hi _
    case DTB_IA => exact coherent_tbia h hi _
    case ITB_IS => exact coherent_tbis_itb h hi _
    case DTB_IS => exact coherent_tbisD hi h.apart h.keep fun rw sl hs _ => h.cached rw sl hs
    case VA_CTL =>
      refine coherent_tbia ?_ ?_ .dtb
      · exact ctl _ rfl rfl rfl (.inl rfl)
      · exact ⟨hi.idx, hi.wf, hi.shadow, hi.dpc.flush⟩
    case DTB_ASN port => cases port <;> exact ctl _ rfl rfl rfl (.inl rfl)
    case PCTX => exact ctl _ rfl rfl rfl (.inl rfl)
    case M_CTL => exact ctl _ rfl rfl rfl (.inl rfl)
    all_goals exact ctl _ rfl rfl rfl (.inr ⟨rfl, rfl, rfl⟩)

theorem Reachable.coherent {s : Traced} (h : Reachable (fun _ _ => True) true s)
    (hn : NoConflict s.log) : s.cpu.TbInv ∧ s.cpu.Coherent := by
  have inv : s.cpu.TbInv ∧ AlphaCPU.Prov (· = .dtb) s.cpu s.log ∧
      (NoConflict s.log → s.cpu.Coherent) := by
    refine Lib.Reach.inv (P := fun s : Traced => s.cpu.TbInv ∧
      AlphaCPU.Prov (· = .dtb) s.cpu s.log ∧ (NoConflict s.log → s.cpu.Coherent)) ?_ ?_ h
    · rintro _ rfl
      exact ⟨AlphaCPU.tbInv_init true, AlphaCPU.prov_init true, fun _ => AlphaCPU.coherent_init⟩
    · rintro s op ⟨hi, hp, hc⟩ -
      exact ⟨AlphaCPU.tbInv_exec hi op, prov_exec hp hi nofun,
        fun hn => coherent_exec (hc hn.of_append) hi hp hn⟩
  exact ⟨inv.1, inv.2.2 hn⟩

/-- **The page cache agrees with the data TB.** With `m_dpc_keep` on, in every run whose data
insertions agree in ASM bit and granularity with the live ones they overlap: a slot a lookup can
use is a superpage's translation in kernel mode, or some entry of the data TB or of its shadow
matches the page under the slot's ASN, maps it to exactly the slot's page and grants the access
without a fault; so a hit gives the translation `virt2phys` would give, which does not miss. -/
theorem pageCache_agrees {s : Traced} (h : Reachable (fun _ _ => True) true s)
    (hn : NoConflict s.log) :
    (∀ rw slot, s.cpu.dpc.Holds rw slot →
      (AlphaCPU.superpage s.cpu.mCtlSpe slot.virtPage = some slot.physBase ∧ slot.cm = 0) ∨
      ∃ e : STBEntry, ((∃ i, s.cpu.tb .dtb i = e) ∨ ∃ k, s.cpu.shadow k = e) ∧
        e.hits slot.virtPage slot.asn = true ∧
        e.phys ||| (slot.virtPage &&& e.keepMask) = slot.physBase ∧
        e.access (if rw then 1 else 0) slot.cm = true ∧ e.fault (if rw then 1 else 0) = false) ∧
    (∀ va rw, (s.cpu.dpcProbe va rw).isSome = true → ∃ phys,
      (s.cpu.dataPhysNt va rw).1 = .ok phys ∧ (s.cpu.virt2phys va { write := rw }).1 = .ok phys) := by
  obtain ⟨hi, hc⟩ := h.coherent hn
  refine ⟨fun rw slot hs => ?_, fun va rw hp => ?_⟩
  · have hb := hc.cached rw slot hs
    cases hsp : AlphaCPU.superpage s.cpu.mCtlSpe slot.virtPage with
    | some phys =>
      obtain ⟨rfl, hcm⟩ := hb.super phys hsp
      exact .inl ⟨rfl, hcm⟩
    | none =>
      obtain ⟨e, he, hm⟩ := hb.entry hsp
      exact .inr ⟨e, he.2, hm.hits, hm.phys, hm.access, hm.fault⟩
  · obtain ⟨dpc, hd⟩ := Option.isSome_iff_exists.mp hp
    exact AlphaCPU.dataPhysNt_hit hc hi hd

/-- A page inserted, read and read again. -/
def readTwice : List Op :=
  [.hwMtpr (.DTB_TAG false) 0x2000#64, .hwMtpr (.DTB_PTE false) 0x0000000200000100#64,
    .dataPhysNt 0x2008#64 false]

theorem pageCache_agrees_read :
    ((runOps true readTwice).cpu.dataPhysNt 0x2010#64 false).1 =
      ((runOps true readTwice).cpu.virt2phys 0x2010#64 {}).1 := by
  have hr : Reachable (fun _ _ => True) true (runOps true readTwice) :=
    reachable_runOps true _ fun _ _ _ => trivial
  have hn : NoConflict (runOps true readTwice).log := ⟨fun _ hl => hl.elim, trivial⟩
  obtain ⟨phys, h1, h2⟩ := (pageCache_agrees hr hn).2 0x2010#64 false (by decide +kernel)
  exact h1.trans h2.symm

end Alphabox.Cpu
