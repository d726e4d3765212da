import Alphabox.Cpu.Proof.Index
import Alphabox.Cpu.Proof.Slots

/-!
# What each TB operation does

One lemma per operation: which entries of the TB, the index and the shadow it replaces, and what
it drops from the page cache. Later proofs cite these and do not unfold the operations.
-/

namespace Alphabox.Cpu

open Function (update)

namespace AlphaCPU

variable {c c' : AlphaCPU} {t : Tb} {i : TbSlot} {virt : BitVec 64} {asn : Nat} {rw : Bool}

/-! ## The page cache -/

/-- The cache `p'` after the entry `e` is replaced, `c` being the processor then: the page is
flushed, or (`m_dpc_keep`) the TB or its shadow still maps it. -/
def Dropped (c : AlphaCPU) (e : STBEntry) (p p' : PageCache) : Prop :=
  p' = p.flushRange c.dpcKeep e.virt e.matchMask ∨
    p' = p ∧ (c.dpcKeep = true → e.valid = true → c.dtbStillMaps e = true)

theorem dropUnmappedPage_spec (c : AlphaCPU) (e : STBEntry) :
    ∃ dpc, c.dropUnmappedPage e = { c with dpc } ∧ c.Dropped e c.dpc dpc := by
  unfold dropUnmappedPage
  split
  · exact ⟨_, rfl, .inl rfl⟩
  · rename_i h
    refine ⟨_, rfl, .inr ⟨rfl, fun _ hv => ?_⟩⟩
    simpa [hv] using h

/-! ## Lookup -/

theorem scan_some (h : c.scan t virt asn = some i) : (c.tb t i).hits virt asn = true :=
  List.find?_some (p := fun j => (c.tb t j).hits virt asn) h

theorem scan_none (h : c.scan t virt asn = none) (i : TbSlot) :
    (c.tb t i).hits virt asn = false := by
  have := List.find?_eq_none.mp h i (List.mem_finRange i)
  simpa using this

/-- A slot the search reaches: any while an entry with a granularity hint is live or its set is
marked, else those in the set's packed ways. -/
def Reaches (ix : TbIndex) (virt : BitVec 64) (i : TbSlot) : Prop :=
  ix.ghLive ≠ 0 ∨ ix.lost (tbIdxSet virt) = true ∨ i ∈ Lib.front (ix.ways (tbIdxSet virt))

/-- The search of the TB finds a live match, moving it to the front of its set at most. -/
theorem searchTb_some (h : c.searchTb t virt asn = some (i, c')) :
    (c.tb t i).hits virt asn = true ∧ Reaches (c.idx t) virt i ∧
      ∃ ix, c' = c.setIdx t ix ∧ (ix = c.idx t ∨
        (c.idx t).ghLive = 0 ∧ ix = (c.idx t).insert (c.tb t i).virt i) := by
  have same : c = c.setIdx t (c.idx t) := by simp [setIdx]
  unfold searchTb at h
  split at h
  · rename_i hg
    split at h
    · rename_i j hj
      cases h
      have := List.find?_some hj
      exact ⟨this, .inr (.inr (List.mem_of_find?_eq_some hj)), _, same, .inl rfl⟩
    · split at h
      · rename_i hl
        obtain ⟨j, hj, he⟩ := Option.map_eq_some_iff.mp h
        cases he
        exact ⟨scan_some hj, .inr (.inl hl), _, rfl, .inr ⟨hg, rfl⟩⟩
      · cases h
  · rename_i hg
    obtain ⟨j, hj, he⟩ := Option.map_eq_some_iff.mp h
    cases he
    exact ⟨scan_some hj, .inl hg, _, same, .inl rfl⟩

/-- The search misses just when no slot it reaches matches. -/
theorem searchTb_none_iff : c.searchTb t virt asn = none ↔
    ∀ i, Reaches (c.idx t) virt i → (c.tb t i).hits virt asn = false := by
  have scan_iff : c.scan t virt asn = none ↔ ∀ i, (c.tb t i).hits virt asn = false := by
    refine ⟨scan_none, fun hn => List.find?_eq_none.mpr fun i _ => ?_⟩
    simp [hn i]
  unfold searchTb Reaches
  by_cases hg : (c.idx t).ghLive = 0
  · simp only [hg, if_true, ne_eq, not_true, false_or]
    cases hf : (Lib.front ((c.idx t).ways (tbIdxSet virt))).find? fun i =>
        (c.tb t i).hits virt asn with
    | some i =>
      have hh := List.find?_some hf
      refine ⟨(fun hn => nomatch hn), fun hn => ?_⟩
      rw [hn i (.inr (List.mem_of_find?_eq_some hf))] at hh
      cases hh
    | none =>
      have hway := List.find?_eq_none.mp hf
      dsimp only
      split
      · rename_i hl
        simp [hl, scan_iff]
      · rename_i hl
        refine ⟨fun _ i hi => ?_, fun _ => rfl⟩
        simpa using hway i (hi.resolve_left hl)
  · simp [hg, scan_iff]

/-- With an exact index the search misses only what the TB does not hold. -/
theorem searchTb_none (hx : IndexOk (c.tb t) (c.idx t)) (h : c.searchTb t virt asn = none)
    (i : TbSlot) : (c.tb t i).hits virt asn = false := by
  by_contra hh
  have hh : (c.tb t i).hits virt asn = true := by simpa using hh
  obtain ⟨hv, hc, -⟩ := STBEntry.hits_iff.mp hh
  have hr : Reaches (c.idx t) virt i := by
    by_cases hg : (c.idx t).ghLive = 0
    · have h8 := hx.tbIdx8k_of_live hg hv
      rw [Reaches, ← tbIdxSet_of_covers h8 hc]
      rcases hx.held i hv h8 with hm | hl
      · exact .inr (.inr ((hx.packed _).mem_front.mpr hm))
      · exact .inr (.inl hl)
    · exact .inl hg
  rw [searchTb_none_iff.mp h i hr] at hh
  cases hh

/-- The shadow's slot for an address translates it: the test of `tb_refill_from_shadow`. -/
def shadowHits (c : AlphaCPU) (virt : BitVec 64) (asn : Nat) : Bool :=
  let sh := c.shadow (tbShadowIndex virt)
  sh.valid && sh.virt == virt &&& sh.matchMask && (sh.asmBit || sh.asn == asn)

theorem refill_test (sh : STBEntry) (virt : BitVec 64) (asn : Nat) :
    (!sh.valid || sh.virt != virt &&& sh.matchMask || !(sh.asmBit || sh.asn == asn)) =
      !(sh.valid && sh.virt == virt &&& sh.matchMask && (sh.asmBit || sh.asn == asn)) := by
  rw [Bool.not_and, Bool.not_and]
  rfl

/-- A refill copies the shadow's entry into the next slot; the page of the entry it replaces
leaves the page cache unless the TB or the shadow still maps it. -/
theorem tbRefillFromShadow_some (h : c.tbRefillFromShadow virt asn = some (i, c')) :
    c.shadowHits virt asn = true ∧ i = c.nextTb .dtb ∧ ∃ dpc,
      c' = { c with
        tb := update c.tb .dtb (update (c.tb .dtb) i (c.shadow (tbShadowIndex virt)))
        nextTb := update c.nextTb .dtb (i + 1)
        idx := update c.idx .dtb
          ((if (c.tb .dtb i).valid then (c.idx .dtb).drop (c.tb .dtb i) i else c.idx .dtb).add
            (c.shadow (tbShadowIndex virt)) i)
        dpc } ∧
      c'.Dropped (c.tb .dtb i) c.dpc dpc := by
  unfold tbRefillFromShadow at h
  dsimp only at h
  split at h
  · cases h
  · rename_i hs
    have hhit : c.shadowHits virt asn = true := by
      rw [refill_test, Bool.not_eq_true, Bool.not_eq_false'] at hs
      exact hs
    refine ⟨hhit, ?_⟩
    simp only [Option.some.injEq, Prod.mk.injEq] at h
    obtain ⟨hi, h⟩ := h
    refine ⟨hi.symm, ?_⟩
    subst hi
    cases hk : c.dpcKeep <;> cases hv : (c.tb .dtb (c.nextTb .dtb)).valid
    all_goals
      simp only [setNext, setEntry, tbIdxAdd, tbIdxDrop, setIdx, flushDataPageCacheRange, hk, hv,
        Bool.not_true, Bool.not_false, if_true, if_false, Bool.false_eq_true, Function.update_self,
        Function.update_idem] at h
    · subst h
      exact ⟨_, rfl, .inr ⟨rfl, fun hn => nomatch hn⟩⟩
    · subst h
      exact ⟨_, rfl, .inl rfl⟩
    -- with `m_dpc_keep` the victim's page stays where something still maps it
    all_goals
      obtain ⟨dpc, hd, hm⟩ := dropUnmappedPage_spec _ (c.tb .dtb (c.nextTb .dtb))
      rw [hd] at h
      subst h
      exact ⟨dpc, rfl, hm⟩

theorem tbRefillFromShadow_none (h : c.tbRefillFromShadow virt asn = none) :
    c.shadowHits virt asn = false := by
  unfold tbRefillFromShadow at h
  dsimp only at h
  split at h
  · rename_i hs
    rwa [refill_test, Bool.not_eq_true'] at hs
  · cases h

/-- The three outcomes of a lookup: a live match of the TB, a refill from the shadow, a miss. -/
theorem findTBEntry_cases (c : AlphaCPU) (virt : BitVec 64) (t : Tb) (rw : Bool) :
    (∃ i ix, c.findTBEntry virt t rw = (some i, (c.setIdx t ix).setLastFound t rw i) ∧
      (c.tb t i).hits virt (c.asnOf t) = true ∧
      (ix = c.idx t ∨ (c.idx t).ghLive = 0 ∧ ix = (c.idx t).insert (c.tb t i).virt i) ∧
      (i = c.lastFoundTb t rw ∨ Reaches (c.idx t) virt i)) ∨
    (t = .dtb ∧ (c.tb t (c.lastFoundTb t rw)).hits virt (c.asnOf t) = false ∧
      c.searchTb .dtb virt c.asn0 = none ∧ ∃ i c',
      c.tbRefillFromShadow virt c.asn0 = some (i, c') ∧
      c.findTBEntry virt t rw = (some i, c'.setLastFound .dtb rw i)) ∨
    (c.findTBEntry virt t rw = (none, c) ∧ c.searchTb t virt (c.asnOf t) = none ∧
      (t = .dtb → c.shadowHits virt c.asn0 = false)) := by
  unfold findTBEntry
  dsimp only
  split
  · rename_i hl
    refine .inl ⟨_, c.idx t, ?_, hl, .inl rfl, .inl rfl⟩
    simp [setIdx, setLastFound]
  · rename_i hl
    split
    · rename_i i c' hs
      obtain ⟨hh, hr, ix, rfl, hix⟩ := searchTb_some hs
      exact .inl ⟨i, ix, rfl, hh, hix, .inr hr⟩
    · rename_i hs
      cases t with
      | itb => exact .inr (.inr ⟨rfl, hs, fun hn => nomatch hn⟩)
      | dtb =>
        cases hr : c.tbRefillFromShadow virt c.asn0 with
        | none => exact .inr (.inr ⟨rfl, hs, fun _ => tbRefillFromShadow_none hr⟩)
        | some r => exact .inr (.inl ⟨rfl, by simpa using hl, hs, r.1, r.2, rfl, rfl⟩)

/-! ## Insertion -/

/-- The slot `add_tb` fills holds a match, or nothing matches. -/
theorem addSlot_spec (c : AlphaCPU) (t : Tb) (virt : BitVec 64) (asn : Nat) :
    ∃ next, c.addSlot t virt asn = ((c.addSlot t virt asn).1, { c with nextTb := next }) ∧
      (c.scan t virt asn = some (c.addSlot t virt asn).1 ∨ c.scan t virt asn = none) := by
  unfold addSlot
  split
  · rename_i i hi
    exact ⟨_, rfl, .inl hi⟩
  · rename_i hn
    exact ⟨_, rfl, .inr hn⟩

theorem addTbFill_eq (hw : (c.tb t i).valid = true → (c.tb t i).Wf) (e : STBEntry)
    (virt : BitVec 64) (rw : Bool) :
    c.addTbFill e virt t rw i = { c with
      tb := update c.tb t (update (c.tb t) i e)
      lastFoundTb := update c.lastFoundTb t (update (c.lastFoundTb t) rw i)
      idx := update c.idx t
        ((if (c.tb t i).valid then (c.idx t).drop (c.tb t i) i else c.idx t).add e i)
      shadow :=
        if t = .dtb ∧ e.matchMask = ghMatch 0 then update c.shadow (tbShadowIndex virt) e
        else c.shadow } := by
  have hdrop : (c.tb t i).valid = true →
      (if (c.tb t i).matchMask == ghMatch 0 then (c.idx t).remove (c.tb t i).virt i
        else { c.idx t with ghLive := (c.idx t).ghLive - 1 }) = (c.idx t).drop (c.tb t i) i := by
    intro hv
    unfold TbIndex.drop
    simp only [beq_iff_eq, (hw hv).tbIdx8k_iff]
  unfold addTbFill
  cases hv : (c.tb t i).valid with
  | false =>
    simp only [setEntry, setIdx, tbIdxAdd, setLastFound, setShadow, Function.update_self,
      hv, Bool.false_eq_true, if_false]
    split <;> rfl
  | true =>
    simp only [setEntry, setIdx, tbIdxAdd, setLastFound, setShadow, Function.update_self,
      Function.update_idem, hv, if_true, hdrop hv]
    split <;> rfl

theorem addTbFlush_spec (c : AlphaCPU) (oldEntry oldShadow : STBEntry) (virt matchMask : BitVec 64) :
    ∃ d1 d2, c.addTbFlush oldEntry oldShadow virt matchMask =
        { c with dpc := d2.flushRange c.dpcKeep virt matchMask } ∧
      c.Dropped oldEntry c.dpc d1 ∧ c.Dropped oldShadow d1 d2 := by
  unfold addTbFlush
  by_cases hk : c.dpcKeep = true
  · obtain ⟨d1, h1, hd1⟩ : ∃ d1, (if oldEntry.valid && !c.dpcKeep then
          c.flushDataPageCacheRange oldEntry.virt oldEntry.matchMask
        else if oldEntry.valid then c.dropUnmappedPage oldEntry else c) = { c with dpc := d1 } ∧
        c.Dropped oldEntry c.dpc d1 := by
      cases hv : oldEntry.valid
      · exact ⟨c.dpc, rfl, .inr ⟨rfl, by simp [hv]⟩⟩
      · simpa [hk] using dropUnmappedPage_spec c oldEntry
    obtain ⟨d2, h2, hd2⟩ := dropUnmappedPage_spec { c with dpc := d1 } oldShadow
    refine ⟨d1, d2, ?_, hd1, hd2⟩
    dsimp only
    rw [h1]
    dsimp only
    rw [if_pos hk, h2]
    rfl
  · cases hv : oldEntry.valid
    · refine ⟨c.dpc, c.dpc, ?_, .inr ⟨rfl, by simp [hk]⟩, .inr ⟨rfl, by simp [hk]⟩⟩
      simp [hk, flushDataPageCacheRange]
    · refine ⟨_, _, ?_, .inl rfl, .inr ⟨rfl, by simp [hk]⟩⟩
      simp [hk, flushDataPageCacheRange]

/-- `add_tb` puts the entry into its slot, into the index and, an 8 KB data translation, into the
shadow; from the page cache go the page of the entry it replaces and of what it pushes out of the
shadow, unless still mapped, and its own. -/
theorem addTb_spec (hw : ∀ i, (c.tb t i).valid = true → (c.tb t i).Wf)
    (virt ptePhys pteFlags : BitVec 64) (rw : Bool) (asn : Nat) :
    ∃ i next last dpc,
      (c.scan t virt asn = some i ∨ c.scan t virt asn = none) ∧
      c.addTb virt ptePhys pteFlags t rw asn = { c with
        tb := update c.tb t (update (c.tb t) i (.ofPte virt ptePhys pteFlags asn))
        nextTb := next
        lastFoundTb := last
        idx := update c.idx t
          ((if (c.tb t i).valid then (c.idx t).drop (c.tb t i) i else c.idx t).add
            (.ofPte virt ptePhys pteFlags asn) i)
        shadow :=
          if t = .dtb ∧ ghMatch (granularity pteFlags) = ghMatch 0 then
            update c.shadow (tbShadowIndex virt) (.ofPte virt ptePhys pteFlags asn)
          else c.shadow
        dpc } ∧
      (t = .itb → dpc = c.dpc) ∧
      (t = .dtb → ∃ d1 d2, dpc = d2.flushRange c.dpcKeep virt (ghMatch (granularity pteFlags)) ∧
        (c.addTb virt ptePhys pteFlags t rw asn).Dropped (c.tb t i) c.dpc d1 ∧
        (c.addTb virt ptePhys pteFlags t rw asn).Dropped
          (if ghMatch (granularity pteFlags) = ghMatch 0 then c.shadow (tbShadowIndex virt)
            else STBEntry.zero) d1 d2) := by
  obtain ⟨next, hs, hslot⟩ := addSlot_spec c t virt asn
  generalize (c.addSlot t virt asn).1 = i at hs hslot
  have hfill := addTbFill_eq (c := { c with nextTb := next }) (hw i)
    (STBEntry.ofPte virt ptePhys pteFlags asn) virt rw
  unfold addTb
  rw [hs]
  dsimp only
  rw [hfill]
  cases t with
  | itb => exact ⟨i, next, _, c.dpc, hslot, rfl, fun _ => rfl, fun hn => nomatch hn⟩
  | dtb =>
    dsimp only
    obtain ⟨d1, d2, he, hd1, hd2⟩ := addTbFlush_spec _ (c.tb .dtb i) _ _ _
    rw [he]
    exact ⟨i, next, _, _, hslot, rfl, (fun hn => nomatch hn), fun _ => ⟨d1, d2, rfl, hd1, hd2⟩⟩

/-! ## Invalidation -/

/-- What an invalidation loop leaves of a TB: the entries of the slots `l` that meet `p` are
invalid. -/
def killed (p : STBEntry → Bool) (l : List TbSlot) (tb : TbSlot → STBEntry) (j : TbSlot) :
    STBEntry :=
  if j ∈ l ∧ p (tb j) = true then (tb j).invalidate else tb j

theorem killed_update {p : STBEntry → Bool} {l : List TbSlot} {tb : TbSlot → STBEntry} {a : TbSlot}
    (ha : a ∉ l) :
    killed p l (update tb a (if p (tb a) = true then (tb a).invalidate else tb a)) =
      killed p (a :: l) tb := by
  funext j
  by_cases hj : j = a
  · subst hj
    simp [killed, ha]
  · simp [killed, hj]

/-- One turn of an invalidation loop: an entry that meets `p` goes and, with `fl`, its page. -/
def killIf (p : STBEntry → Bool) (fl : Bool) (t : Tb) (c : AlphaCPU) (i : TbSlot) : AlphaCPU :=
  if p (c.tb t i) then
    if fl then (c.killEntry t i).flushDataPageCacheRange (c.tb t i).virt (c.tb t i).matchMask
    else c.killEntry t i
  else c

/-- What an invalidation loop leaves in the page cache. -/
def Flushed (p : STBEntry → Bool) (fl : Bool) (l : List TbSlot) (tb : TbSlot → STBEntry)
    (d d' : PageCache) : Prop :=
  d.Ok → d'.Ok ∧ ∀ rw s, d'.Holds rw s → d.Holds rw s ∧ (fl = true → ∀ j ∈ l, p (tb j) = true →
    (tb j).matchMask &&& 0x2000#64 ≠ 0 ∧ s.same (tb j).virt = false)

theorem killIf_spec {p : STBEntry → Bool} (hp : ∀ e, p e = true → e.valid = true) (fl : Bool)
    (c : AlphaCPU) (i : TbSlot) :
    ∃ ix dpc, killIf p fl t c i = { c with
        tb := update c.tb t
          (update (c.tb t) i (if p (c.tb t i) = true then (c.tb t i).invalidate else c.tb t i))
        idx := update c.idx t ix
        dpc } ∧
      (IndexOk (c.tb t) (c.idx t) → IndexOk (update (c.tb t) i
        (if p (c.tb t i) = true then (c.tb t i).invalidate else c.tb t i)) ix) ∧
      (dpc = c.dpc ∧ (fl = true → p (c.tb t i) = false) ∨
        dpc = c.dpc.flushRange c.dpcKeep (c.tb t i).virt (c.tb t i).matchMask) := by
  unfold killIf
  cases h : p (c.tb t i) with
  | false => exact ⟨c.idx t, c.dpc, by simp, by simp, .inl ⟨rfl, fun _ => rfl⟩⟩
  | true =>
    have hi : IndexOk (c.tb t) (c.idx t) → IndexOk (update (c.tb t) i (c.tb t i).invalidate)
        ((c.idx t).drop (c.tb t i) i) := fun hx => hx.drop (hp _ h) rfl
    cases fl with
    | false =>
      refine ⟨_, c.dpc, ?_, hi, .inl ⟨rfl, fun hn => nomatch hn⟩⟩
      simp [killEntry, setEntry, tbIdxDrop, setIdx, STBEntry.invalidate, TbIndex.drop]
    | true =>
      refine ⟨_, _, ?_, hi, .inr rfl⟩
      simp [killEntry, setEntry, tbIdxDrop, setIdx, STBEntry.invalidate, TbIndex.drop,
        flushDataPageCacheRange]

/-- An invalidation loop. -/
theorem foldl_killIf {p : STBEntry → Bool} (hp : ∀ e, p e = true → e.valid = true) (fl : Bool)
    {l : List TbSlot} (hl : l.Nodup) (c : AlphaCPU) :
    ∃ ix dpc, l.foldl (killIf p fl t) c = { c with
        tb := update c.tb t (killed p l (c.tb t))
        idx := update c.idx t ix
        dpc } ∧
      (IndexOk (c.tb t) (c.idx t) → IndexOk (killed p l (c.tb t)) ix) ∧
      Flushed p fl l (c.tb t) c.dpc dpc := by
  induction l generalizing c with
  | nil =>
    have hk : killed p [] (c.tb t) = c.tb t := by
      funext j
      simp [killed]
    refine ⟨c.idx t, c.dpc, by simp [hk], by simp [hk], fun ho => ⟨ho, fun rw s hs => ⟨hs, ?_⟩⟩⟩
    simp
  | cons a l ih =>
    obtain ⟨ha, hl⟩ := List.nodup_cons.mp hl
    obtain ⟨ix1, d1, h1, hi1, hd1⟩ := killIf_spec (t := t) hp fl c a
    obtain ⟨ix, d, h, hi, hd⟩ := ih hl (killIf p fl t c a)
    rw [h1] at h hi hd
    simp only [Function.update_self, Function.update_idem, killed_update ha] at h hi hd
    refine ⟨ix, d, by rw [List.foldl_cons, h1, h], fun hx => hi (hi1 hx), fun ho => ?_⟩
    have first : d1.Ok ∧ ∀ rw s, d1.Holds rw s → c.dpc.Holds rw s ∧ (fl = true →
        p (c.tb t a) = true →
        (c.tb t a).matchMask &&& 0x2000#64 ≠ 0 ∧ s.same (c.tb t a).virt = false) := by
      rcases hd1 with ⟨rfl, hn⟩ | rfl
      · exact ⟨ho, fun rw s hs => ⟨hs, fun hf hpa => by simp [hn hf] at hpa⟩⟩
      · exact ⟨ho.flushRange, fun rw s hs =>
          ⟨(ho.holds_flushRange hs).1, fun _ _ => (ho.holds_flushRange hs).2⟩⟩
    obtain ⟨hok, hh⟩ := hd first.1
    refine ⟨hok, fun rw s hs => ?_⟩
    obtain ⟨hs1, hj⟩ := hh rw s hs
    obtain ⟨hs0, hja⟩ := first.2 rw s hs1
    refine ⟨hs0, fun hf j hm hpj => ?_⟩
    rcases List.mem_cons.mp hm with rfl | hm
    · exact hja hf hpj
    · have hne : j ≠ a := fun he => ha (he ▸ hm)
      have := hj hf j hm
      rw [Function.update_of_ne hne] at this
      exact this hpj

/-- `tbia`. -/
theorem tbia_spec (c : AlphaCPU) (t : Tb) : ∃ next last,
    c.tbia t = { c with
      tb := update c.tb t fun i => (c.tb t i).invalidate
      nextTb := next
      lastFoundTb := last
      idx := update c.idx t TbIndex.empty
      shadow := if t = .dtb then fun k => (c.shadow k).invalidate else c.shadow
      dpc := if t = .dtb then c.dpc.flush else c.dpc } := by
  cases t <;> exact ⟨_, _, rfl⟩

/-- `tbiap` invalidates the entries without ASM, of the shadow too on the data side. -/
theorem tbiap_spec (c : AlphaCPU) (t : Tb) : ∃ ix d,
    c.tbiap t = { c with
      tb := update c.tb t
        (killed (fun e => !e.asmBit && e.valid) (List.finRange TB_ENTRIES) (c.tb t))
      idx := update c.idx t ix
      shadow :=
        if t = .dtb then fun k =>
          if !(c.shadow k).asmBit then (c.shadow k).invalidate else c.shadow k
        else c.shadow
      dpc := if t = .dtb then d.flush else d } ∧
    (IndexOk (c.tb t) (c.idx t) → IndexOk
      (killed (fun e => !e.asmBit && e.valid) (List.finRange TB_ENTRIES) (c.tb t)) ix) ∧
    Flushed (fun e => !e.asmBit && e.valid) false (List.finRange TB_ENTRIES) (c.tb t) c.dpc d := by
  obtain ⟨ix, d, h, hi, hd⟩ := foldl_killIf (t := t) (p := fun e => !e.asmBit && e.valid)
    (fun e he => (Bool.and_eq_true_iff.mp he).2) false (List.nodup_finRange TB_ENTRIES) c
  refine ⟨ix, d, ?_, hi, hd⟩
  unfold tbiap
  dsimp only
  rw [show (List.finRange TB_ENTRIES).foldl (fun c i =>
    if !(c.tb t i).asmBit && (c.tb t i).valid then c.killEntry t i else c) c = _ from h]
  cases t <;> rfl

/-- `tbis_d` invalidates every entry that matches, in the shadow too, and drops its page. -/
theorem tbisD_spec (c : AlphaCPU) (virt : BitVec 64) (asn : Nat) : ∃ ix d,
    c.tbisD virt asn = { c with
      tb := update c.tb .dtb
        (killed (fun e => e.hits virt asn) (List.finRange TB_ENTRIES) (c.tb .dtb))
      idx := update c.idx .dtb ix
      shadow := update c.shadow (tbShadowIndex virt)
        (if c.shadowHits virt asn then (c.shadow (tbShadowIndex virt)).invalidate
          else c.shadow (tbShadowIndex virt))
      dpc := d.flushRange c.dpcKeep virt (0xfffffffffffff000#64 ||| 0x2000#64) } ∧
    (IndexOk (c.tb .dtb) (c.idx .dtb) → IndexOk
      (killed (fun e => e.hits virt asn) (List.finRange TB_ENTRIES) (c.tb .dtb)) ix) ∧
    Flushed (fun e => e.hits virt asn) true (List.finRange TB_ENTRIES) (c.tb .dtb) c.dpc d := by
  have hsh : (if c.shadowHits virt asn then
        c.setShadow (tbShadowIndex virt) (c.shadow (tbShadowIndex virt)).invalidate else c) =
      c.setShadow (tbShadowIndex virt)
        (if c.shadowHits virt asn then (c.shadow (tbShadowIndex virt)).invalidate
          else c.shadow (tbShadowIndex virt)) := by
    split
    · rfl
    · simp [setShadow]
  obtain ⟨ix, d, h, hi, hd⟩ := foldl_killIf (t := .dtb) (p := fun e => e.hits virt asn)
    (fun e he => (STBEntry.hits_iff.mp he).1) true (List.nodup_finRange TB_ENTRIES)
    (c.setShadow (tbShadowIndex virt)
      (if c.shadowHits virt asn then (c.shadow (tbShadowIndex virt)).invalidate
        else c.shadow (tbShadowIndex virt)))
  refine ⟨ix, d, ?_, hi, hd⟩
  have heq : c.tbisD virt asn = ((List.finRange TB_ENTRIES).foldl
      (killIf (fun e => e.hits virt asn) true .dtb)
      (if c.shadowHits virt asn then
        c.setShadow (tbShadowIndex virt) (c.shadow (tbShadowIndex virt)).invalidate
        else c)).flushDataPageCacheRange virt (0xfffffffffffff000#64 ||| 0x2000#64) := rfl
  rw [heq, hsh, h]
  rfl

end AlphaCPU

end Alphabox.Cpu
