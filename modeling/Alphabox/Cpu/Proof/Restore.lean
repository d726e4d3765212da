import Alphabox.Cpu.Restore
import Alphabox.Cpu.Proof.Lookup

/-!
# A restore and the translations of before

After a restore the page cache is empty, and the TB index is exact where the build rebuilds it.
The shadow is neither saved nor dropped: a lookup that misses the restored TB refills from what
the processor held before. `restore_leaves_nothing_iff` says when it never does.
-/

namespace Alphabox.Cpu

open Function (update)

/-! ## The rebuilt index -/

/-- The entries of the slots `l` alone. -/
def restrictTo (l : List TbSlot) (tb : TbSlot → STBEntry) (i : TbSlot) : STBEntry :=
  if i ∈ l then tb i else STBEntry.zero

theorem restrictTo_concat (l : List TbSlot) (tb : TbSlot → STBEntry) (a : TbSlot) :
    restrictTo (l ++ [a]) tb = update (restrictTo l tb) a (tb a) := by
  funext i
  by_cases hi : i = a
  · subst hi
    simp [restrictTo]
  · simp [restrictTo, hi]

theorem IndexOk.update_invalid {tb : TbSlot → STBEntry} {ix : TbIndex} {i : TbSlot} {e : STBEntry}
    (h : IndexOk tb ix) (hv : (tb i).valid = false) (he : e.valid = false) :
    IndexOk (update tb i e) ix := by
  refine ⟨h.len, h.packed, fun j hj hm => ?_, ?_⟩
  · by_cases hji : j = i
    · subst hji
      simp [he] at hj
    · rw [Function.update_of_ne hji] at hj hm ⊢
      exact h.held j hj hm
  · rw [h.live, gh_update_of_not (by simp [liveGh, hv]) (by simp [liveGh, he])]

/-- A loop of `tb_idx_add` over the slots `l`, after those of `done`: what an entry's entering a
free slot keeps. -/
theorem foldl_add_inv {P : (TbSlot → STBEntry) → TbIndex → Prop}
    (hadd : ∀ {tb ix i e}, P tb ix → (tb i).valid = false → e.valid = true →
      P (update tb i e) (ix.add e i))
    (hskip : ∀ {tb ix i e}, P tb ix → (tb i).valid = false → e.valid = false → P (update tb i e) ix)
    (tb : TbSlot → STBEntry) (l done : List TbSlot) {ix : TbIndex}
    (hl : (done ++ l).Nodup) (h : P (restrictTo done tb) ix) :
    P (restrictTo (done ++ l) tb)
      (l.foldl (fun ix i => if (tb i).valid then ix.add (tb i) i else ix) ix) := by
  induction l generalizing done ix with
  | nil => simpa using h
  | cons a l ih =>
    have ha : a ∉ done := fun hm => by
      have := (List.nodup_append.mp hl).2.2 a hm a List.mem_cons_self
      exact this rfl
    have hfree : (restrictTo done tb a).valid = false := by simp [restrictTo, ha, STBEntry.zero]
    rw [List.append_cons] at hl ⊢
    refine ih (done ++ [a]) hl ?_
    rw [restrictTo_concat]
    dsimp only
    split
    · rename_i hv
      exact hadd h hfree hv
    · rename_i hv
      exact hskip h hfree (by simpa using hv)

theorem rebuild_inv {P : (TbSlot → STBEntry) → TbIndex → Prop}
    (hempty : ∀ {tb}, (∀ i, (tb i).valid = false) → P tb TbIndex.empty)
    (hadd : ∀ {tb ix i e}, P tb ix → (tb i).valid = false → e.valid = true →
      P (update tb i e) (ix.add e i))
    (hskip : ∀ {tb ix i e}, P tb ix → (tb i).valid = false → e.valid = false → P (update tb i e) ix)
    (tb : TbSlot → STBEntry) : P tb (TbIndex.rebuild tb) := by
  have h := foldl_add_inv (P := P) hadd hskip tb (List.finRange TB_ENTRIES) [] (List.nodup_finRange _)
    (hempty fun i => rfl)
  have heq : restrictTo ([] ++ List.finRange TB_ENTRIES) tb = tb := by
    funext i
    simp [restrictTo]
  rwa [heq] at h

theorem indexOk_rebuild (tb : TbSlot → STBEntry) : IndexOk tb (TbIndex.rebuild tb) :=
  rebuild_inv (P := IndexOk) indexOk_empty IndexOk.add IndexOk.update_invalid tb

/-! ## A restore -/

namespace AlphaCPU

variable {a b : AlphaCPU} {jit rw : Bool} {asn asn0 : Nat} {va : BitVec 64} {j : TbSlot}

/-- The processor `a` once the state of `b` is restored into it, under any ASNs. -/
def restored (jit : Bool) (a b : AlphaCPU) (asn asn0 : Nat) : AlphaCPU :=
  { a with
    toCpuState := { b.toCpuState with asn, asn0 }
    lastDtbVirt := fun _ => 0
    dpc := a.dpc.flush
    idx := if jit then fun t => TbIndex.rebuild (b.tb t) else a.idx }

theorem restoreState_saveState (jit : Bool) (size : Int) (a b : AlphaCPU) :
    restoreState jit size (b.saveState size) a = (.ok (), restored jit a b b.asn b.asn0) := by
  simp only [restoreState, saveState, ne_eq, not_true, if_false]
  cases jit <;> rfl

/-- After the restore no lookup of a page returns anything but an entry of the restored TB, under
any ASN, and the page cache is empty. -/
def LeavesNothing (jit : Bool) (size : Int) (a b : AlphaCPU) : Prop :=
  (∀ va t rw asn asn0 i,
    let c : AlphaCPU := { (restoreState jit size (b.saveState size) a).2 with asn, asn0 }
    (c.findTBEntry va t rw).1 = some i →
      ∃ j, (b.tb t j).valid = true ∧ (c.findTBEntry va t rw).2.tb t i = b.tb t j) ∧
  ∀ rw s, ¬(restoreState jit size (b.saveState size) a).2.dpc.Holds rw s

/-- The lookup comes by the restored entry of slot `j`: with the JIT always, without it through
the last match or through what `a` has for an index. -/
def Finds (jit : Bool) (a b : AlphaCPU) (rw : Bool) (va : BitVec 64) (j : TbSlot) : Prop :=
  jit = true ∨ j = b.lastFoundTb .dtb rw ∨ Reaches (a.idx .dtb) va j

theorem finds_of_hit (h : j = (restored jit a b asn asn0).lastFoundTb .dtb rw ∨
    Reaches ((restored jit a b asn asn0).idx .dtb) va j) : Finds jit a b rw va j := by
  cases jit with
  | true => exact .inl rfl
  | false => exact .inr h

/-- A lookup that goes to the shadow came by no match. -/
theorem not_hits_of_finds
    (hl : (b.tb .dtb (b.lastFoundTb .dtb rw)).hits va asn0 = false)
    (hs : (restored jit a b asn asn0).searchTb .dtb va asn0 = none)
    (hf : Finds jit a b rw va j) : (b.tb .dtb j).hits va asn0 = false := by
  cases jit with
  | true =>
    have hx : IndexOk ((restored true a b asn asn0).tb .dtb)
        ((restored true a b asn asn0).idx .dtb) := by
      simp only [restored, if_true]
      exact indexOk_rebuild (b.tb .dtb)
    exact searchTb_none hx hs j
  | false =>
    rcases hf with hf | rfl | hr
    · cases hf
    · exact hl
    · exact searchTb_none_iff.mp hs j hr

end AlphaCPU

open AlphaCPU in
/-- **A restore and what was held before it.** Saving `b` and restoring the file into a reachable
`s.cpu` leaves nothing of it just when, wherever its shadow holds a translation, the lookup finds
an entry of the restored data TB first or the shadow's entry is one of them. -/
theorem restore_leaves_nothing_iff {keep : Bool} {s : Traced}
    (h : Reachable (fun _ _ => True) keep s) (jit : Bool) (size : Int) (b : AlphaCPU) :
    LeavesNothing jit size s.cpu b ↔
      ∀ va asn rw, s.cpu.shadowHits va asn = true →
        (∃ j, (b.tb .dtb j).hits va asn = true ∧ Finds jit s.cpu b rw va j) ∨
        ∃ j, (b.tb .dtb j).valid = true ∧ b.tb .dtb j = s.cpu.shadow (tbShadowIndex va) := by
  have hi := h.tbInv
  generalize s.cpu = a at hi
  unfold LeavesNothing
  rw [restoreState_saveState]
  constructor
  · rintro ⟨hfind, -⟩ va asn rw hs
    have hf : ∀ i, ((restored jit a b 0 asn).findTBEntry va .dtb rw).1 = some i →
        ∃ j, (b.tb .dtb j).valid = true ∧
          ((restored jit a b 0 asn).findTBEntry va .dtb rw).2.tb .dtb i = b.tb .dtb j :=
      hfind va .dtb rw 0 asn
    rcases findTBEntry_cases (restored jit a b 0 asn) va .dtb rw with
      ⟨i, ix, he, hh, -, hr⟩ | ⟨-, -, -, i, c', hr, he⟩ | ⟨-, -, hn⟩
    · exact .inl ⟨i, hh, finds_of_hit hr⟩
    · -- the shadow answered, so its entry must be one of the restored ones
      rw [he] at hf
      obtain ⟨j, hv, hj⟩ := hf i rfl
      obtain ⟨-, -, dpc, rfl, -⟩ := tbRefillFromShadow_some hr
      refine .inr ⟨j, hv, ?_⟩
      simpa [setLastFound, restored] using hj.symm
    · have : a.shadowHits va asn = false := hn rfl
      rw [hs] at this
      cases this
  · intro hcond
    refine ⟨fun va t rw asn asn0 i => ?_, fun rw sl hs => ?_⟩
    · change ((restored jit a b asn asn0).findTBEntry va t rw).1 = some i →
        ∃ j, (b.tb t j).valid = true ∧
          ((restored jit a b asn asn0).findTBEntry va t rw).2.tb t i = b.tb t j
      rcases findTBEntry_cases (restored jit a b asn asn0) va t rw with
        ⟨i, ix, he, hh, -⟩ | ⟨rfl, hl, hs, i, c', hr, he⟩ | ⟨he, -⟩
      · rw [he]
        rintro ⟨⟩
        exact ⟨i, (STBEntry.hits_iff.mp hh).1, rfl⟩
      · rw [he]
        rintro ⟨⟩
        obtain ⟨hsh, -, dpc, rfl, -⟩ := tbRefillFromShadow_some hr
        rcases hcond va asn0 rw hsh with ⟨j, hj, hfind⟩ | ⟨j, hv, hj⟩
        · have hmiss : (b.tb .dtb j).hits va asn0 = false := not_hits_of_finds hl hs hfind
          rw [hmiss] at hj
          cases hj
        · refine ⟨j, hv, ?_⟩
          rw [hj]
          simp [setLastFound, restored]
      · rw [he]
        rintro ⟨⟩
    · exact hi.dpc.not_holds_flush hs

/-- A processor that has two data pages, the second at `pa`, and their shadow entries. -/
def twoPages (pa : BitVec 64) : List Op :=
  [.addTb 0x2000#64 0x4000#64 0x1100#64 .dtb false 3, .addTb 0x4000#64 pa 0x1100#64 .dtb false 3]

theorem twoPages_shadow (pa : BitVec 64) : (runOps true (twoPages pa)).cpu.shadow =
    update (update (fun _ => STBEntry.zero) 1#12 (.ofPte 0x2000#64 0x4000#64 0x1100#64 3)) 2#12
      (.ofPte 0x4000#64 pa 0x1100#64 3) := rfl

theorem tbIdxSet_eq (va : BitVec 64) : tbIdxSet va = (tbShadowIndex va).extractLsb' 0 11 := by
  unfold tbIdxSet tbShadowIndex
  ext i hi
  simp only [BitVec.getElem_extractLsb', BitVec.getLsbD_extractLsb']
  rw [decide_eq_true (show 0 + i < 12 by omega), Bool.true_and, Nat.zero_add]

open AlphaCPU in
/-- The processor holds both pages in its TB and in its shadow, the second at another address than
the file: that one the lookup finds first, the other is the file's. -/
theorem restore_leaves_nothing_iff_moved :
    AlphaCPU.LeavesNothing true 0 (runOps true (twoPages 0x8000#64)).cpu
        (runOps true (twoPages 0xa000#64)).cpu ∧
      AlphaCPU.LeavesNothing false 0 (runOps true (twoPages 0x8000#64)).cpu
        (runOps true (twoPages 0xa000#64)).cpu := by
  have hr := @reachable_runOps (fun _ _ => True) true (twoPages 0x8000#64) fun _ _ _ => trivial
  have hcond (jit : Bool) (va : BitVec 64) (asn : Nat) (rw : Bool)
      (hs : (runOps true (twoPages 0x8000#64)).cpu.shadowHits va asn = true) :
      (∃ j, ((runOps true (twoPages 0xa000#64)).cpu.tb .dtb j).hits va asn = true ∧
        Finds jit (runOps true (twoPages 0x8000#64)).cpu (runOps true (twoPages 0xa000#64)).cpu
          rw va j) ∨
      ∃ j, ((runOps true (twoPages 0xa000#64)).cpu.tb .dtb j).valid = true ∧
        (runOps true (twoPages 0xa000#64)).cpu.tb .dtb j =
          (runOps true (twoPages 0x8000#64)).cpu.shadow (tbShadowIndex va) := by
    rw [shadowHits_iff hr.tbInv, twoPages_shadow] at hs
    rw [twoPages_shadow]
    by_cases h2 : tbShadowIndex va = 2#12
    · rw [h2, Function.update_self] at hs
      -- the lookup comes by slot 1, with no JIT through the index of before
      refine Or.inl ⟨1, hs, Or.inr (Or.inr (Or.inr (Or.inr ?_)))⟩
      rw [tbIdxSet_eq, h2]
      decide +kernel
    · rw [Function.update_of_ne h2] at hs ⊢
      by_cases h1 : tbShadowIndex va = 1#12
      · rw [h1, Function.update_self]
        exact Or.inr ⟨0, rfl, rfl⟩
      · rw [Function.update_of_ne h1] at hs
        cases hs
  exact ⟨(restore_leaves_nothing_iff hr true 0 _).mpr (hcond true),
    (restore_leaves_nothing_iff hr false 0 _).mpr (hcond false)⟩

/-- One page inserted into the data TB. -/
def onePage : AlphaCPU := (runOps true [.addTb 0x2000#64 0x4000#64 0x1100#64 .dtb false 3]).cpu

/-- The page inserted before a restore of an empty TB is found after it, in either build. -/
theorem restore_keeps_shadow :
    ¬AlphaCPU.LeavesNothing true 0 onePage (AlphaCPU.init true) ∧
      ¬AlphaCPU.LeavesNothing false 0 onePage (AlphaCPU.init true) := by
  refine ⟨fun h => ?_, fun h => ?_⟩
  all_goals
    obtain ⟨j, hv, -⟩ := h.1 0x2000#64 .dtb false 3 3 0 (by decide +kernel)
    cases hv

end Alphabox.Cpu
