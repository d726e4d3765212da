import Alphabox.Cpu.PageCache
import Alphabox.Lib.Bits
import Alphabox.Lib.Table

/-!
# What the data page cache holds

`PageCache.Holds p rw s`: a lookup in row `rw` can use slot `s`, from level 1 or from level 2
through a promotion. Each operation of the cache is described by what it holds afterwards.
-/

namespace Alphabox.Cpu

open Function (update)

namespace PageCache

variable {p p' : PageCache} {rw rw' : Bool} {s : Slot} {virt mask va phys : BitVec 64} {keep : Bool}
  {cm : Fin 4} {asn : Nat}

/-- A lookup in row `rw` can use the slot `s`: a valid slot of level 1, or of level 2 and of the
current generation. -/
def Holds (p : PageCache) (rw : Bool) (s : Slot) : Prop :=
  s.valid = true ∧ ((∃ i, p.l1 rw i = s) ∨ ∃ i, p.l2 rw i = s ∧ s.gen = p.gen)

/-- Valid slots are where their page is looked up, and none is of a later generation. -/
structure Ok (p : PageCache) : Prop where
  l1 : ∀ rw i, (p.l1 rw i).valid = true → dpcIndex (p.l1 rw i).virtPage = i
  l2 : ∀ rw i, (p.l2 rw i).valid = true → dpc2Index (p.l2 rw i).virtPage = i
  gens : ∀ rw i, (p.l2 rw i).valid = true → (p.l2 rw i).gen.toNat ≤ p.gen.toNat

theorem ok_init : Ok init where
  l1 _ _ h := nomatch h
  l2 _ _ h := nomatch h
  gens _ _ h := nomatch h

theorem not_holds_init : ¬Holds init rw s := by
  rintro ⟨hv, ⟨i, rfl⟩ | ⟨i, rfl, -⟩⟩ <;> cases hv

/-! ## Flushes -/

theorem gen_lt_next (h : p.gen + 1 ≠ 0) : p.gen.toNat < (p.gen + 1).toNat := by
  have := p.gen.isLt
  have hn : (p.gen + 1).toNat ≠ 0 := fun hz => h (BitVec.eq_of_toNat_eq hz)
  have hone : (1 : BitVec 32).toNat = 1 := rfl
  rw [BitVec.toNat_add, hone] at hn ⊢
  omega

theorem Ok.flush (h : Ok p) : Ok p.flush := by
  refine ⟨(fun rw i hv => nomatch hv), fun rw i hv => ?_, fun rw i hv => ?_⟩
  · simp only [PageCache.flush] at hv ⊢
    split at hv
    · cases hv
    · rename_i hg
      simp only [if_neg hg]
      exact h.l2 rw i hv
  · simp only [PageCache.flush] at hv ⊢
    split at hv
    · cases hv
    · rename_i hg
      simp only [if_neg hg]
      exact ((h.gens rw i hv).trans_lt (gen_lt_next hg)).le

/-- A flush leaves nothing. -/
theorem Ok.not_holds_flush (h : Ok p) : ¬Holds p.flush rw s := by
  rintro ⟨hv, ⟨i, rfl⟩ | ⟨i, rfl, hg⟩⟩
  · cases hv
  · simp only [PageCache.flush] at hv hg
    split at hv
    · cases hv
    · rename_i hn
      simp only [if_neg hn] at hg
      have hle := h.gens rw i hv
      rw [hg] at hle
      exact absurd (gen_lt_next hn) (not_lt.mpr hle)

theorem page_bit (i : Nat) :
    (0x0000ffffffffe000#64).getLsbD i = (decide (13 ≤ i) && decide (i < 48)) := by
  by_cases hi : i < 64
  · have : ∀ i : Fin 64, (0x0000ffffffffe000#64).getLsbD i.val =
        (decide (13 ≤ i.val) && decide (i.val < 48)) := by decide
    exact this ⟨i, hi⟩
  · rw [BitVec.getLsbD_of_ge _ _ (by omega)]
    simp
    omega

theorem extract_of_same (n : Nat) (hn : n ≤ 35) (h : s.same virt = true) :
    s.virtPage.extractLsb' 13 n = virt.extractLsb' 13 n := by
  have hbits := Lib.xor_and_eq_zero.mp (beq_iff_eq.mp h)
  refine BitVec.eq_of_getLsbD_eq fun i hi => ?_
  have := hbits (13 + i) (by rw [page_bit]; simp; omega)
  simp [hi, this]

theorem Ok.flushRange (h : Ok p) : Ok (p.flushRange keep virt mask) := by
  unfold PageCache.flushRange
  split
  · exact h.flush
  · refine ⟨fun rw i hv => ?_, fun rw i hv => ?_, fun rw i hv => ?_⟩ <;> dsimp only at hv ⊢
    · by_cases hi : i = dpcIndex virt
      · subst hi
        simp only [Function.update_self] at hv ⊢
        split at hv
        · cases hv
        · rename_i hk
          simp only [if_neg hk]
          exact h.l1 _ _ hv
      · simp only [Function.update_of_ne hi] at hv ⊢
        exact h.l1 _ _ hv
    all_goals
      by_cases hi : i = dpc2Index virt
      · subst hi
        simp only [Function.update_self] at hv ⊢
        split at hv
        · cases hv
        · rename_i hk
          simp only [if_neg hk]
          first | exact h.l2 _ _ hv | exact h.gens _ _ hv
      · simp only [Function.update_of_ne hi] at hv ⊢
        first | exact h.l2 _ _ hv | exact h.gens _ _ hv

theorem not_same_of_kept (h : ¬(!keep || s.same virt) = true) : s.same virt = false := by
  simp only [Bool.or_eq_true, not_or, Bool.not_eq_true] at h
  exact h.2

/-- After the flush of an entry's page the cache holds nothing new, and nothing of that page. -/
theorem Ok.holds_flushRange (h : Ok p) (hs : Holds (p.flushRange keep virt mask) rw s) :
    Holds p rw s ∧ mask &&& 0x2000#64 ≠ 0 ∧ s.same virt = false := by
  unfold PageCache.flushRange at hs
  split at hs
  · exact absurd hs h.not_holds_flush
  · rename_i hm
    obtain ⟨hv, ⟨i, hi⟩ | ⟨i, hi, hg⟩⟩ := hs
    · dsimp only at hi
      by_cases hx : i = dpcIndex virt
      · subst hx
        rw [Function.update_self] at hi
        split at hi
        · subst hi
          cases hv
        · rename_i hk
          subst hi
          exact ⟨⟨hv, .inl ⟨_, rfl⟩⟩, hm, not_same_of_kept hk⟩
      · rw [Function.update_of_ne hx] at hi
        subst hi
        refine ⟨⟨hv, .inl ⟨_, rfl⟩⟩, hm, ?_⟩
        by_contra hsame
        exact hx ((h.l1 rw i hv).symm.trans (extract_of_same 8 (by omega) (by simpa using hsame)))
    · dsimp only at hi hg
      by_cases hx : i = dpc2Index virt
      · subst hx
        rw [Function.update_self] at hi
        split at hi
        · subst hi
          cases hv
        · rename_i hk
          subst hi
          exact ⟨⟨hv, .inr ⟨_, rfl, hg⟩⟩, hm, not_same_of_kept hk⟩
      · rw [Function.update_of_ne hx] at hi
        subst hi
        refine ⟨⟨hv, .inr ⟨_, rfl, hg⟩⟩, hm, ?_⟩
        by_contra hsame
        exact hx ((h.l2 rw i hv).symm.trans (extract_of_same 14 (by omega) (by simpa using hsame)))

/-! ## Fills -/

/-- The slot is a translation of the page of `va` to the page of `phys`. -/
def FilledFor (va phys : BitVec 64) (cm : Fin 4) (asn : Nat) (s : Slot) : Prop :=
  s.virtPage = pageOf va ∧ s.physBase = pageOf phys ∧ s.cm = cm ∧ s.asn = asn

theorem pageOf_bit (va : BitVec 64) (i : Nat) :
    (pageOf va).getLsbD i = (decide (13 ≤ i) && va.getLsbD i) := by
  by_cases hi : i < 64
  · have hm : ∀ i : Fin 64, (~~~0x1fff#64).getLsbD i.val = decide (13 ≤ i.val) := by decide
    rw [pageOf, BitVec.getLsbD_and, hm ⟨i, hi⟩, Bool.and_comm]
  · simp [BitVec.getLsbD_of_ge, not_lt.mp hi]

theorem dpcIndex_pageOf : dpcIndex (pageOf va) = dpcIndex va := by
  refine BitVec.eq_of_getLsbD_eq fun i hi => ?_
  simp [dpcIndex, hi, pageOf_bit]

theorem Ok.put (h : Ok p) : Ok (p.put rw va phys cm asn) := by
  refine ⟨fun r i hv => ?_, fun r i hv => ?_, fun r i hv => ?_⟩ <;>
    simp only [PageCache.put, Slot.fill, Lib.update_row_apply] at hv ⊢ <;> split at hv
  · rename_i hi
    rw [if_pos hi, hi.2]
    exact dpcIndex_pageOf
  · rename_i hi
    rw [if_neg hi]
    exact h.l1 _ _ hv
  · rename_i hi
    rw [if_pos hi, hi.2]
  · rename_i hi
    rw [if_neg hi]
    exact h.l2 _ _ hv
  · rename_i hi
    rw [if_pos hi]
  · rename_i hi
    rw [if_neg hi]
    exact h.gens _ _ hv

theorem holds_put (hs : Holds (p.put rw va phys cm asn) rw' s) :
    Holds p rw' s ∨ rw' = rw ∧ FilledFor va phys cm asn s := by
  obtain ⟨hv, ⟨i, hi⟩ | ⟨i, hi, hg⟩⟩ := hs <;>
    simp only [PageCache.put, Lib.update_row_apply] at hi <;> split at hi
  · rename_i hr
    subst hi
    exact .inr ⟨hr.1, rfl, rfl, rfl, rfl⟩
  · exact .inl ⟨hv, .inl ⟨i, hi⟩⟩
  · rename_i hr
    subst hi
    exact .inr ⟨hr.1, rfl, rfl, rfl, rfl⟩
  · exact .inl ⟨hv, .inr ⟨i, hi, hg⟩⟩

theorem promote_spec {idx : BitVec 8} {vp : BitVec 64}
    (hp : p.promote rw idx vp cm asn = some p') :
    (p.l2 rw (dpc2Index vp)).answers vp cm asn = true ∧ (p.l2 rw (dpc2Index vp)).gen = p.gen ∧
      p' = { p with
        l1 := update p.l1 rw (update (p.l1 rw) idx (p.l2 rw (dpc2Index vp))) } := by
  unfold promote at hp
  dsimp only at hp
  split at hp
  · rename_i ha
    exact ⟨ha.1, ha.2, (Option.some.inj hp).symm⟩
  · cases hp

theorem answers_iff {vp : BitVec 64} : s.answers vp cm asn = true ↔
    s.valid = true ∧ s.virtPage = vp ∧ s.cm = cm ∧ s.asn = asn := by
  simp [Slot.answers, and_assoc]

theorem Ok.promote {idx : BitVec 8} {vp : BitVec 64} (h : Ok p) (hi : dpcIndex vp = idx)
    (hp : p.promote rw idx vp cm asn = some p') : Ok p' := by
  obtain ⟨ha, -, rfl⟩ := promote_spec hp
  obtain ⟨-, hvp, -⟩ := answers_iff.mp ha
  refine ⟨fun r i hv => ?_, h.l2, h.gens⟩
  simp only [Lib.update_row_apply] at hv ⊢
  split at hv
  · rename_i hr
    rw [if_pos hr, hvp, hi, hr.2]
  · rename_i hr
    rw [if_neg hr]
    exact h.l1 _ _ hv

/-- A promotion makes nothing usable that was not. -/
theorem holds_promote {idx : BitVec 8} {vp : BitVec 64} (hp : p.promote rw idx vp cm asn = some p')
    (hs : Holds p' rw' s) : Holds p rw' s := by
  obtain ⟨-, hgen, rfl⟩ := promote_spec hp
  obtain ⟨hv, ⟨i, hi⟩ | hl⟩ := hs
  · simp only [Lib.update_row_apply] at hi
    split at hi
    · rename_i hr
      obtain ⟨rfl, rfl⟩ := hr
      exact ⟨hv, .inr ⟨_, hi, by rw [← hi]; exact hgen⟩⟩
    · exact ⟨hv, .inl ⟨i, hi⟩⟩
  · exact ⟨hv, .inr hl⟩

end PageCache

end Alphabox.Cpu
