import Alphabox.Jit.EmitA64

/-!
# Pins

No two slots share a guest register or a host register, so the register that `a64_regalloc` notes
for a guest register is the one its slot has, and no other has it.
-/

namespace Alphabox.Jit

/-- Slots with distinct registers on both sides. -/
def Distinct (l : List (Option GReg × XReg)) : Prop :=
  l.Pairwise fun a b => (a.1 = none ∨ a.1 ≠ b.1) ∧ a.2 ≠ b.2

variable {l : List (Option GReg × XReg)} {r r' : GReg} {p : XReg}

theorem Distinct.not_mem {a : Option GReg × XReg} (hl : Distinct (a :: l)) (ha : a.1 = some r)
    (p : XReg) : (some r, p) ∉ l := by
  intro hp
  rcases (List.rel_of_pairwise_cons hl hp).1 with hn | hne
  · rw [ha] at hn
    cases hn
  · exact hne ha

/-- The register noted last is the one in the list. -/
theorem lookup_iff (hl : Distinct l) (init : Option XReg) :
    l.foldl (fun p slot => if slot.1 = some r then some slot.2 else p) init = some p ↔
      (some r, p) ∈ l ∨ (∀ q, (some r, q) ∉ l) ∧ init = some p := by
  induction l generalizing init with
  | nil => simp
  | cons a l ih =>
    rw [List.foldl_cons, ih (List.Pairwise.of_cons hl)]
    by_cases ha : a.1 = some r
    · have hn := Distinct.not_mem hl ha
      rw [if_pos ha]
      constructor
      · rintro (hp | ⟨-, hp⟩)
        · exact absurd hp (hn p)
        · exact Or.inl (List.mem_cons.2 (Or.inl (Prod.ext ha.symm (Option.some.inj hp).symm)))
      · rintro (hp | ⟨hq, -⟩)
        · rcases List.mem_cons.1 hp with rfl | hp
          · exact Or.inr ⟨hn, rfl⟩
          · exact absurd hp (hn p)
        · have he : (some r, a.2) = a := Prod.ext ha.symm rfl
          exact absurd (List.mem_cons.2 (Or.inl he)) (hq a.2)
    · have hne (q : XReg) : (some r, q) ≠ a := fun e => ha (by rw [← e])
      rw [if_neg ha]
      simp only [List.mem_cons, hne, false_or]

namespace Pins

variable {pins : Pins}

theorem table_distinct (pins : Pins) : Distinct pins.table := by
  refine List.pairwise_iff_getElem.2 fun i j hi hj hij => ?_
  have hhosts : pinHosts.Pairwise (· ≠ ·) := by decide
  simp only [table, List.getElem_zip]
  exact ⟨List.pairwise_iff_getElem.1 pins.distinct _ _ _ _ hij,
    List.pairwise_iff_getElem.1 hhosts _ _ _ _ hij⟩

/-- `ra.host` is the slot that the register has. -/
theorem host_iff : pins.host r = some p ↔ (some r, p) ∈ pins.table := by
  unfold host
  rw [lookup_iff pins.table_distinct]
  simp

theorem mem (hp : pins.host r = some p) : p ∈ pinHosts :=
  (List.of_mem_zip (host_iff.1 hp)).2

theorem zero : pins.host 31 = none := by
  cases hp : pins.host 31 with
  | none => rfl
  | some p => exact absurd (List.of_mem_zip (host_iff.1 hp)).1 pins.no31

theorem inj (hr : pins.host r = some p) (hr' : pins.host r' = some p) : r = r' := by
  have hd := pins.table_distinct
  obtain ⟨i, hi, ei⟩ := List.mem_iff_getElem.1 (host_iff.1 hr)
  obtain ⟨j, hj, ej⟩ := List.mem_iff_getElem.1 (host_iff.1 hr')
  rcases Nat.lt_trichotomy i j with hij | hij | hij
  · have := (List.pairwise_iff_getElem.1 hd i j hi hj hij).2
    rw [ei, ej] at this
    exact absurd rfl this
  · subst hij
    exact Option.some.inj (congrArg Prod.fst (ei.symm.trans ej))
  · have := (List.pairwise_iff_getElem.1 hd j i hj hi hij).2
    rw [ei, ej] at this
    exact absurd rfl this

end Pins

end Alphabox.Jit
