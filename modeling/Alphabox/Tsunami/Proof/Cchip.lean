import Alphabox.Lib.Bits
import Alphabox.Lib.Reach
import Alphabox.Tsunami.Cchip
import Mathlib.Tactic.IntervalCases

/-!
# The interrupt lines follow the Cchip's registers

`Inv`: each line of each processor is the value its registers give it. A loop over the processors
is read by `stopLines_irq`, `setIpis_irq` and `driveAll_irq`, the registers of a MISC write by
`miscRegister_low` and `miscRegister_abw`. The arbitration is `Arb`, over the values written.
-/

namespace Alphabox.Tsunami.Cchip

variable {cpuNum : Nat} {c : Cchip} {data : BitVec 64} {i l p : Nat}

/-! ## One line -/

@[simp] theorem irqH_regs (n : Nat) (v : Bool) : (c.irqH i n v).misc = c.misc ∧
    (c.irqH i n v).drir = c.drir ∧ (c.irqH i n v).dim = c.dim := ⟨rfl, rfl, rfl⟩

theorem irqH_irq (n : Nat) (v : Bool) :
    (c.irqH i n v).irq p l = if p = i ∧ l = n then v else c.irq p l := rfl

/-- One processor's bit of a field that starts at bit `k`. -/
theorem field_ne_zero {k : Nat} (hk : k + i < 64) :
    data &&& ((1#64 <<< k) <<< i) ≠ 0 ↔ data.getLsbD (k + i) = true := by
  rw [← BitVec.shiftLeft_add, Lib.and_ne_zero_iff]
  constructor
  · intro ⟨j, hj, hb⟩
    rw [← BitVec.twoPow_eq, BitVec.getLsbD_twoPow] at hb
    simp only [Bool.and_eq_true, decide_eq_true_eq] at hb
    rwa [hb.2]
  · intro h
    refine ⟨k + i, h, ?_⟩
    rw [← BitVec.twoPow_eq, BitVec.getLsbD_twoPow]
    simp [hk]

theorem ipi_field (h : i < 4) :
    data &&& (0x1000#64 <<< i) ≠ 0 ↔ data.getLsbD (12 + i) = true := by
  rw [← field_ne_zero (by omega), show (1#64 <<< 12) = 0x1000#64 by decide]

/-! ## The device lines -/

theorem low_mask (j : Nat) : (0x00ffffffffffffff : BitVec 64).getLsbD j = decide (j ≤ 55) := by
  by_cases hj : j < 64
  · exact (by decide : ∀ j : Fin 64,
      (0x00ffffffffffffff : BitVec 64).getLsbD j = decide (j.1 ≤ 55)) ⟨j, hj⟩
  · rw [BitVec.getLsbD_of_ge _ _ (by omega)]
    simpa using by omega

theorem high_mask (j : Nat) :
    (0xfc00000000000000 : BitVec 64).getLsbD j = decide (58 ≤ j ∧ j ≤ 63) := by
  by_cases hj : j < 64
  · exact (by decide : ∀ j : Fin 64,
      (0xfc00000000000000 : BitVec 64).getLsbD j = decide (58 ≤ j.1 ∧ j.1 ≤ 63)) ⟨j, hj⟩
  · rw [BitVec.getLsbD_of_ge _ _ (by omega)]
    simpa using by omega

theorem requested_low : c.drir &&& c.dim i &&& 0x00ffffffffffffff ≠ 0 ↔ c.Requested i 0 55 := by
  rw [Lib.and_ne_zero_iff, Requested]
  refine exists_congr fun j => ?_
  rw [low_mask, BitVec.getLsbD_and, Bool.and_eq_true, decide_eq_true_eq]
  constructor
  · intro ⟨⟨h1, h2⟩, h3⟩
    exact ⟨Nat.zero_le j, h3, h1, h2⟩
  · intro ⟨_, h3, h1, h2⟩
    exact ⟨⟨h1, h2⟩, h3⟩

theorem requested_high : c.drir &&& c.dim i &&& 0xfc00000000000000 ≠ 0 ↔ c.Requested i 58 63 := by
  rw [Lib.and_ne_zero_iff, Requested]
  refine exists_congr fun j => ?_
  rw [high_mask, BitVec.getLsbD_and, Bool.and_eq_true, decide_eq_true_eq]
  constructor
  · intro ⟨⟨h1, h2⟩, h3, h4⟩
    exact ⟨h3, h4, h1, h2⟩
  · intro ⟨h3, h4, h1, h2⟩
    exact ⟨⟨h1, h2⟩, h3, h4⟩

/-- `drive_lines` changes lines 0 and 1 of its processor only. -/
theorem driveLines_regs : (c.driveLines i).misc = c.misc ∧ (c.driveLines i).drir = c.drir ∧
    (c.driveLines i).dim = c.dim := by
  unfold driveLines
  split <;> dsimp only <;> split <;> exact ⟨rfl, rfl, rfl⟩

theorem driveLines_other (h : p ≠ i ∨ 2 ≤ l) : (c.driveLines i).irq p l = c.irq p l := by
  have h1 : ¬(p = i ∧ l = 1) := by omega
  have h0 : ¬(p = i ∧ l = 0) := by omega
  unfold driveLines
  split <;> dsimp only <;> split <;> simp [irqH_irq, h0, h1]

theorem driveLines_device : (c.driveLines i).irq i 1 = true ↔ c.Requested i 0 55 := by
  rw [← requested_low]
  unfold driveLines
  split <;> rename_i h <;> dsimp only <;> split <;> simpa [irqH_irq] using h

theorem driveLines_error : (c.driveLines i).irq i 0 = true ↔ c.Requested i 58 63 := by
  rw [← requested_high]
  unfold driveLines
  split <;> dsimp only <;> split <;> rename_i h <;> simpa [irqH_irq, irqH] using h

/-- All the processors' device lines driven. -/
theorem driveAll_regs (n : Nat) : ((List.range n).foldl driveLines c).misc = c.misc ∧
    ((List.range n).foldl driveLines c).drir = c.drir ∧
    ((List.range n).foldl driveLines c).dim = c.dim := by
  induction n with
  | zero => exact ⟨rfl, rfl, rfl⟩
  | succ n ih =>
    rw [List.range_succ, List.foldl_append]
    obtain ⟨h1, h2, h3⟩ := @driveLines_regs ((List.range n).foldl driveLines c) n
    exact ⟨h1.trans ih.1, h2.trans ih.2.1, h3.trans ih.2.2⟩

theorem driveAll_high (n : Nat) (h : 2 ≤ l) :
    ((List.range n).foldl driveLines c).irq p l = c.irq p l := by
  induction n with
  | zero => rfl
  | succ n ih =>
    rw [List.range_succ, List.foldl_append]
    exact (driveLines_other (.inr h)).trans ih

theorem driveAll_device {n : Nat} (h : i < n) :
    (((List.range n).foldl driveLines c).irq i 1 = true ↔ c.Requested i 0 55) ∧
    (((List.range n).foldl driveLines c).irq i 0 = true ↔ c.Requested i 58 63) := by
  induction n with
  | zero => omega
  | succ n ih =>
    rw [List.range_succ, List.foldl_append]
    obtain ⟨-, hr, hd⟩ := @driveAll_regs c n
    by_cases hi : i = n
    · subst hi
      simp only [List.foldl_cons, List.foldl_nil]
      rw [driveLines_device, driveLines_error]
      simp only [Requested, hr, hd, and_self]
    · simp only [List.foldl_cons, List.foldl_nil]
      rw [driveLines_other (.inl hi), driveLines_other (.inl hi)]
      exact ih (by omega)

/-! ## The loops of a MISC write -/

theorem stopLines_succ (k : BitVec 64) (m n : Nat) : stopLines (n + 1) c data k m =
    if data &&& (k <<< n) ≠ 0 then (stopLines n c data k m).irqH n m false
    else stopLines n c data k m := by
  simp only [stopLines, List.range_succ, List.foldl_append, List.foldl_cons, List.foldl_nil]

theorem setIpis_succ (n : Nat) : setIpis (n + 1) c data =
    if data &&& (0x1000#64 <<< n) ≠ 0 then
      { setIpis n c data with
        misc := (setIpis n c data).misc ||| (0x100#64 <<< n) }.irqH n 3 true
    else setIpis n c data := by
  simp only [setIpis, List.range_succ, List.foldl_append, List.foldl_cons, List.foldl_nil]

theorem stopLines_regs (k : BitVec 64) (l n : Nat) : (stopLines n c data k l).misc = c.misc ∧
    (stopLines n c data k l).drir = c.drir ∧ (stopLines n c data k l).dim = c.dim := by
  induction n with
  | zero => exact ⟨rfl, rfl, rfl⟩
  | succ n ih =>
    rw [stopLines_succ]
    split
    · exact ih
    · exact ih

theorem stopLines_irq {k m n : Nat} (hk : k + n ≤ 64) :
    (stopLines n c data (1#64 <<< k) m).irq p l =
      if p < n ∧ l = m ∧ data.getLsbD (k + p) = true then false else c.irq p l := by
  induction n with
  | zero => simp [stopLines]
  | succ n ih =>
    have ih := ih (by omega)
    simp only [stopLines_succ, field_ne_zero (by omega : k + n < 64)]
    by_cases hp : p = n
    · subst hp
      split
      · rename_i hb
        rw [irqH_irq, ih]
        simp [hb]
      · rename_i hb
        rw [ih]
        simp [hb]
    · have hlt : p < n + 1 ↔ p < n := by omega
      simp only [hlt, ← ih]
      split
      · rw [irqH_irq, if_neg (by simp [hp])]
      · rfl

theorem setIpis_frame (n : Nat) : (setIpis n c data).drir = c.drir ∧
    (setIpis n c data).dim = c.dim := by
  induction n with
  | zero => exact ⟨rfl, rfl⟩
  | succ n ih =>
    rw [setIpis_succ]
    split
    · exact ih
    · exact ih

theorem setIpis_irq {n : Nat} (hn : n ≤ 4) : (setIpis n c data).irq p l =
    if p < n ∧ l = 3 ∧ data.getLsbD (12 + p) = true then true else c.irq p l := by
  induction n with
  | zero => simp [setIpis]
  | succ n ih =>
    have ih := ih (by omega)
    simp only [setIpis_succ, ipi_field (by omega : n < 4)]
    by_cases hp : p = n
    · subst hp
      split
      · rename_i hb
        rw [irqH_irq]
        simp only [ih]
        simp [hb]
      · rename_i hb
        rw [ih]
        simp [hb]
    · have hlt : p < n + 1 ↔ p < n := by omega
      simp only [hlt, ← ih]
      split
      · rw [irqH_irq, if_neg (by simp [hp])]
      · rfl

theorem setIpis_misc {k n : Nat} (hn : n ≤ 4) : (setIpis n c data).misc.getLsbD k =
    (c.misc.getLsbD k || (decide (8 ≤ k ∧ k < 8 + n) && data.getLsbD (k + 4))) := by
  induction n with
  | zero =>
    have : ¬(8 ≤ k ∧ k < 8 + 0) := by omega
    simp [setIpis, this]
  | succ n ih =>
    have hbit : (0x100#64 <<< n).getLsbD k = decide (k = 8 + n) := by
      rw [show (0x100#64) = 1#64 <<< 8 by decide, ← BitVec.shiftLeft_add, ← BitVec.twoPow_eq,
        BitVec.getLsbD_twoPow]
      simp [show 8 + n < 64 by omega, eq_comm]
    have ih := ih (by omega)
    simp only [setIpis_succ, ipi_field (by omega : n < 4)]
    by_cases hk : k = 8 + n
    · subst hk
      have h12 : 8 + n + 4 = 12 + n := by omega
      split
      · rename_i hb
        simp only [irqH_regs, BitVec.getLsbD_or, hbit, h12, hb]
        simp
      · rename_i hb
        rw [ih, h12]
        simp [hb]
    · have hlt : 8 ≤ k ∧ k < 8 + (n + 1) ↔ 8 ≤ k ∧ k < 8 + n := by omega
      simp only [hlt, ← ih]
      split
      · simp [irqH_regs, BitVec.getLsbD_or, hbit, hk]
      · rfl

/-! ## The registers of a MISC write -/

/-- The interrupt bits are only cleared by the register part of a write. -/
theorem miscRegister_low {misc : BitVec 64} {k : Nat} (h4 : 4 ≤ k) (h12 : k < 12) :
    (miscRegister misc data).getLsbD k = (misc.getLsbD k && !data.getLsbD k) := by
  have m1 : (0x00000f0000f00000 : BitVec 64).getLsbD k = false := by interval_cases k <;> decide
  have m2 : (0x10000ff0 : BitVec 64).getLsbD k = true := by interval_cases k <;> decide
  have m3 : (0xff0000 : BitVec 64).getLsbD k = false := by interval_cases k <;> decide
  have m4 : (0xf0000 : BitVec 64).getLsbD k = false := by interval_cases k <;> decide
  have hk : k < 64 := by omega
  have acl : ∀ m : BitVec 64, (if data &&& 0x01000000 ≠ 0 then m &&& ~~~0xff0000 else m).getLsbD k =
      m.getLsbD k := by
    intro m
    split
    · rw [BitVec.getLsbD_and, BitVec.getLsbD_not, m3]
      simp [hk]
    · rfl
  have abw : ∀ m : BitVec 64, (if data &&& 0xf0000 ≠ 0 then
      if m &&& 0xf0000 = 0 then m ||| (data &&& 0xf0000) else m else m).getLsbD k =
      m.getLsbD k := by
    intro m
    split
    · split
      · rw [BitVec.getLsbD_or, BitVec.getLsbD_and, m4, Bool.and_false, Bool.or_false]
      · rfl
    · rfl
  unfold miscRegister
  dsimp only
  rw [abw, acl, BitVec.getLsbD_and, BitVec.getLsbD_or, BitVec.getLsbD_not]
  simp only [BitVec.getLsbD_and, m1, m2, hk]
  simp

theorem clears_iff {w : BitVec 64} : w &&& 0x01000000 ≠ 0 ↔ clears w = true := by
  have h : w &&& ((1#64 <<< 24) <<< 0) ≠ 0 ↔ w.getLsbD (24 + 0) = true := field_ne_zero (by omega)
  exact h

theorem abw_iff {w : BitVec 64} : w &&& 0xf0000 = 0 ↔ abw w = 0 := by
  constructor
  · intro h
    have := congrArg (·.extractLsb' 16 4) h
    simp only [BitVec.extractLsb'_and] at this
    rw [show (0xf0000 : BitVec 64).extractLsb' 16 4 = BitVec.allOnes 4 by decide,
      BitVec.and_allOnes] at this
    exact this
  · intro h
    by_contra hn
    obtain ⟨j, hj, hb⟩ := Lib.and_ne_zero_iff.1 hn
    have h16 : 16 ≤ j ∧ j < 20 := by
      by_contra hj'
      by_cases h64 : j < 64
      · have := (by decide : ∀ j : Fin 64, ¬(16 ≤ j.1 ∧ j.1 < 20) →
          (0xf0000 : BitVec 64).getLsbD j = false) ⟨j, h64⟩ hj'
        exact absurd (this.symm.trans hb) (by decide)
      · simp [BitVec.getLsbD_of_ge _ _ (Nat.not_lt.1 h64)] at hb
    have := congrArg (·.getLsbD (j - 16)) h
    simp only [abw, BitVec.getLsbD_extractLsb', show 16 + (j - 16) = j by omega, hj] at this
    simp [show j - 16 < 4 by omega] at this

/-- Arbitration: cleared first, then won where none holds it. -/
theorem miscRegister_abw {misc : BitVec 64} : abw (miscRegister misc data) =
    if (if clears data then 0 else abw misc) = 0 then abw data
    else if clears data then 0 else abw misc := by
  have abw_or : ∀ a b : BitVec 64, abw (a ||| b) = abw a ||| abw b := fun a b =>
    BitVec.extractLsb'_or
  have abw_and : ∀ a b : BitVec 64, abw (a &&& b) = abw a &&& abw b := fun a b =>
    BitVec.extractLsb'_and
  have hset : abw (misc ||| (data &&& 0x00000f0000f00000)) = abw misc := by
    rw [abw_or, abw_and, show abw 0x00000f0000f00000 = 0 by decide]
    simp
  have hclr : ∀ m : BitVec 64, abw (m &&& ~~~(data &&& 0x10000ff0)) = abw m := by
    intro m
    rw [abw_and, BitVec.not_and, abw_or, show abw (~~~0x10000ff0) = BitVec.allOnes 4 by decide,
      BitVec.or_allOnes, BitVec.and_allOnes]
  have hwon : ∀ m : BitVec 64, abw m = 0 → abw (m ||| (data &&& 0xf0000)) = abw data := by
    intro m hm
    rw [abw_or, abw_and, hm, show abw 0xf0000 = BitVec.allOnes 4 by decide, BitVec.and_allOnes]
    exact BitVec.zero_or
  have hacl : ∀ m : BitVec 64, abw (if data &&& 0x01000000 ≠ 0 then m &&& ~~~0xff0000 else m) =
      if clears data then 0 else abw m := by
    intro m
    simp only [clears_iff]
    split
    · rw [abw_and, show abw (~~~0xff0000) = 0 by decide]
      simp
    · rfl
  unfold miscRegister
  dsimp only
  generalize hm : (if data &&& 0x01000000 ≠ 0 then
    (misc ||| (data &&& 0x00000f0000f00000)) &&& ~~~(data &&& 0x10000ff0) &&& ~~~0xff0000
    else (misc ||| (data &&& 0x00000f0000f00000)) &&& ~~~(data &&& 0x10000ff0)) = m
  have hm' := congrArg abw hm
  rw [hacl, hclr, hset] at hm'
  rw [hm']
  by_cases hd : abw data = 0
  · rw [if_neg (by simpa using abw_iff.2 hd), hd]
    split
    · assumption
    · rfl
  · rw [if_pos (by simpa using fun h => hd (abw_iff.1 h))]
    simp only [abw_iff]
    split
    · rename_i h0
      exact hwon m h0
    · rfl

/-! ## A whole MISC write -/

/-- Without a bit of the field that guards a loop, no processor's bit of it is set. -/
theorem field_false {m : BitVec 64} {k : Nat} (hm : ∀ j < 4, m.getLsbD (k + j) = true)
    (h : ¬data &&& m ≠ 0) (hi : i < 4) : data.getLsbD (k + i) = false := by
  by_contra hd
  exact h (Lib.and_ne_zero_iff.2 ⟨k + i, by simpa using hd, hm i hi⟩)

section
variable (hn : cpuNum ≤ 4)
include hn

theorem stopLines_guarded {m f : BitVec 64} {l' : Nat} (k : Nat) (hk : k + 4 ≤ 64)
    (hf : f = 1#64 <<< k) (hm : ∀ j < 4, m.getLsbD (k + j) = true) :
    (if data &&& m ≠ 0 then stopLines cpuNum c data f l' else c).irq p l =
      if p < cpuNum ∧ l = l' ∧ data.getLsbD (k + p) = true then false else c.irq p l := by
  subst hf
  split
  · exact stopLines_irq (by omega)
  · rename_i h
    refine (if_neg ?_).symm
    intro ⟨hp, _, hd⟩
    simp [field_false hm h (by omega : p < 4)] at hd

theorem setIpis_guarded : (if data &&& 0xf000 ≠ 0 then setIpis cpuNum c data else c).irq p l =
    if p < cpuNum ∧ l = 3 ∧ data.getLsbD (12 + p) = true then true else c.irq p l := by
  split
  · exact setIpis_irq hn
  · rename_i h
    refine (if_neg ?_).symm
    intro ⟨hp, _, hd⟩
    simp [field_false (by decide : ∀ j < 4, (0xf000 : BitVec 64).getLsbD (12 + j) = true) h
      (by omega : p < 4)] at hd

/-- The lines of a MISC write: a set of an interprocessor interrupt comes after its clear. -/
theorem miscWrite_irq : (miscWrite cpuNum c data).irq p l =
    if p < cpuNum ∧ l = 3 ∧ data.getLsbD (12 + p) = true then true
    else if p < cpuNum ∧ l = 3 ∧ data.getLsbD (8 + p) = true then false
    else if p < cpuNum ∧ l = 2 ∧ data.getLsbD (4 + p) = true then false else c.irq p l := by
  unfold miscWrite
  dsimp only
  rw [setIpis_guarded hn]
  congr 1
  refine (stopLines_guarded hn 8 (by omega) (by decide) (by decide)).trans ?_
  congr 1
  exact stopLines_guarded hn 4 (by omega) (by decide) (by decide)

omit hn in
theorem miscWrite_frame : (miscWrite cpuNum c data).drir = c.drir ∧
    (miscWrite cpuNum c data).dim = c.dim := by
  have hs : ∀ (b : Prop) [Decidable b] (c' : Cchip) (k : BitVec 64) (l : Nat),
      (if b then stopLines cpuNum c' data k l else c').drir = c'.drir ∧
      (if b then stopLines cpuNum c' data k l else c').dim = c'.dim := by
    intro b _ c' k l
    split
    · exact (stopLines_regs k l cpuNum).2
    · exact ⟨rfl, rfl⟩
  have hi : ∀ (b : Prop) [Decidable b] (c' : Cchip),
      (if b then setIpis cpuNum c' data else c').drir = c'.drir ∧
      (if b then setIpis cpuNum c' data else c').dim = c'.dim := by
    intro b _ c'
    split
    · exact setIpis_frame cpuNum
    · exact ⟨rfl, rfl⟩
  unfold miscWrite
  dsimp only
  rw [(hi _ _).1, (hi _ _).2, (hs _ _ _ _).1, (hs _ _ _ _).2, (hs _ _ _ _).1, (hs _ _ _ _).2]
  exact ⟨rfl, rfl⟩

theorem miscWrite_misc (k : Nat) : (miscWrite cpuNum c data).misc.getLsbD k =
    ((miscRegister c.misc data).getLsbD k ||
      (decide (8 ≤ k ∧ k < 8 + cpuNum) && data.getLsbD (k + 4))) := by
  have hs : ∀ (b : Prop) [Decidable b] (c' : Cchip) (k : BitVec 64) (l : Nat),
      (if b then stopLines cpuNum c' data k l else c').misc = c'.misc := by
    intro b _ c' k l
    split
    · exact (stopLines_regs k l cpuNum).1
    · rfl
  have hi : ∀ c' : Cchip, (if data &&& 0xf000 ≠ 0 then setIpis cpuNum c' data else c').misc.getLsbD k
      = (c'.misc.getLsbD k || (decide (8 ≤ k ∧ k < 8 + cpuNum) && data.getLsbD (k + 4))) := by
    intro c'
    split
    · exact setIpis_misc hn
    · rename_i h
      by_cases hk : 8 ≤ k ∧ k < 8 + cpuNum
      · have := field_false (by decide : ∀ j < 4, (0xf000 : BitVec 64).getLsbD (12 + j) = true) h
          (by omega : k - 8 < 4)
        rw [show 12 + (k - 8) = k + 4 by omega] at this
        simp [this]
      · simp [hk]
  unfold miscWrite
  dsimp only
  rw [hi, hs, hs]

/-- The bits of the interrupts after a MISC write. -/
theorem miscWrite_ipi (hi : i < cpuNum) : (miscWrite cpuNum c data).misc.getLsbD (8 + i) =
    ((c.misc.getLsbD (8 + i) && !data.getLsbD (8 + i)) || data.getLsbD (12 + i)) := by
  rw [miscWrite_misc hn, miscRegister_low (by omega) (by omega), show 8 + i + 4 = 12 + i by omega]
  simp [hi]

theorem miscWrite_timer (hi : i < cpuNum) : (miscWrite cpuNum c data).misc.getLsbD (4 + i) =
    (c.misc.getLsbD (4 + i) && !data.getLsbD (4 + i)) := by
  rw [miscWrite_misc hn, miscRegister_low (by omega) (by omega)]
  simp [show ¬(8 ≤ 4 + i) by omega]

theorem miscWrite_abw : abw (miscWrite cpuNum c data).misc = abw (miscRegister c.misc data) := by
  refine BitVec.eq_of_getLsbD_eq fun j hj => ?_
  rw [abw, abw, BitVec.getLsbD_extractLsb', BitVec.getLsbD_extractLsb', miscWrite_misc hn]
  simp [show ¬(16 + j < 8 + cpuNum) by omega]

end

/-! ## The invariant -/

/-- Each line of each processor is the value its registers give it. -/
structure Inv (cpuNum : Nat) (c : Cchip) : Prop where
  ipi : ∀ i < cpuNum, c.irq i 3 = c.misc.getLsbD (8 + i)
  timer : ∀ i < cpuNum, c.irq i 2 = c.misc.getLsbD (4 + i)
  device : ∀ i < cpuNum, c.irq i 1 = true ↔ c.Requested i 0 55
  error : ∀ i < cpuNum, c.irq i 0 = true ↔ c.Requested i 58 63

theorem inv_powerOn (hn : cpuNum ≤ 4) (rev : BitVec 32) : Inv cpuNum (powerOnState rev) := by
  have hz : ∀ k < 32, (rev.setWidth 64 <<< 32).getLsbD k = false := by
    intro k hk
    simp [hk]
  refine ⟨?_, ?_, ?_, ?_⟩
  · intro i hi
    exact (hz (8 + i) (by omega)).symm
  · intro i hi
    exact (hz (4 + i) (by omega)).symm
  · intro i _
    simp [powerOnState, Requested]
  · intro i _
    simp [powerOnState, Requested]

namespace Inv

variable (h : Inv cpuNum c)
include h

theorem interrupt (number : Int) (assert : Bool) : Inv cpuNum (c.interrupt cpuNum number assert) := by
  have drive : ∀ c' : Cchip, c'.misc = c.misc → c'.irq = c.irq →
      Inv cpuNum ((List.range cpuNum).foldl driveLines c') := by
    intro c' hm hi
    obtain ⟨rm, rr, rd⟩ := @driveAll_regs c' cpuNum
    refine ⟨?_, ?_, ?_, ?_⟩
    · intro i hlt
      rw [driveAll_high cpuNum (by omega), rm, hm, hi, h.ipi i hlt]
    · intro i hlt
      rw [driveAll_high cpuNum (by omega), rm, hm, hi, h.timer i hlt]
    · intro i hlt
      rw [(driveAll_device hlt).1]
      simp only [Requested, rr, rd]
    · intro i hlt
      rw [(driveAll_device hlt).2]
      simp only [Requested, rr, rd]
  unfold Cchip.interrupt
  split
  · exact h
  · dsimp only
    split
    · exact drive _ rfl rfl
    · exact drive _ rfl rfl

theorem intervalTick (hn : cpuNum ≤ 4) {cpu : Nat} (hc : cpu < cpuNum) :
    Inv cpuNum (c.intervalTick cpuNum cpu) := by
  have hbits : ∀ i < cpuNum, (itintr cpuNum cpu).getLsbD (8 + i) = false ∧
      (itintr cpuNum cpu).getLsbD (4 + i) = decide (i = cpu) := by
    have := (by decide : ∀ n < 5, ∀ cpu < n, ∀ i < n, (itintr n cpu).getLsbD (8 + i) = false ∧
      (itintr n cpu).getLsbD (4 + i) = decide (i = cpu))
    exact this cpuNum (by omega) cpu hc
  unfold Cchip.intervalTick
  dsimp only
  generalize hc1 : ({ c with misc := c.misc ||| itintr cpuNum cpu } : Cchip) = c1
  have hmisc : c1.misc = c.misc ||| itintr cpuNum cpu := by rw [← hc1]
  have hreq : ∀ i low high, (c1.irqH cpu 2 true).Requested i low high ↔ c.Requested i low high := by
    rw [← hc1]
    exact fun _ _ _ => .rfl
  have hirq : c1.irq = c.irq := by rw [← hc1]
  obtain ⟨rm, rr, rd⟩ := @driveLines_regs (c1.irqH cpu 2 true) cpu
  have hreq' : ∀ i low high, ((c1.irqH cpu 2 true).driveLines cpu).Requested i low high ↔
      c.Requested i low high := by
    intro i low high
    rw [← hreq]
    simp only [Requested, rr, rd]
  refine ⟨?_, ?_, ?_, ?_⟩
  · intro i hi
    rw [driveLines_other (by omega), rm, irqH_irq, if_neg (by omega), (irqH_regs 2 true).1, hmisc, hirq,
      BitVec.getLsbD_or, (hbits i hi).1, Bool.or_false]
    exact h.ipi i hi
  · intro i hi
    rw [driveLines_other (by omega), rm, irqH_irq, (irqH_regs 2 true).1, hmisc, hirq, BitVec.getLsbD_or,
      (hbits i hi).2, h.timer i hi]
    by_cases hic : i = cpu
    · simp [hic]
    · simp [hic]
  · intro i hi
    rw [hreq']
    by_cases hic : i = cpu
    · rw [hic, driveLines_device, hreq]
    · rw [driveLines_other (by omega), irqH_irq, if_neg (by omega), hirq]
      exact h.device i hi
  · intro i hi
    rw [hreq']
    by_cases hic : i = cpu
    · rw [hic, driveLines_error, hreq]
    · rw [driveLines_other (by omega), irqH_irq, if_neg (by omega), hirq]
      exact h.error i hi

theorem miscWrite (hn : cpuNum ≤ 4) : Inv cpuNum (c.miscWrite cpuNum data) := by
  obtain ⟨rr, rd⟩ := @miscWrite_frame cpuNum c data
  refine ⟨?_, ?_, ?_, ?_⟩
  · intro i hi
    rw [miscWrite_irq hn, miscWrite_ipi hn hi, h.ipi i hi]
    by_cases hs : data.getLsbD (12 + i) = true
    · simp [hs, hi]
    · by_cases hk : data.getLsbD (8 + i) = true
      · simp [hs, hk, hi]
      · simp [hs, hk]
  · intro i hi
    rw [miscWrite_irq hn, miscWrite_timer hn hi, h.timer i hi]
    by_cases hs : data.getLsbD (4 + i) = true
    · simp [hs, hi]
    · simp [hs]
  · intro i hi
    rw [miscWrite_irq hn, if_neg (by omega), if_neg (by omega), if_neg (by omega), h.device i hi]
    simp only [Requested, rr, rd]
  · intro i hi
    rw [miscWrite_irq hn, if_neg (by omega), if_neg (by omega), if_neg (by omega), h.error i hi]
    simp only [Requested, rr, rd]

theorem dimWrite (n : Nat) : Inv cpuNum (c.dimWrite cpuNum n data) := by
  unfold Cchip.dimWrite
  dsimp only
  generalize hc1 : ({ c with dim := fun i => if i = n then data else c.dim i } : Cchip) = c1
  have hmisc : c1.misc = c.misc := by rw [← hc1]
  have hirq : c1.irq = c.irq := by rw [← hc1]
  have hreq : ∀ i ≠ n, ∀ low high, c1.Requested i low high ↔ c.Requested i low high := by
    intro i hi low high
    rw [← hc1]
    simp only [Requested, if_neg hi]
  split
  · obtain ⟨rm, rr, rd⟩ := @driveLines_regs c1 n
    have hreq' : ∀ i low high, (c1.driveLines n).Requested i low high ↔
        c1.Requested i low high := by
      intro i low high
      simp only [Requested, rr, rd]
    refine ⟨?_, ?_, ?_, ?_⟩
    · intro i hi
      rw [driveLines_other (by omega), rm, hmisc, hirq, h.ipi i hi]
    · intro i hi
      rw [driveLines_other (by omega), rm, hmisc, hirq, h.timer i hi]
    · intro i hi
      rw [hreq']
      by_cases hin : i = n
      · rw [hin, driveLines_device]
      · rw [driveLines_other (.inl hin), hreq i hin, hirq]
        exact h.device i hi
    · intro i hi
      rw [hreq']
      by_cases hin : i = n
      · rw [hin, driveLines_error]
      · rw [driveLines_other (.inl hin), hreq i hin, hirq]
        exact h.error i hi
  · refine ⟨?_, ?_, ?_, ?_⟩
    · intro i hi
      rw [hmisc, hirq, h.ipi i hi]
    · intro i hi
      rw [hmisc, hirq, h.timer i hi]
    · intro i hi
      rw [hreq i (by omega), hirq, h.device i hi]
    · intro i hi
      rw [hreq i (by omega), hirq, h.error i hi]

theorem step (hn : cpuNum ≤ 4) {op : CchipOp} (hop : op.Ok cpuNum) :
    Inv cpuNum (c.step cpuNum op) := by
  cases op with
  | interrupt number assert => exact h.interrupt number assert
  | tick cpu => exact h.intervalTick hn hop
  | csrWrite a data =>
    unfold Cchip.step Cchip.csrWrite
    dsimp only
    split
    · exact ⟨h.ipi, h.timer, h.device, h.error⟩
    · split
      · exact h.miscWrite hn
      · split
        · exact h.dimWrite (dimIndex a)
        · exact h

end Inv

/-! ## The arbitration -/

theorem sinceClear_append (ws : List (BitVec 64)) (w : BitVec 64) :
    sinceClear (ws ++ [w]) = if clears w then [w] else sinceClear ws ++ [w] := by
  induction ws with
  | nil => cases h : clears w <;> simp [sinceClear]
  | cons v ws ih =>
    rw [List.cons_append, sinceClear, sinceClear, List.any_append, ih]
    cases hw : clears w with
    | true => simp [hw]
    | false =>
      cases hv : ws.any clears with
      | true => simp
      | false => simp [hw]

theorem winner_singleton (w : BitVec 64) : winner [w] = abw w := by
  unfold winner
  by_cases hw : abw w = 0#4
  · rw [List.find?_cons_of_neg (by simpa using hw), List.find?_nil, hw]
    rfl
  · rw [List.find?_cons_of_pos (by simpa using hw)]

theorem winner_append (ws : List (BitVec 64)) (w : BitVec 64) :
    winner (ws ++ [w]) = if winner ws = 0 then abw w else winner ws := by
  rw [winner, winner, List.find?_append]
  cases hf : ws.find? (abw · ≠ 0) with
  | some v =>
    have := List.find?_some hf
    simp only [Option.some_or]
    rw [if_neg (by simpa using this)]
  | none =>
    rw [Option.none_or, if_pos rfl]
    exact winner_singleton w

/-- What the writes of MISC say of its ABW field. -/
def Arb (c : Cchip) (ws : List (BitVec 64)) : Prop := abw c.misc = winner (sinceClear ws)

theorem Arb.miscWrite {ws : List (BitVec 64)} (hn : cpuNum ≤ 4) (h : Arb c ws) :
    Arb (c.miscWrite cpuNum data) (ws ++ [data]) := by
  rw [Arb, miscWrite_abw hn, miscRegister_abw, sinceClear_append, h]
  cases hd : clears data with
  | true => simpa using (winner_singleton data).symm
  | false => simpa using (winner_append (sinceClear ws) data).symm

theorem tick_abw {cpu : Nat} (hn : cpuNum ≤ 4) (hc : cpu < cpuNum) :
    abw (c.intervalTick cpuNum cpu).misc = abw c.misc := by
  have hz : abw (itintr cpuNum cpu) = 0 :=
    (by decide : ∀ n < 5, ∀ cpu < n, abw (itintr n cpu) = 0) cpuNum (by omega) cpu hc
  unfold intervalTick
  dsimp only
  rw [driveLines_regs.1, (irqH_regs 2 true).1, abw, BitVec.extractLsb'_or]
  rw [abw] at hz
  rw [hz]
  exact BitVec.or_zero

theorem Arb.step {ws : List (BitVec 64)} {op : CchipOp} (hn : cpuNum ≤ 4) (hop : op.Ok cpuNum)
    (h : Arb c ws) : Arb (c.step cpuNum op) (ws ++ miscWrites [op]) := by
  cases op with
  | interrupt number assert =>
    have hm : (c.interrupt cpuNum number assert).misc = c.misc := by
      unfold interrupt
      split
      · rfl
      · dsimp only
        rw [(driveAll_regs cpuNum).1]
        split <;> rfl
    rw [Arb, Cchip.step, hm]
    exact h.trans (by simp [miscWrites])
  | tick cpu =>
    rw [Arb, Cchip.step, tick_abw hn hop]
    exact h.trans (by simp [miscWrites])
  | csrWrite a data =>
    by_cases ha : a = 0x080
    · subst ha
      exact h.miscWrite hn
    · have hm : (c.csrWrite cpuNum a data).misc = c.misc := by
        unfold csrWrite
        rw [if_neg ha]
        split
        · rfl
        · split
          · unfold dimWrite
            dsimp only
            split
            · exact driveLines_regs.1
            · rfl
          · rfl
      have hw : miscWrites [.csrWrite a data] = [] := by
        rw [miscWrites, List.filterMap_cons_none (by simpa using ha), List.filterMap_nil]
      rw [Arb, Cchip.step, hm, hw, List.append_nil]
      exact h

/-! ## Runs -/

theorem run (hn : cpuNum ≤ 4) {ws : List (BitVec 64)} {ops : List CchipOp} (hi : Inv cpuNum c)
    (ha : Arb c ws) (hok : ∀ op ∈ ops, op.Ok cpuNum) :
    Inv cpuNum (ops.foldl (step cpuNum) c) ∧
    Arb (ops.foldl (step cpuNum) c) (ws ++ miscWrites ops) := by
  induction ops generalizing c ws with
  | nil => exact ⟨hi, by simpa [miscWrites] using ha⟩
  | cons op ops ih =>
    have hop := hok op List.mem_cons_self
    obtain ⟨h1, h2⟩ := ih (hi.step hn hop) (ha.step hn hop)
      fun o ho => hok o (List.mem_cons_of_mem op ho)
    refine ⟨h1, ?_⟩
    have hcat : miscWrites (op :: ops) = miscWrites [op] ++ miscWrites ops := by
      unfold miscWrites
      rw [← List.filterMap_append, List.singleton_append]
    rwa [hcat, ← List.append_assoc]

/-- Writes without a clear leave a held arbitration as it is. -/
theorem winner_kept {ws vs : List (BitVec 64)} (h : winner (sinceClear ws) ≠ 0)
    (hv : ∀ v ∈ vs, clears v = false) : winner (sinceClear (ws ++ vs)) = winner (sinceClear ws) := by
  induction vs generalizing ws with
  | nil => rw [List.append_nil]
  | cons v vs ih =>
    have hv1 : winner (sinceClear (ws ++ [v])) = winner (sinceClear ws) := by
      rw [sinceClear_append, hv v List.mem_cons_self, if_neg (by simp), winner_append, if_neg h]
    rw [List.append_cons, ih (hv1 ▸ h) fun u hu => hv u (List.mem_cons_of_mem v hu), hv1]

/-- After any operations each line of each processor is the value its registers give it, the ABW
field is that of the first request since the last clear, and nothing but a clear changes it then. -/
theorem lines_and_arbitration (hn : cpuNum ≤ 4) (rev : BitVec 32) (ops : List CchipOp)
    (hok : ∀ op ∈ ops, op.Ok cpuNum) :
    (∀ i < cpuNum,
      let c := ops.foldl (step cpuNum) (powerOnState rev)
      c.irq i 3 = c.misc.getLsbD (8 + i) ∧ c.irq i 2 = c.misc.getLsbD (4 + i) ∧
      (c.irq i 1 = true ↔ c.Requested i 0 55) ∧ (c.irq i 0 = true ↔ c.Requested i 58 63)) ∧
    abw (ops.foldl (step cpuNum) (powerOnState rev)).misc = winner (sinceClear (miscWrites ops)) ∧
    ∀ more : List CchipOp, (∀ op ∈ more, op.Ok cpuNum) → (∀ w ∈ miscWrites more, clears w = false) →
      abw (ops.foldl (step cpuNum) (powerOnState rev)).misc ≠ 0 →
      abw ((ops ++ more).foldl (step cpuNum) (powerOnState rev)).misc =
        abw (ops.foldl (step cpuNum) (powerOnState rev)).misc := by
  have h0 : Arb (powerOnState rev) [] := by
    refine BitVec.eq_of_getLsbD_eq fun j hj => ?_
    rw [abw, BitVec.getLsbD_extractLsb']
    simp [powerOnState, winner, sinceClear, show 16 + j < 32 by omega]
  obtain ⟨hi, ha⟩ := run hn (inv_powerOn hn rev) h0 hok
  rw [Arb, List.nil_append] at ha
  refine ⟨fun i hlt => ⟨hi.ipi i hlt, hi.timer i hlt, hi.device i hlt, hi.error i hlt⟩, ha, ?_⟩
  intro more hmore hclr hne
  obtain ⟨-, ha2⟩ := run hn hi (show Arb _ (miscWrites ops) from ha) hmore
  rw [List.foldl_append]
  rw [Arb, winner_kept (by rwa [ha] at hne) hclr] at ha2
  rw [ha2, ha]

/-- Two processors: an interrupt routed to the second, a clear and a set of its interprocessor
interrupt in one write, and an arbitration. -/
theorem lines_and_arbitration_two :
    ∃ c : Cchip, c.irq 1 3 = true ∧ c.irq 1 1 = true ∧ abw c.misc = 2 := by
  let ops : List CchipOp := [.csrWrite 0x240 0x20, .interrupt 5 true, .tick 0,
    .csrWrite 0x080 0x1022200, .csrWrite 0x080 0x10000]
  have hok : ∀ op ∈ ops, op.Ok 2 := by decide
  obtain ⟨h1, h2, -⟩ := lines_and_arbitration (by omega : 2 ≤ 4) 1 ops hok
  obtain ⟨h3, -, h5, -⟩ := h1 1 (by omega)
  refine ⟨_, h3.trans (by decide), h5.2 ⟨5, by omega, by omega, by decide, by decide⟩,
    h2.trans (by decide)⟩

end Alphabox.Tsunami.Cchip
