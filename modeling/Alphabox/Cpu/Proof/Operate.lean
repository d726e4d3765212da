import Alphabox.Cpu.Operate

/-!
# What an integer instruction leaves alone

Only registers and the PC change, and the PC keeps its low two bits, so the mode is kept too.
-/

namespace Alphabox.Cpu

open Fp

variable {s s' : IntState} {ins : Ins} {m : ModelId} {func : Nat}
  {uemul64 : Word → Word → Word × Word}

/-- `s'` is `s` but for its registers. -/
def SameMode (s s' : IntState) : Prop :=
  s'.toFpState = s.toFpState ∧ s'.palMode = s.palMode ∧ s'.sde = s.sde

theorem operate_mode {f : Word → Word → Word} : SameMode s (s.operate ins f) := ⟨rfl, rfl, rfl⟩

theorem cmov_mode {p : Word → Bool} : SameMode s (s.cmov ins p) := by
  unfold IntState.cmov
  split
  · exact ⟨rfl, rfl, rfl⟩
  · exact ⟨rfl, rfl, rfl⟩

theorem executeInta_mode (h : executeInta s ins func = some s') : SameMode s s' := by
  unfold executeInta at h
  split at h <;> cases h <;> exact operate_mode

theorem executeIntl_mode (h : executeIntl s ins m func = some s') : SameMode s s' := by
  unfold executeIntl at h
  split at h <;> try split at h
  all_goals cases h
  all_goals first
    | exact operate_mode
    | exact cmov_mode

theorem executeInts_mode (h : executeInts s ins func = some s') : SameMode s s' := by
  unfold executeInts at h
  split at h <;> cases h <;> exact operate_mode

theorem executeIntm_mode (h : executeIntm s ins uemul64 func = some s') : SameMode s s' := by
  unfold executeIntm at h
  split at h <;> cases h <;> exact ⟨rfl, rfl, rfl⟩

theorem executeFpti_mode (h : executeFpti s ins func = some s') : SameMode s s' := by
  unfold executeFpti at h
  split at h <;> cases h <;> exact operate_mode

/-! ## The low bits of the PC -/

/-- Both words have the same low two bits. -/
def SameLow (a b : Word) : Prop := a &&& 3 = b &&& 3

theorem and_3 (a : Word) : (a &&& 3).toNat = a.toNat % 4 := by
  rw [BitVec.toNat_and]
  exact Nat.and_two_pow_sub_one_eq_mod a.toNat 2

theorem sameLow_iff {a b : Word} : SameLow a b ↔ a.toNat % 4 = b.toNat % 4 := by
  unfold SameLow
  rw [← BitVec.toNat_inj, and_3, and_3]

theorem sameLow_add (a b : Word) : SameLow (a + 4 * b) a := by
  rw [sameLow_iff, BitVec.toNat_add, BitVec.toNat_mul, show (4 : Word).toNat = 4 from rfl]
  omega

theorem SameLow.trans {a b c : Word} (h1 : SameLow a b) (h2 : SameLow b c) : SameLow a c :=
  Eq.trans h1 h2

theorem sameLow_4 (a : Word) : SameLow (a + 4) a := by
  have h := sameLow_add a 1
  rwa [show (4 : Word) * 1 = 4 from rfl] at h

theorem sameLow_disp (a d : Word) : SameLow (a + d * 4) a := by
  rw [BitVec.mul_comm]
  exact sameLow_add a d

theorem sameLow_jmp (a b : Word) : SameLow ((a &&& ~~~3) ||| (b &&& 3)) b := by
  unfold SameLow
  refine BitVec.eq_of_getLsbD_eq fun i _ => ?_
  simp only [BitVec.getLsbD_and, BitVec.getLsbD_or, BitVec.getLsbD_not]
  cases (3 : Word).getLsbD i <;> simp

/-- One instruction changes registers and the PC above its low two bits. -/
theorem execute_frame {pc pc' : Word} (h : execute m uemul64 s pc ins = some (s', pc')) :
    SameMode s s' ∧ SameLow pc' pc := by
  have hclear : SameMode s s.clearR31 := ⟨rfl, rfl, rfl⟩
  have hstay {r : Option IntState} (hr : ∀ s', r = some s' → SameMode s.clearR31 s')
      (h : r.map (·, pc + 4) = some (s', pc')) : SameMode s s' ∧ SameLow pc' pc := by
    cases hc : r with
    | none =>
      rw [hc] at h
      cases h
    | some t =>
      rw [hc] at h
      cases h
      exact ⟨hr _ hc, sameLow_4 pc⟩
  unfold execute at h
  dsimp only at h
  split at h
  · cases h
    exact ⟨hclear, sameLow_4 pc⟩
  · cases h
    exact ⟨hclear, sameLow_4 pc⟩
  · exact hstay (fun _ => executeInta_mode) h
  · split at h
    · cases h
    · exact hstay (fun _ => executeIntl_mode) h
  · exact hstay (fun _ => executeInts_mode) h
  · exact hstay (fun _ => executeIntm_mode) h
  · split at h
    · cases h
    · cases h
      exact ⟨hclear, (sameLow_jmp _ _).trans (sameLow_4 pc)⟩
  · exact hstay (fun _ => executeFpti_mode) h
  · split at h
    · cases h
    · cases h
      exact ⟨hclear, (sameLow_disp _ _).trans (sameLow_4 pc)⟩
  · split at h
    · cases h
    · cases h
      exact ⟨hclear, (sameLow_disp _ _).trans (sameLow_4 pc)⟩
  · cases hc : branchCond (ins >>> 26).toNat with
    | none =>
      rw [hc] at h
      cases h
    | some cond =>
      rw [hc] at h
      cases h
      refine ⟨hclear, ?_⟩
      unfold doBranch
      split
      · exact (sameLow_disp _ _).trans (sameLow_4 pc)
      · exact sameLow_4 pc

end Alphabox.Cpu
