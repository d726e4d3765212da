import Alphabox.Jit.EmitA64

/-!
# What emitted code leaves alone

A list of instructions writes only the registers it names as destinations. Code that computes one
guest register into `d` uses scratch registers besides (`Only d`), so every other pin and the
guest's registers in memory come through it.
-/

namespace Alphabox.Jit

open Fp Cpu

variable {table : Word} {u : Word → Word} {h : Host} {d q : XReg} {v : Word}
  {code code' : List Instr} {I : Instr}

/-! ## Registers -/

namespace Host

theorem get_set_self (h : Host) (hd : d ≠ 31) : (h.set d v).get d = v := by
  rw [set, if_neg hd, get, if_neg hd]
  exact Function.update_self d v h.x

theorem get_set_of_ne (h : Host) (hq : q ≠ d) : (h.set d v).get q = h.get q := by
  unfold set
  split
  · rfl
  · unfold get
    split
    · rfl
    · exact Function.update_of_ne hq v h.x

theorem get_zr (h : Host) : h.get 31 = 0 := rfl

@[simp] theorem set_r (h : Host) (d : XReg) (v : Word) : (h.set d v).r = h.r := by
  unfold set
  split <;> rfl

@[simp] theorem set_flags (h : Host) (d : XReg) (v : Word) : (h.set d v).flags = h.flags := by
  unfold set
  split <;> rfl

end Host

/-! ## Runs -/

@[simp] theorem run_nil : run table u [] h = h := rfl

@[simp] theorem run_cons :
    run table u (I :: code) h = run table u code (step table u h I) := rfl

theorem run_append : run table u (code ++ code') h =
    run table u code' (run table u code h) :=
  List.foldl_append

/-! ## Frames -/

/-- The register an instruction writes. -/
def Instr.dest : Instr → Option XReg
  | .movImm d _ | .unary _ d _ | .alu _ d _ _ | .aluImm _ d _ _ | .aluW _ d _ _ _ | .addImmW d _ _
  | .subImmW d _ _ | .lslImmW d _ _ | .ubfx d _ _ _ | .ubfiz d _ _ _ | .csel d _ _ _ | .cset d _
  | .ldr d _ | .ldrW d _ | .ldrTable d _ _ => some d
  | .cmp _ _ | .cmpImm _ _ | .tst _ _ | .tstImm _ _ | .str _ _ => none

/-- The instruction writes the guest's memory. -/
def Instr.stores : Instr → Bool
  | .str _ _ => true
  | _ => false

/-- Every register but the destination keeps its value. -/
theorem step_get (hq : I.dest ≠ some q) : (step table u h I).get q = h.get q := by
  have hne {d : XReg} (hd : some d ≠ some q) : q ≠ d := fun e => hd (congrArg some e.symm)
  cases I <;> first
    | exact Host.get_set_of_ne h (hne hq)
    | rfl

theorem step_r (hI : I.stores = false) : (step table u h I).r = h.r := by
  cases I <;> first
    | exact Host.set_r ..
    | rfl
    | cases hI

/-- The registers that compiled operates use besides the pins. -/
def scratchRegs : List XReg := [0, 1, 9, 10, 11, 12, 17]

/-- The code writes `d`, scratch registers and nothing else. -/
def Only (d : XReg) (code : List Instr) : Prop :=
  ∀ I ∈ code, I.stores = false ∧ ∀ q ∈ I.dest, q = d ∨ q ∈ scratchRegs

@[simp] theorem only_nil : Only d [] := by
  intro I hI
  cases hI

@[simp] theorem only_cons : Only d (I :: code) ↔
    (I.stores = false ∧ ∀ q ∈ I.dest, q = d ∨ q ∈ scratchRegs) ∧ Only d code :=
  List.forall_mem_cons

@[simp] theorem only_append : Only d (code ++ code') ↔ Only d code ∧ Only d code' :=
  List.forall_mem_append

/-- Code that writes scratch registers only may be part of any. -/
theorem Only.of_scratch (hd : d ∈ scratchRegs) (hc : Only d code) (d' : XReg) : Only d' code := by
  intro I hI
  obtain ⟨hs, hw⟩ := hc I hI
  refine ⟨hs, fun q hq => Or.inr ?_⟩
  rcases hw q hq with rfl | hq
  · exact hd
  · exact hq

theorem Only.r (hc : Only d code) : (run table u code h).r = h.r := by
  induction code generalizing h with
  | nil => rfl
  | cons I code ih =>
    obtain ⟨⟨hs, -⟩, hc⟩ := only_cons.1 hc
    rw [run_cons, ih hc, step_r hs]

/-- Every other register keeps its value. -/
theorem Only.get (hc : Only d code) (hq : q ∉ scratchRegs) (hd : q ≠ d) :
    (run table u code h).get q = h.get q := by
  induction code generalizing h with
  | nil => rfl
  | cons I code ih =>
    obtain ⟨⟨-, hw⟩, hc⟩ := only_cons.1 hc
    rw [run_cons, ih hc]
    refine step_get fun e => ?_
    rcases hw q (Option.mem_def.2 e) with rfl | hn
    · exact hd rfl
    · exact hq hn

/-! ## Registers an operate computes with -/

/-- Where the first operand is, and where a result goes: `x0` or a pin. -/
def Left (q : XReg) : Prop := q = 0 ∨ q ∈ pinHosts

/-- Where the second operand is: `x1` or a pin. -/
def Right (q : XReg) : Prop := q = 1 ∨ q ∈ pinHosts

theorem Left.ne (hq : Left q) : q ≠ 1 ∧ q ≠ 9 ∧ q ≠ 10 ∧ q ≠ 17 ∧ q ≠ 31 := by
  revert q
  unfold Left
  decide

theorem Right.ne (hq : Right q) : q ≠ 0 ∧ q ≠ 9 ∧ q ≠ 10 ∧ q ≠ 31 := by
  revert q
  unfold Right
  decide

theorem pinHosts_ne (hq : q ∈ pinHosts) : q ≠ 0 ∧ q ≠ 1 ∧ q ≠ 27 ∧ q ≠ 31 := by
  revert q
  decide

theorem not_scratch (hq : q ∈ pinHosts) : q ∉ scratchRegs := by
  revert q
  decide

end Alphabox.Jit
