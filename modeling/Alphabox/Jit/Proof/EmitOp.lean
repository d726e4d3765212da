import Alphabox.Cpu.Proof.Operate
import Alphabox.Jit.Proof.Bytes

/-!
# One instruction compiled

`emitOp_spec`: what `classify` accepts the interpreter executes, and the code emitted for it leaves
the guest's registers as `execute` does. The proof goes through the opcodes and functions one by
one.
-/

namespace Alphabox.Jit

open Fp Cpu

variable {E : Emit} {prev : Option GReg} {s s' : IntState} {h : Host} {w : Ins} {v n : Word}
  {u : Word → Word} {op : SafeOp}

/-! ## LDA and LDAH -/

theorem addImm_spec {a d : XReg} (ha : Left a) (hd : Left d) :
    Only d (addImm d a v) ∧ (run E.table u (addImm d a v) h).get d = h.get a + v := by
  have hd31 := hd.ne.2.2.2.2
  unfold addImm
  split
  · exact ⟨only_one rfl rfl, get_aluImm hd31⟩
  split
  · refine ⟨only_one rfl rfl, (get_aluImm hd31).trans ?_⟩
    exact (BitVec.sub_eq_add_neg ..).trans (congrArg (h.get a + ·) BitVec.neg_neg)
  · have hm : Only 17 [.movImm 17 v] := only_one rfl rfl
    refine ⟨only_append.2 ⟨hm.of_scratch (by decide) d, only_one rfl rfl⟩, ?_⟩
    rw [run_cons, get_alu hd31, step, Host.get_set_of_ne h ha.ne.2.2.2.1,
      Host.get_set_self h (by decide)]
    rfl

theorem emitLda_spec (hat : At E prev s n h) (hs : E.For s) :
    Compiled E u n h (emitLda E prev w v) (s.clearR31.setRav w (s.clearR31.rb w + v)) := by
  have hput := hs.setRav (w := w) (s.clearR31.rb w + v)
  rw [hs.rb] at hput ⊢
  unfold emitLda
  dsimp only
  by_cases hra : raOf w = 31
  · rw [if_pos hra]
    exact .none (hat.rep.congr (hra ▸ hput))
  rw [if_neg hra]
  have hd : Left (dstReg E (raOf w)) := by
    rcases dstReg_cases E (raOf w) with ⟨-, hd⟩ | ⟨-, -, hm⟩ | ⟨-, -, hd⟩
    · exact Or.inl hd
    · exact Or.inr hm
    · exact Or.inl hd
  by_cases hrb : rbOf w = 31
  · rw [if_pos hrb]
    rw [hrb, val_31, show (0 : Word) + v = v from BitVec.zero_add v] at hput
    rw [hrb, val_31, show (0 : Word) + v = v from BitVec.zero_add v]
    exact dstDone_spec hat.rep (only_one rfl rfl) (get_movImm hd.ne.2.2.2.2) hput
  rw [if_neg hrb]
  have h1 : Fetched E u h 0 (srcReg E prev (rbOf w) 0 true) (E.val s (rbOf w)) :=
    srcReg_spec hat.rep (fun _ => ⟨rfl, fun e => (hat.x0 _ e).2⟩) (by decide)
  by_cases hv : v = 0
  · rw [if_neg (not_not.2 hv)]
    rw [hv, show E.val s (rbOf w) + 0 = E.val s (rbOf w) from BitVec.add_zero _] at hput
    rw [hv, show E.val s (rbOf w) + 0 = E.val s (rbOf w) from BitVec.add_zero _]
    by_cases hsd : (srcReg E prev (rbOf w) 0 true).2 = dstReg E (raOf w)
    · rw [if_neg (not_not.2 hsd), List.append_nil]
      exact dstDone_spec hat.rep (h1.only.of_scratch scratch0 _) (hsd ▸ h1.value) hput
    · rw [if_pos hsd]
      refine dstDone_spec hat.rep
        (only_append.2 ⟨h1.only.of_scratch scratch0 _, only_one rfl rfl⟩) ?_ hput
      rw [run_append, get_unary hd.ne.2.2.2.2]
      exact h1.value
  · rw [if_pos hv]
    obtain ⟨ho, hm⟩ := addImm_spec (E := E) (u := u) (v := v)
      (h := run E.table u (srcReg E prev (rbOf w) 0 true).1 h) h1.src hd
    refine dstDone_spec hat.rep (only_append.2 ⟨h1.only.of_scratch scratch0 _, ho⟩) ?_ hput
    rw [run_append, hm, h1.value]

/-! ## The integer opcodes -/

theorem sext_long (x : Word) : sextU64L x = (lo x).signExtend 64 := rfl

theorem long_add (a b : Word) :
    sextU64L (a + b) = (longOp 0 false (lo a) (lo b)).signExtend 64 := by
  rw [sext_long, lo_add]
  exact congrArg (fun x => (x + lo b).signExtend 64) (BitVec.shiftLeft_zero _).symm

theorem long_sub (a b : Word) : sextU64L (a - b) = (longOp 0 true (lo a) (lo b)).signExtend 64 := by
  rw [sext_long, lo_sub]
  exact congrArg (fun x => (x - lo b).signExtend 64) (BitVec.shiftLeft_zero _).symm

theorem long_add_4 (a b : Word) :
    sextU64L (a * 4 + b) = (longOp 2 false (lo a) (lo b)).signExtend 64 := by
  rw [sext_long, lo_add, lo_mul_4]
  rfl

theorem long_sub_4 (a b : Word) :
    sextU64L (a * 4 - b) = (longOp 2 true (lo a) (lo b)).signExtend 64 := by
  rw [sext_long, lo_sub, lo_mul_4]
  rfl

theorem long_add_8 (a b : Word) :
    sextU64L (a * 8 + b) = (longOp 3 false (lo a) (lo b)).signExtend 64 := by
  rw [sext_long, lo_add, lo_mul_8]
  rfl

theorem long_sub_8 (a b : Word) :
    sextU64L (a * 8 - b) = (longOp 3 true (lo a) (lo b)).signExtend 64 := by
  rw [sext_long, lo_sub, lo_mul_8]
  rfl

theorem cmpbgeCode_spec (h : Host) : Only 0 cmpbgeCode ∧
    (run E.table u cmpbgeCode h).get 0 = cmpbge (h.get 0) (h.get 1) := by
  rw [← cmpbge_eq]
  constructor
  · simp [cmpbgeCode, Instr.stores, Instr.dest, scratchRegs]
  · rfl

theorem ctpopCode_spec (h : Host) : Only 0 ctpopCode ∧
    (run E.table u ctpopCode h).get 0 = BitVec.ofNat 64 (onesBelow (h.get 1) 64) := by
  rw [← ctpop_eq]
  constructor
  · simp [ctpopCode, Instr.stores, Instr.dest, scratchRegs]
  · rfl

/-- The interpreter executes the instruction, and the code leaves what it leaves. -/
def Agrees (E : Emit) (u : Word → Word) (n : Word) (h : Host) (em : Emitted)
    (r : Option IntState) : Prop :=
  ∃ s', r = some s' ∧ Compiled E u n h em s'

theorem inta_spec (hc : classifyInta (funcOf w) = some op) (hat : At E prev s n h) (hs : E.For s) :
    Agrees E u n h (emitOp E prev w op) (executeInta s.clearR31 w (funcOf w)) := by
  unfold classifyInta at hc
  split at hc <;> rename_i hf <;> cases hc <;> rw [hf]
  · exact ⟨_, rfl, binop_spec (fun _ _ => rfl) hat hs⟩
  · exact ⟨_, rfl, binop_spec (fun _ _ => rfl) hat hs⟩
  · exact ⟨_, rfl, emitLong_spec long_add hat hs⟩
  · exact ⟨_, rfl, emitLong_spec long_sub hat hs⟩
  · exact ⟨_, rfl, emitScaled_spec (fun a b => congrArg (· + b) (mul_4 a)) hat hs⟩
  · exact ⟨_, rfl, emitScaled_spec (fun a b => congrArg (· + b) (mul_8 a)) hat hs⟩
  · exact ⟨_, rfl, emitScaled_spec (fun a b => congrArg (· - b) (mul_4 a)) hat hs⟩
  · exact ⟨_, rfl, emitScaled_spec (fun a b => congrArg (· - b) (mul_8 a)) hat hs⟩
  · exact ⟨_, rfl, emitLong_spec long_add_4 hat hs⟩
  · exact ⟨_, rfl, emitLong_spec long_add_8 hat hs⟩
  · exact ⟨_, rfl, emitLong_spec long_sub_4 hat hs⟩
  · exact ⟨_, rfl, emitLong_spec long_sub_8 hat hs⟩
  · exact ⟨_, rfl, emitX0X1_spec hat hs cmpbgeCode_spec⟩
  · exact ⟨_, rfl, emitCompare_spec cc_eq hat hs⟩
  · exact ⟨_, rfl, emitCompare_spec cc_lt hat hs⟩
  · exact ⟨_, rfl, emitCompare_spec cc_le hat hs⟩
  · exact ⟨_, rfl, emitCompare_spec cc_lo hat hs⟩
  · exact ⟨_, rfl, emitCompare_spec cc_ls hat hs⟩

theorem intl_spec (hc : classifyIntl E.ext (raOf w) (funcOf w) = some op)
    (hat : At E prev s n h) (hs : E.For s) :
    Agrees E u n h (emitOp E prev w op)
      (executeIntl s.clearR31 w E.model (funcOf w)) := by
  have hcmov (cond : IntCond) (hm : (funcOf w, cond) ∈ [(0x24, IntCond.eq), (0x26, .ne),
      (0x44, .lt), (0x46, .ge), (0x64, .le), (0x66, .gt), (0x14, .lbs), (0x16, .lbc)]) :
      Compiled E u n h (emitCmov E prev w) (s.clearR31.cmov w cond.holds) :=
    emitCmov_spec (fun _ => cmov_tests hm) hat hs
  unfold classifyIntl at hc
  split at hc <;> rename_i hf
  · cases hc
    rw [hf]
    exact ⟨_, rfl, binop_spec (fun _ _ => rfl) hat hs⟩
  · -- BIS, a move when Ra is R31
    cases hc
    rw [hf]
    refine ⟨_, rfl, ?_⟩
    unfold emitOp
    dsimp only
    split
    · rename_i hra
      exact emitMove_spec hat hs hra
    · exact binop_spec (fun _ _ => rfl) hat hs
  · cases hc
    rw [hf]
    exact ⟨_, rfl, binop_spec (fun _ _ => rfl) hat hs⟩
  · cases hc
    rw [hf]
    exact ⟨_, rfl, binop_spec (fun _ _ => rfl) hat hs⟩
  · cases hc
    rw [hf]
    exact ⟨_, rfl, binop_spec (fun _ _ => rfl) hat hs⟩
  · cases hc
    rw [hf]
    exact ⟨_, rfl, binop_spec (fun _ _ => rfl) hat hs⟩
  · cases hc
    have hm := hcmov .lbs (by rw [hf]; decide)
    rw [hf]
    exact ⟨_, rfl, hm⟩
  · cases hc
    have hm := hcmov .lbc (by rw [hf]; decide)
    rw [hf]
    exact ⟨_, rfl, hm⟩
  · cases hc
    have hm := hcmov .eq (by rw [hf]; decide)
    rw [hf]
    exact ⟨_, rfl, hm⟩
  · cases hc
    have hm := hcmov .ne (by rw [hf]; decide)
    rw [hf]
    exact ⟨_, rfl, hm⟩
  · cases hc
    have hm := hcmov .lt (by rw [hf]; decide)
    rw [hf]
    exact ⟨_, rfl, hm⟩
  · cases hc
    have hm := hcmov .ge (by rw [hf]; decide)
    rw [hf]
    exact ⟨_, rfl, hm⟩
  · cases hc
    have hm := hcmov .le (by rw [hf]; decide)
    rw [hf]
    exact ⟨_, rfl, hm⟩
  · cases hc
    have hm := hcmov .gt (by rw [hf]; decide)
    rw [hf]
    exact ⟨_, rfl, hm⟩
  · -- AMASK, with Ra R31
    split at hc
    · cases hc
    rename_i hra
    cases hc
    rw [hf]
    have hr31 : s.clearR31.rregA (w.extractLsb' 21 5) = 31 := by
      rw [hs.clearR31.rregA, show w.extractLsb' 21 5 = raOf w from rfl, not_not.1 hra, slotOf_31]
    refine ⟨s.clearR31.operate w fun _ b => b &&& ~~~E.model.amask, ?_, ?_⟩
    · exact if_neg (not_not.2 hr31)
    · exact emitX1_spec hat hs fun h => ⟨only_append.2 ⟨(only_one (d := 9) rfl rfl).of_scratch
        (by decide) 0, only_one rfl rfl⟩, rfl⟩
  · -- CMOV2, of the 21464
    split at hc
    · rename_i hev8
      cases hc
      rw [hf]
      refine ⟨s.clearR31.operate w fun a _ => a, ?_, ?_⟩
      · exact if_pos (hs.ev8.trans hev8)
      · obtain ⟨ho, hv, -⟩ := op1X0_spec (u := u) (w := w) hat
        exact rcX0_spec hat.rep ho hv (hs.operate _)
    · cases hc
  · -- IMPLVER
    cases hc
    rw [hf]
    exact ⟨_, rfl, rcX0_spec hat.rep (only_one rfl rfl) (get_movImm (by decide)) (hs.operate _)⟩
  · cases hc

/-- The mask of a byte manipulation, from its function. -/
theorem bwxMask_func {n : Nat} (hf : funcOf w = n) : bwxMask w =
    if (n >>> 4) &&& 3 = 0 then x64Byte else if (n >>> 4) &&& 3 = 1 then x64Word
    else if (n >>> 4) &&& 3 = 2 then x64Long else x64Quad := by
  have hz : (n >>> 4) &&& 3 = bwxSize w := by rw [← hf]; rfl
  rw [hz]
  unfold bwxMask bwxBits
  rcases bwxSize_cases w with h | h | h | h <;> rw [h] <;> rfl

/-- A byte manipulation whose function says what the interpreter computes. -/
theorem bwx_agrees {f : Word → Word → Word} {r : Option IntState}
    (hop : op ∈ [SafeOp.extl, .exth, .insl, .insh, .mskl, .mskh, .zap])
    (hr : r = some (s.clearR31.operate w f)) (hf : bwxVal w op = f) (hat : At E prev s n h)
    (hs : E.For s) : Agrees E u n h (emitBwx E prev w op) r :=
  ⟨_, hr, hf ▸ emitBwx_spec hop hat hs⟩

theorem bwxVal_mask {m : Word} (hm : bwxMask w = m) :
    bwxVal w .extl = extLow m ∧ bwxVal w .exth = extHigh m ∧ bwxVal w .insl = insLow m ∧
    bwxVal w .insh = insHigh m ∧ bwxVal w .mskl = mskLow m ∧ bwxVal w .mskh = mskHigh m := by
  subst hm
  exact ⟨rfl, rfl, rfl, rfl, rfl, rfl⟩

theorem extLow_quad : extLow x64Quad = fun a b => a >>> bytePos b := by
  funext a b
  exact BitVec.and_allOnes

theorem insLow_quad : insLow x64Quad = fun a b => a <<< bytePos b := by
  funext a b
  exact congrArg (· <<< bytePos b) BitVec.and_allOnes

theorem ints_spec (hc : classifyInts (funcOf w) = some op) (hat : At E prev s n h) (hs : E.For s) :
    Agrees E u n h (emitOp E prev w op) (executeInts s.clearR31 w (funcOf w)) := by
  have hone (aop : AluOp) (f : Word → Word → Word) (hf : ∀ a b, aop.eval a b = f a b) :
      Compiled E u n h (emitX0X1 E prev w [.alu aop 0 0 1]) (s.clearR31.operate w f) :=
    emitX0X1_spec hat hs fun h => ⟨only_one rfl rfl, (get_alu (by decide)).trans (hf _ _)⟩
  unfold classifyInts at hc
  split at hc <;> rename_i hf <;> cases hc
  · rw [hf]
    exact ⟨_, rfl, hone .lsl _ fun a b => congrArg (a <<< ·) (and_63 b).symm⟩
  · rw [hf]
    exact ⟨_, rfl, hone .lsr _ fun a b => congrArg (a >>> ·) (and_63 b).symm⟩
  · rw [hf]
    exact ⟨_, rfl, hone .asr _ sra_eq⟩
  · exact bwx_agrees (by decide) (by rw [hf]; rfl) (bwxVal_mask (bwxMask_func hf)).1 hat hs
  · exact bwx_agrees (by decide) (by rw [hf]; rfl) (bwxVal_mask (bwxMask_func hf)).1 hat hs
  · exact bwx_agrees (by decide) (by rw [hf]; rfl) (bwxVal_mask (bwxMask_func hf)).1 hat hs
  · have hmask := (bwxVal_mask (bwxMask_func hf)).1
    exact bwx_agrees (by decide) (by rw [hf]; rfl) (hmask.trans extLow_quad) hat hs
  · exact bwx_agrees (by decide) (by rw [hf]; rfl) (bwxVal_mask (bwxMask_func hf)).2.1 hat hs
  · exact bwx_agrees (by decide) (by rw [hf]; rfl) (bwxVal_mask (bwxMask_func hf)).2.1 hat hs
  · exact bwx_agrees (by decide) (by rw [hf]; rfl) (bwxVal_mask (bwxMask_func hf)).2.1 hat hs
  · exact bwx_agrees (by decide) (by rw [hf]; rfl) (bwxVal_mask (bwxMask_func hf)).2.2.1 hat hs
  · exact bwx_agrees (by decide) (by rw [hf]; rfl) (bwxVal_mask (bwxMask_func hf)).2.2.1 hat hs
  · exact bwx_agrees (by decide) (by rw [hf]; rfl) (bwxVal_mask (bwxMask_func hf)).2.2.1 hat hs
  · have hmask := (bwxVal_mask (bwxMask_func hf)).2.2.1
    exact bwx_agrees (by decide) (by rw [hf]; rfl) (hmask.trans insLow_quad) hat hs
  · exact bwx_agrees (by decide) (by rw [hf]; rfl) (bwxVal_mask (bwxMask_func hf)).2.2.2.1 hat hs
  · exact bwx_agrees (by decide) (by rw [hf]; rfl) (bwxVal_mask (bwxMask_func hf)).2.2.2.1 hat hs
  · exact bwx_agrees (by decide) (by rw [hf]; rfl) (bwxVal_mask (bwxMask_func hf)).2.2.2.1 hat hs
  · exact bwx_agrees (by decide) (by rw [hf]; rfl) (bwxVal_mask (bwxMask_func hf)).2.2.2.2.1 hat hs
  · exact bwx_agrees (by decide) (by rw [hf]; rfl) (bwxVal_mask (bwxMask_func hf)).2.2.2.2.1 hat hs
  · exact bwx_agrees (by decide) (by rw [hf]; rfl) (bwxVal_mask (bwxMask_func hf)).2.2.2.2.1 hat hs
  · exact bwx_agrees (by decide) (by rw [hf]; rfl) (bwxVal_mask (bwxMask_func hf)).2.2.2.2.1 hat hs
  · exact bwx_agrees (by decide) (by rw [hf]; rfl) (bwxVal_mask (bwxMask_func hf)).2.2.2.2.2 hat hs
  · exact bwx_agrees (by decide) (by rw [hf]; rfl) (bwxVal_mask (bwxMask_func hf)).2.2.2.2.2 hat hs
  · exact bwx_agrees (by decide) (by rw [hf]; rfl) (bwxVal_mask (bwxMask_func hf)).2.2.2.2.2 hat hs
  · refine bwx_agrees (by decide) (by rw [hf]; rfl) ?_ hat hs
    funext a b
    exact if_pos hf
  · refine bwx_agrees (by decide) (by rw [hf]; rfl) ?_ hat hs
    funext a b
    exact if_neg (by rw [hf]; decide)

theorem intm_spec (hc : classifyIntm (funcOf w) = some op) (hat : At E prev s n h) (hs : E.For s) :
    Agrees E u n h (emitOp E prev w op)
      (executeIntm s.clearR31 w uemul64 (funcOf w)) := by
  unfold classifyIntm at hc
  split at hc <;> rename_i hf <;> cases hc <;> rw [hf]
  · exact ⟨_, rfl, binop_spec (fun _ _ => rfl) hat hs⟩
  · exact ⟨_, rfl, emitMull_spec hat hs⟩
  · refine ⟨_, rfl, binop_spec (f := fun a b => (uemul64 a b).2) (fun a b => ?_) hat hs⟩
    refine BitVec.eq_of_toNat_eq ?_
    have hp := uemul64_mul a b
    have hlo := (uemul64 a b).1.isLt
    have hhi := (uemul64 a b).2.isLt
    change a.toNat * b.toNat / 2 ^ 64 % 2 ^ 64 = _
    rw [← hp]
    omega

theorem fpti_spec (hc : classifyFpti (funcOf w) = some op) (hat : At E prev s n h) (hs : E.For s) :
    Agrees E u n h (emitOp E prev w op) (executeFpti s.clearR31 w (funcOf w)) := by
  unfold classifyFpti at hc
  split at hc <;> rename_i hf <;> cases hc <;> rw [hf]
  · exact ⟨_, rfl, emitX1_spec hat hs fun h => ⟨only_one rfl rfl, get_unary (by decide)⟩⟩
  · exact ⟨_, rfl, emitX1_spec hat hs fun h => ⟨only_one rfl rfl, get_unary (by decide)⟩⟩
  · refine ⟨_, rfl, emitX1_spec hat hs fun h => ⟨only_one rfl rfl, ?_⟩⟩
    exact (get_unary (by decide)).trans (clz_eq _)
  · refine ⟨_, rfl, emitX1_spec hat hs fun h => ⟨only_append.2 ⟨only_one rfl rfl, only_one rfl rfl⟩,
      ?_⟩⟩
    rw [run_cons, get_unary (by decide), step, Host.get_set_self h (by decide)]
    exact (clz_eq _).trans (congrArg _ (ctz_eq _))
  · exact ⟨_, rfl, emitX1_spec hat hs ctpopCode_spec⟩

/-! ## Any instruction -/

theorem Emit.For.mode (hs : E.For s) (hm : SameMode s s') : E.For s' := by
  obtain ⟨hf, hp, hd⟩ := hm
  have he : s'.ev8n = s.ev8n := by rw [hf]
  exact ⟨hp.trans hs.pal, fun h => hd.trans (hs.sde h), fun h => he.trans (hs.palNative h),
    he.trans hs.native, hs.ev8⟩

/-- Where `execute` goes for the operates. -/
theorem execute_stay {r : Option IntState} (pc : Word)
    (hr : execute E.model uemul64 s pc w = r.map (·, pc + 4)) (hs : E.For s)
    (ha : Agrees E u n h (emitOp E prev w op) r) : ∃ s',
      execute E.model uemul64 s pc w = some (s', pc + 4) ∧
      Compiled E u n h (emitOp E prev w op) s' ∧ E.For s' := by
  obtain ⟨s', he, hcomp⟩ := ha
  rw [he] at hr
  exact ⟨s', hr, hcomp, hs.mode (execute_frame hr).1⟩

/-- Every instruction that does not end a block: the interpreter goes on to the next, and the code
does what it does. -/
theorem emitOp_spec (hc : classify E.ext w = some op) (ht : isTerminator op = false)
    (hat : At E prev s n h) (hs : E.For s) (pc : Word) : ∃ s',
      execute E.model uemul64 s pc w = some (s', pc + 4) ∧
      Compiled E u n h (emitOp E prev w op) s' ∧ E.For s' := by
  have hterm {op' : SafeOp} (he : some op' = some op) (h1 : isTerminator op' = true) : False := by
    cases he
    rw [h1] at ht
    cases ht
  unfold classify at hc
  split at hc <;> rename_i hopc <;> unfold opcodeOf at hopc
  · cases hc
    refine execute_stay pc ?_ hs ⟨_, rfl, emitLda_spec hat hs⟩
    unfold execute
    rw [hopc]
    rfl
  · cases hc
    refine execute_stay pc ?_ hs ⟨_, rfl, emitLda_spec hat hs⟩
    unfold execute
    rw [hopc]
    dsimp only
    unfold doLdah
    rw [BitVec.shiftLeft_eq_mul_twoPow]
    rfl
  · refine execute_stay pc ?_ hs (inta_spec hc hat hs)
    unfold execute
    rw [hopc]
    rfl
  · refine execute_stay pc ?_ hs (intl_spec hc hat hs)
    have hn : ¬(s.clearR31.palMode && s.clearR31.ev8n) = true := by
      intro he
      obtain ⟨hp, hv⟩ := Bool.and_eq_true_iff.1 he
      have hfalse := hs.palNative (hs.pal.symm.trans hp)
      rw [show s.clearR31.ev8n = s.ev8n from rfl, hfalse] at hv
      cases hv
    unfold execute
    rw [hopc]
    dsimp only
    rw [if_neg hn]
    rfl
  · refine execute_stay pc ?_ hs (ints_spec hc hat hs)
    unfold execute
    rw [hopc]
    rfl
  · refine execute_stay pc ?_ hs (intm_spec hc hat hs)
    unfold execute
    rw [hopc]
    rfl
  · split at hc
    · cases hc
    · exact (hterm hc rfl).elim
  · refine execute_stay pc ?_ hs (fpti_spec hc hat hs)
    unfold execute
    rw [hopc]
    rfl
  · exact (hterm hc rfl).elim
  · exact (hterm hc rfl).elim
  · exact (hterm hc rfl).elim
  · exact (hterm hc rfl).elim
  · exact (hterm hc rfl).elim
  · exact (hterm hc rfl).elim
  · exact (hterm hc rfl).elim
  · exact (hterm hc rfl).elim
  · exact (hterm hc rfl).elim
  · exact (hterm hc rfl).elim
  · cases hc

end Alphabox.Jit
