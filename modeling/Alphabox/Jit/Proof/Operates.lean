import Alphabox.Jit.Proof.Regs
import Alphabox.Jit.Proof.Swar

/-!
# Compiled operates

One lemma for each shape of emitted code, over the operation it computes: the code takes a host that
holds the guest's registers to one that holds them with the interpreter's result in Rc.
-/

namespace Alphabox.Jit

open Fp Cpu

variable {E : Emit} {prev : Option GReg} {s s' : IntState} {h : Host} {w : Ins} {v n : Word}
  {u : Word → Word}

/-! ## The interpreter's registers -/

theorem clearR31_r (r : GReg) : s.clearR31.r (E.slotOf r) = E.val s r := by
  by_cases hr : r = 31
  · rw [hr, slotOf_31, val_31]
    exact Function.update_self 31 0 s.r
  · rw [val_of_ne hr]
    exact Function.update_of_ne (slotOf_ne hr) 0 s.r

theorem puts_clearR31 (r : GReg) (v : Word) :
    Puts E s r v { s.clearR31 with r := Function.update s.clearR31.r (E.slotOf r) v } := by
  intro i hi
  split
  · rename_i he
    rw [he]
    exact Function.update_self (E.slotOf r) v s.clearR31.r
  · rename_i hne
    exact (Function.update_of_ne hne v _).trans (Function.update_of_ne hi 0 s.r)

namespace Emit.For

variable (hs : E.For s)

include hs

theorem rregA (r : GReg) : s.rregA r = E.slotOf r := by
  unfold IntState.rregA IntState.palOffA Emit.slotOf
  rw [hs.pal]
  cases hp : E.pal with
  | false => exact BitVec.add_zero _
  | true =>
    rw [hs.sde hp, hs.palNative hp]
    simp only [if_true, and_true, Bool.false_eq_true, false_and, if_false, Bool.true_and,
      beq_iff_eq]
    split
    · rfl
    · exact BitVec.add_zero _

theorem rregB (r : GReg) : s.rregB r = E.slotOf r := by
  unfold IntState.rregB IntState.palOffB Emit.slotOf
  rw [hs.pal]
  cases hp : E.pal with
  | false => exact BitVec.add_zero _
  | true =>
    rw [hs.sde hp, hs.palNative hp]
    simp only [if_true, and_true, Bool.false_eq_true, false_and, if_false, Bool.true_and,
      beq_iff_eq]
    split
    · rfl
    · exact BitVec.add_zero _

theorem clearR31 : E.For s.clearR31 := ⟨hs.pal, hs.sde, hs.palNative, hs.native, hs.ev8⟩

theorem rav : s.clearR31.rav w = E.val s (raOf w) := by
  unfold IntState.rav
  rw [hs.clearR31.rregA]
  exact clearR31_r _

theorem rb : s.clearR31.rb w = E.val s (rbOf w) := by
  unfold IntState.rb
  rw [hs.clearR31.rregB]
  exact clearR31_r _

theorem rbv : s.clearR31.rbv w = E.opnd s w := by
  unfold IntState.rbv Emit.opnd isLit
  by_cases hl : w &&& 0x1000 = 0
  · rw [if_neg (not_not.2 hl), if_neg (by simpa using hl)]
    exact hs.rb
  · rw [if_pos hl, if_pos (by simpa using hl)]
    rfl

theorem operate (f : Word → Word → Word) : Puts E s (rcOf w) (f (E.val s (raOf w))
    (E.opnd s w)) (s.clearR31.operate w f) := by
  unfold IntState.operate IntState.setRcv IntState.rc
  rw [hs.rav, hs.rbv, hs.clearR31.rregA]
  exact puts_clearR31 _ _

theorem setRav (v : Word) : Puts E s (raOf w) v (s.clearR31.setRav w v) := by
  unfold IntState.setRav
  rw [hs.clearR31.rregA]
  exact puts_clearR31 _ _

end Emit.For

/-! ## Shapes of code -/

/-- The code takes a host at `s` to one at `s'`. -/
def Compiled (E : Emit) (u : Word → Word) (n : Word) (h : Host) (em : Emitted)
    (s' : IntState) : Prop :=
  At E em.holds s' n (run E.table u em.code h)

theorem opnd_lit (hl : isLit w = true) : E.opnd s w = litOf w := if_pos hl

theorem opnd_reg (hl : ¬isLit w = true) : E.opnd s w = E.val s (rbOf w) := if_neg hl

/-- Code over the first operand. -/
theorem rcDone_op1 {m : XReg → XReg → List Instr} {g : Word → Word} (hat : At E prev s n h)
    (hmid : ∀ (h : Host) (a d : XReg), Left a → Left d →
      Only d (m a d) ∧ (run E.table u (m a d) h).get d = g (h.get a))
    (hs : Puts E s (rcOf w) (g (E.val s (raOf w))) s') :
    Compiled E u n h
      (rcDone E w fun d => (op1Src E prev w).1 ++ m (op1Src E prev w).2 d) s' := by
  have h1 : Fetched E u h 0 (op1Src E prev w) (E.val s (raOf w)) := op1Src_spec hat
  refine rcDone_spec hat.rep (fun d hd => ?_) hs
  obtain ⟨ho, hv⟩ := hmid (run E.table u (op1Src E prev w).1 h) _ d h1.src hd
  refine ⟨only_append.2 ⟨h1.only.of_scratch scratch0 d, ho⟩, ?_⟩
  rw [run_append, hv, h1.value]

/-- Code over a second operand that is a register. -/
theorem rcDone_op2 {m : XReg → XReg → List Instr} {g : Word → Word} (hrep : Rep E s n h)
    (hmid : ∀ (h : Host) (b d : XReg), Right b → Left d →
      Only d (m b d) ∧ (run E.table u (m b d) h).get d = g (h.get b))
    (hs : Puts E s (rcOf w) (g (E.val s (rbOf w))) s') :
    Compiled E u n h
      (rcDone E w fun d => (op2Src E prev w).1 ++ m (op2Src E prev w).2 d) s' := by
  have h2 : Fetched E u h 1 (op2Src E prev w) (E.val s (rbOf w)) := op2Src_spec hrep
  refine rcDone_spec hrep (fun d hd => ?_) hs
  obtain ⟨ho, hv⟩ := hmid (run E.table u (op2Src E prev w).1 h) _ d h2.src hd
  refine ⟨only_append.2 ⟨h2.only.of_scratch scratch1 d, ho⟩, ?_⟩
  rw [run_append, hv, h2.value]

/-- Code over both operands in registers. -/
theorem rcDone_op12 {m : XReg → XReg → XReg → List Instr} {g : Word → Word → Word}
    (hat : At E prev s n h)
    (hmid : ∀ (h : Host) (a b d : XReg), Left a → Right b → Left d →
      Only d (m a b d) ∧ (run E.table u (m a b d) h).get d = g (h.get a) (h.get b))
    (hs : Puts E s (rcOf w) (g (E.val s (raOf w)) (E.val s (rbOf w))) s') :
    Compiled E u n h
      (rcDone E w fun d => (op1Src E prev w).1 ++ (op2Src E prev w).1 ++
        m (op1Src E prev w).2 (op2Src E prev w).2 d) s' := by
  have h1 : Fetched E u h 0 (op1Src E prev w) (E.val s (raOf w)) := op1Src_spec hat
  have h2 : Fetched E u h 1 (op2Src E prev w) (E.val s (rbOf w)) := op2Src_spec hat.rep
  have ho12 := operands_spec (u := u) (w := w) hat
  refine rcDone_spec hat.rep (fun d hd => ?_) hs
  obtain ⟨ho, hv⟩ := hmid _ _ _ d h1.src h2.src hd
  refine ⟨only_append.2 ⟨only_append.2 ⟨h1.only.of_scratch scratch0 d,
    h2.only.of_scratch scratch1 d⟩, ho⟩, ?_⟩
  rw [run_append, hv, ho12.first, ho12.second]

/-- Code over both operands in `x0` and `x1`. -/
theorem emitX0X1_spec {code : List Instr} {f : Word → Word → Word} (hat : At E prev s n h)
    (hs : E.For s) (hcode : ∀ h : Host, Only 0 code ∧
      (run E.table u code h).get 0 = f (h.get 0) (h.get 1)) :
    Compiled E u n h (emitX0X1 E prev w code) (s.clearR31.operate w f) := by
  obtain ⟨ho1, hv1, -⟩ := op1X0_spec (u := u) (w := w) hat
  have hrep := hat.rep.scratch (u := u) (t := E.table) scratch0 ho1
  obtain ⟨ho2, hv2, hk2⟩ := op2X1_spec (u := u) (w := w) hrep
  refine rcX0_spec hat.rep ?_ ?_ (hs.operate f)
  · exact only_append.2 ⟨only_append.2 ⟨ho1, ho2.of_scratch scratch1 0⟩, (hcode h).1⟩
  · rw [run_append, (hcode _).2, run_append, hv2, hk2 0 (by decide), hv1]

/-- Code over the second operand in `x1`. -/
theorem emitX1_spec {code : List Instr} {g : Word → Word} (hat : At E prev s n h) (hs : E.For s)
    (hcode : ∀ h : Host, Only 0 code ∧ (run E.table u code h).get 0 = g (h.get 1)) :
    Compiled E u n h (emitX1 E w code) (s.clearR31.operate w fun _ b => g b) := by
  obtain ⟨ho, hv, -⟩ := op2X1_spec (u := u) (w := w) hat.rep
  refine rcX0_spec hat.rep ?_ ?_ (hs.operate _)
  · exact only_append.2 ⟨ho.of_scratch scratch1 0, (hcode h).1⟩
  · rw [run_append, (hcode _).2, hv]

/-! ## Single instructions -/

theorem get_alu {op : AluOp} {d a b : XReg} (hd : d ≠ 31) :
    (run E.table u [.alu op d a b] h).get d = op.eval (h.get a) (h.get b) :=
  Host.get_set_self h hd

theorem get_aluImm {op : AluImmOp} {d a : XReg} (hd : d ≠ 31) :
    (run E.table u [.aluImm op d a v] h).get d = op.eval (h.get a) v :=
  Host.get_set_self h hd

theorem get_movImm {d : XReg} (hd : d ≠ 31) : (run E.table u [.movImm d v] h).get d = v :=
  Host.get_set_self h hd

theorem get_unary {op : UnaryOp} {d a : XReg} (hd : d ≠ 31) :
    (run E.table u [.unary op d a] h).get d = op.eval (h.get a) :=
  Host.get_set_self h hd

theorem only_one {d : XReg} {I : Instr} (hI : I.stores = false) (hd : I.dest = some d) :
    Only d [I] := by
  refine only_cons.2 ⟨⟨hI, fun q hq => Or.inl ?_⟩, only_nil⟩
  exact (Option.some.inj (hd.symm.trans hq)).symm

/-! ## Binary operates -/

theorem binopImm_eval {kind : AluOp} {op : AluImmOp} (hb : binopImm E w kind = some (op, v))
    (a : Word) : op.eval a v = kind.eval a (litOf w) := by
  unfold binopImm at hb
  cases kind <;> dsimp only at hb <;>
    first
      | (cases hb <;> rfl)
      | (split at hb <;> cases hb; rfl)

theorem binop_spec {kind : AluOp} {f : Word → Word → Word} (hf : ∀ a b, kind.eval a b = f a b)
    (hat : At E prev s n h) (hs : E.For s) :
    Compiled E u n h (binop E prev w kind) (s.clearR31.operate w f) := by
  have hput := hs.operate (w := w) f
  unfold binop
  dsimp only
  by_cases hl : isLit w = true
  · rw [if_pos hl]
    rw [opnd_lit hl] at hput
    cases hb : binopImm E w kind with
    | some p =>
      obtain ⟨op, v⟩ := p
      refine rcDone_op1 (m := fun a d => [.aluImm op d a v]) (g := fun a => f a (litOf w)) hat
        (fun h a d _ hd => ⟨only_one rfl rfl, ?_⟩) hput
      rw [get_aluImm hd.ne.2.2.2.2, binopImm_eval hb, hf]
    | none =>
      refine rcDone_op1 (m := fun a d => [.movImm 1 (litOf w), .alu kind d a 1])
        (g := fun a => f a (litOf w)) hat (fun h a d ha hd => ⟨?_, ?_⟩) hput
      · exact only_append.2 ⟨(only_one rfl rfl).of_scratch scratch1 d, only_one rfl rfl⟩
      · rw [run_cons, get_alu hd.ne.2.2.2.2, hf, step, Host.get_set_of_ne h ha.ne.1,
          Host.get_set_self h (by decide)]
  · rw [if_neg hl]
    rw [opnd_reg hl] at hput
    refine rcDone_op12 (m := fun a b d => [.alu kind d a b]) (g := f) hat
      (fun h a b d _ _ hd => ⟨only_one rfl rfl, ?_⟩) hput
    rw [get_alu hd.ne.2.2.2.2, hf]

/-- BIS with R31 first. -/
theorem emitMove_spec (hat : At E prev s n h) (hs : E.For s) (hra : raOf w = 31) :
    Compiled E u n h (emitMove E prev w) (s.clearR31.operate w fun a b => a ||| b) := by
  have hput := hs.operate (w := w) fun a b => a ||| b
  rw [hra, val_31, show (0 : Word) ||| E.opnd s w = E.opnd s w from BitVec.zero_or] at hput
  refine rcDone_spec hat.rep (fun d hd => ?_) hput
  have hd31 : d ≠ 31 := Left.ne hd |>.2.2.2.2
  by_cases hl : isLit w = true
  · rw [if_pos hl, opnd_lit hl]
    exact ⟨only_one rfl rfl, get_movImm hd31⟩
  rw [if_neg hl, opnd_reg hl]
  by_cases hr : rbOf w = 31
  · rw [if_pos hr, hr, val_31]
    exact ⟨only_one rfl rfl, get_movImm hd31⟩
  rw [if_neg hr]
  cases hp : E.hostOf (rbOf w) with
  | some p =>
    dsimp only
    by_cases hpd : p = d
    · rw [if_neg (not_not.2 hpd), ← hpd]
      exact ⟨only_nil, hat.rep.val_pin hr hp⟩
    · rw [if_pos hpd]
      exact ⟨only_one rfl rfl, (get_unary hd31).trans (hat.rep.val_pin hr hp)⟩
  | none =>
    dsimp only
    by_cases hf : prev = some (rbOf w)
    · rw [if_pos hf]
      by_cases h0 : d = 0
      · rw [if_pos h0, h0]
        exact ⟨only_nil, (hat.x0 _ hf).2⟩
      · rw [if_neg h0]
        exact ⟨only_one rfl rfl, (get_unary hd31).trans (hat.x0 _ hf).2⟩
    · rw [if_neg hf]
      exact ⟨only_one rfl rfl, (Host.get_set_self h hd31).trans (hat.rep.val_mem hr hp)⟩

/-! ## Longwords -/

/-- The longword sum or difference of `a`, shifted, and `b`. -/
def longOp (sh : Nat) (issub : Bool) (a b : BitVec 32) : BitVec 32 :=
  if issub then a <<< sh - b else a <<< sh + b

/-- A write of `x0` and its extension to the destination. -/
theorem sxtw_x0 {I : Instr} {d : XReg} {x : BitVec 32} (hd : Left d) (hI : I.stores = false)
    (h0 : I.dest = some 0)
    (hv : (step E.table u h I).get 0 = x.setWidth 64) :
    Only d [I, .unary .sxtw d 0] ∧
    (run E.table u [I, .unary .sxtw d 0] h).get d = x.signExtend 64 := by
  refine ⟨only_append.2 ⟨(only_one hI h0).of_scratch scratch0 d, only_one rfl rfl⟩, ?_⟩
  rw [run_cons, get_unary hd.ne.2.2.2.2, hv]
  exact congrArg (BitVec.signExtend 64) (lo_setWidth x)

theorem longLit_spec {sh : Nat} {issub : Bool} {lit : BitVec 32} {a d : XReg} (hd : Left d) :
    Only d (longLit sh issub lit a d) ∧
    (run E.table u (longLit sh issub lit a d) h).get d =
      (longOp sh issub (lo (h.get a)) lit).signExtend 64 := by
  have hval {h : Host} {base : XReg} {y : BitVec 32} (hb : lo (h.get base) = y) :
      Only d [if issub then .subImmW 0 base lit else .addImmW 0 base lit, .unary .sxtw d 0] ∧
      (run E.table u
        [if issub then .subImmW 0 base lit else .addImmW 0 base lit, .unary .sxtw d 0] h).get d =
        (if issub then y - lit else y + lit).signExtend 64 := by
    cases issub with
    | true => exact sxtw_x0 hd rfl rfl ((Host.get_set_self h (by decide)).trans (by rw [hb]; rfl))
    | false => exact sxtw_x0 hd rfl rfl ((Host.get_set_self h (by decide)).trans (by rw [hb]; rfl))
  unfold longLit longOp
  by_cases hsh : sh = 0
  · rw [hsh, BitVec.shiftLeft_zero]
    exact hval rfl
  · dsimp only
    rw [if_pos hsh, if_pos hsh]
    have h0 : lo ((step E.table u h (.lslImmW 0 a sh)).get 0) = lo (h.get a) <<< sh := by
      rw [step, Host.get_set_self h (by decide), lo_setWidth]
    obtain ⟨ho, hv⟩ := hval h0
    refine ⟨only_append.2 ⟨(only_one rfl rfl).of_scratch scratch0 d, ho⟩, ?_⟩
    rw [run_append]
    exact hv

theorem longReg_spec {sh : Nat} {issub : Bool} {a b d : XReg} (hb : Right b) (hd : Left d) :
    Only d (longReg sh issub a b d) ∧
    (run E.table u (longReg sh issub a b d) h).get d =
      (longOp sh issub (lo (h.get a)) (lo (h.get b))).signExtend 64 := by
  have h0 (h : Host) (x y : BitVec 32) (hxy : x = y) : (h.set 0 (x.setWidth 64)).get 0 =
      y.setWidth 64 := by
    rw [Host.get_set_self h (by decide), hxy]
  unfold longReg longOp
  by_cases hsh : sh = 0
  · rw [hsh, if_neg (not_not.2 rfl), if_neg (not_not.2 rfl), BitVec.shiftLeft_zero]
    cases issub with
    | true => exact sxtw_x0 hd rfl rfl (h0 h _ _ (congrArg _ (BitVec.shiftLeft_zero _)))
    | false => exact sxtw_x0 hd rfl rfl (h0 h _ _ (congrArg _ (BitVec.shiftLeft_zero _)))
  · rw [if_pos hsh, if_pos hsh]
    cases issub with
    | true =>
      have hv : (step E.table u (step E.table u h (.lslImmW 0 a sh))
          (.aluW .sub 0 0 b 0)).get 0 = (lo (h.get a) <<< sh - lo (h.get b)).setWidth 64 := by
        refine h0 _ _ _ ?_
        rw [step, Host.get_set_self h (by decide), lo_setWidth, Host.get_set_of_ne h hb.ne.1,
          BitVec.shiftLeft_zero]
        rfl
      obtain ⟨ho, hv⟩ := sxtw_x0 hd rfl rfl hv
      exact ⟨only_append.2 ⟨(only_one rfl rfl).of_scratch scratch0 d, ho⟩, hv⟩
    | false => exact sxtw_x0 hd rfl rfl (h0 h _ _ (BitVec.add_comm _ _))

theorem longShift_spec {sh : Nat} {a d : XReg} (hd : Left d) :
    Only d (longShift sh a d) ∧ (run E.table u (longShift sh a d) h).get d =
      (lo (h.get a) <<< sh).signExtend 64 := by
  unfold longShift
  by_cases hsh : sh = 0
  · rw [hsh, if_neg (not_not.2 rfl), BitVec.shiftLeft_zero]
    exact ⟨only_one rfl rfl, get_unary hd.ne.2.2.2.2⟩
  · rw [if_pos hsh]
    exact sxtw_x0 hd rfl rfl (Host.get_set_self h (by decide))

theorem litOf_lt (w : Ins) : (litOf w).toNat < 256 := by
  unfold litOf
  rw [BitVec.toNat_setWidth, BitVec.toNat_and]
  have : ((w >>> 13).toNat &&& (0xff : Ins).toNat) ≤ 0xff := Nat.and_le_right
  omega

/-- A literal is its own longword. -/
theorem sext_lit : (lo (litOf w)).signExtend 64 = litOf w := by
  have hlt := litOf_lt w
  generalize litOf w = x at hlt
  have hlo : (lo x).toNat = x.toNat := by
    unfold lo
    rw [BitVec.toNat_setWidth]
    omega
  have hm : (lo x).msb = false := by
    rw [BitVec.msb_eq_decide, hlo]
    exact decide_eq_false (by omega)
  refine BitVec.eq_of_toNat_eq ?_
  rw [BitVec.signExtend_eq_setWidth_of_msb_false hm, BitVec.toNat_setWidth, hlo]
  omega

theorem lo_zero : lo 0 = 0 := by decide

theorem sext_zero : (lo 0).signExtend 64 = (0 : Word) := by decide

theorem emitLong_spec {sh : Nat} {issub : Bool} {f : Word → Word → Word}
    (hf : ∀ a b, f a b = (longOp sh issub (lo a) (lo b)).signExtend 64) (hat : At E prev s n h)
    (hs : E.For s) :
    Compiled E u n h (emitLong E prev w sh issub) (s.clearR31.operate w f) := by
  have hput := hs.operate (w := w) f
  rw [hf] at hput
  unfold emitLong
  dsimp only
  by_cases hrc : rcOf w = 31
  · rw [if_pos hrc]
    exact none_spec hat.rep hrc hput
  rw [if_neg hrc]
  by_cases h1 : raOf w = 31 ∧ issub = false
  · rw [if_pos h1]
    have hz (x : BitVec 32) : longOp sh issub (lo 0) x = x := by
      rw [h1.2, lo_zero]
      exact (congrArg (· + x) (BitVec.zero_shiftLeft sh)).trans (BitVec.zero_add x)
    rw [h1.1, val_31, hz] at hput
    by_cases hl : isLit w = true
    · rw [opnd_lit hl, sext_lit] at hput
      refine rcDone_spec hat.rep (fun d hd => ?_) hput
      rw [if_pos hl]
      exact ⟨only_one rfl rfl, get_movImm (Left.ne hd).2.2.2.2⟩
    rw [opnd_reg hl] at hput
    by_cases hr : rbOf w = 31
    · rw [hr, val_31, sext_zero] at hput
      refine rcDone_spec hat.rep (fun d hd => ?_) hput
      rw [if_neg hl, if_pos hr]
      exact ⟨only_one rfl rfl, get_movImm (Left.ne hd).2.2.2.2⟩
    · simp only [if_neg hl, if_neg hr]
      exact rcDone_op2 (m := fun b d => [.unary .sxtw d b])
        (g := fun b => (lo b).signExtend 64) hat.rep
        (fun h b d _ hd => ⟨only_one rfl rfl, get_unary hd.ne.2.2.2.2⟩) hput
  rw [if_neg h1]
  by_cases h2 : raOf w ≠ 31 ∧ isLit w = false ∧ rbOf w = 31
  · rw [if_pos h2]
    have hz (x : BitVec 32) : longOp sh issub x (lo 0) = x <<< sh := by
      rw [lo_zero]
      unfold longOp
      cases issub with
      | true => exact BitVec.sub_zero _
      | false => exact BitVec.add_zero _
    rw [opnd_reg (by rw [h2.2.1]; decide), h2.2.2, val_31, hz] at hput
    exact rcDone_op1 (g := fun a => (lo a <<< sh).signExtend 64) hat
      (fun h a d _ hd => longShift_spec hd) hput
  rw [if_neg h2]
  by_cases hl : isLit w = true
  · rw [if_pos hl]
    rw [opnd_lit hl] at hput
    exact rcDone_op1
      (g := fun a => (longOp sh issub (lo a) (lo (litOf w))).signExtend 64) hat
      (fun h a d _ hd => longLit_spec hd) hput
  · rw [if_neg hl]
    rw [opnd_reg hl] at hput
    exact rcDone_op12
      (g := fun a b => (longOp sh issub (lo a) (lo b)).signExtend 64) hat
      (fun h a b d _ hb hd => longReg_spec hb hd) hput

/-- `movFromReg32` into a scratch register. -/
theorem movFromReg32_spec {d : XReg} {r : GReg} (hrep : Rep E s n h) (hr : r ≠ 31) (hd : d ≠ 31) :
    Only d (movFromReg32 E d r) ∧
    lo ((run E.table u (movFromReg32 E d r) h).get d) = lo (E.val s r) ∧
    ∀ q, q ≠ d → (run E.table u (movFromReg32 E d r) h).get q = h.get q := by
  unfold movFromReg32
  cases hp : E.hostOf r with
  | some p =>
    refine ⟨only_one rfl rfl, ?_, fun q hq => Host.get_set_of_ne h hq⟩
    rw [get_unary hd, hrep.val_pin hr hp]
    exact lo_setWidth _
  | none =>
    refine ⟨only_one rfl rfl, ?_, fun q hq => Host.get_set_of_ne h hq⟩
    rw [← hrep.val_mem hr hp]
    exact (congrArg lo (Host.get_set_self h hd)).trans (lo_setWidth _)

theorem emitMull_spec (hat : At E prev s n h) (hs : E.For s) :
    Compiled E u n h (emitMull E w)
      (s.clearR31.operate w fun a b => sextU64L (sextU64L a * sextU64L b)) := by
  have hput := hs.operate (w := w) fun a b => sextU64L (sextU64L a * sextU64L b)
  have himm (h : Host) (d : XReg) (v : Word) (hd : d ≠ 31) : Only d [.movImm d v] ∧
      lo ((run E.table u [.movImm d v] h).get d) = lo v ∧
      ∀ q, q ≠ d → (run E.table u [.movImm d v] h).get q = h.get q :=
    ⟨only_one rfl rfl, congrArg lo (get_movImm hd), fun q hq => Host.get_set_of_ne h hq⟩
  -- the two operands, of which the low halves count
  have h1 : ∃ code, (if raOf w = 31 then [.movImm 0 0] else movFromReg32 E 0 (raOf w)) = code ∧
      Only 0 code ∧ lo ((run E.table u code h).get 0) = lo (E.val s (raOf w)) := by
    refine ⟨_, rfl, ?_⟩
    split
    · rename_i hr
      rw [hr, val_31]
      exact ⟨(himm h 0 0 (by decide)).1, (himm h 0 0 (by decide)).2.1⟩
    · rename_i hr
      obtain ⟨ho, hv, -⟩ := movFromReg32_spec (u := u) (d := 0) hat.rep hr
        (by decide)
      exact ⟨ho, hv⟩
  obtain ⟨c1, hc1, ho1, hv1⟩ := h1
  have hrep := hat.rep.scratch (u := u) (t := E.table) scratch0 ho1
  have h2 : ∃ code, (if isLit w then [.movImm 1 (litOf w)]
        else if rbOf w = 31 then [.movImm 1 0] else movFromReg32 E 1 (rbOf w)) = code ∧
      Only 1 code ∧
      lo ((run E.table u code (run E.table u c1 h)).get 1) =
        lo (E.opnd s w) ∧
      (run E.table u code (run E.table u c1 h)).get 0 =
        (run E.table u c1 h).get 0 := by
    refine ⟨_, rfl, ?_⟩
    split
    · rename_i hl
      rw [opnd_lit hl]
      obtain ⟨ho, hv, hk⟩ := himm (run E.table u c1 h) 1 (litOf w) (by decide)
      exact ⟨ho, hv, hk 0 (by decide)⟩
    rename_i hl
    rw [opnd_reg hl]
    split
    · rename_i hr
      rw [hr, val_31]
      obtain ⟨ho, hv, hk⟩ := himm (run E.table u c1 h) 1 0 (by decide)
      exact ⟨ho, hv, hk 0 (by decide)⟩
    · rename_i hr
      obtain ⟨ho, hv, hk⟩ := movFromReg32_spec (u := u) (d := 1) hrep hr
        (by decide)
      exact ⟨ho, hv, hk 0 (by decide)⟩
  obtain ⟨c2, hc2, ho2, hv2, hk2⟩ := h2
  unfold emitMull
  rw [hc1, hc2]
  refine rcX0_spec hat.rep ?_ ?_ hput
  · refine only_append.2 ⟨only_append.2 ⟨ho1, ho2.of_scratch scratch1 0⟩, ?_⟩
    exact only_append.2 ⟨only_one rfl rfl, only_one rfl rfl⟩
  · rw [run_append, run_append, run_cons, get_unary (by decide), step,
      Host.get_set_self _ (by decide), hk2, hv1, hv2, BitVec.shiftLeft_zero]
    exact sxtw_eq (lo_mull _ _).symm

/-! ## Scaled quadwords and compares -/

theorem emitScaled_spec {sh : Word} {kind : AluOp} {f : Word → Word → Word}
    (hf : ∀ a b : Word, kind.eval (a <<< sh.toNat) b = f a b) (hat : At E prev s n h)
    (hs : E.For s) :
    Compiled E u n h (emitScaled E prev w sh kind) (s.clearR31.operate w f) := by
  obtain ⟨ho1, hv1, -⟩ := op1X0_spec (u := u) (w := w) hat
  have ho1' : Only 0 (op1X0 E prev w ++ [.aluImm .lsl 0 0 sh]) :=
    only_append.2 ⟨ho1, only_one rfl rfl⟩
  have hrep := hat.rep.scratch (u := u) (t := E.table) scratch0 ho1'
  obtain ⟨ho2, hv2, hk2⟩ := op2X1_spec (u := u) (w := w) hrep
  refine rcX0_spec hat.rep ?_ ?_ (hs.operate f)
  · exact only_append.2 ⟨only_append.2 ⟨ho1', ho2.of_scratch scratch1 0⟩, only_one rfl rfl⟩
  · rw [run_append, get_alu (by decide), run_append, hv2, hk2 0 (by decide), run_append,
      get_aluImm (by decide), hv1]
    exact hf _ _

/-- A write of the flags and of a result that they decide. -/
theorem cset_spec {I : Instr} {d : XReg} {cc : CondCode} {p : Bool} (hd : Left d)
    (hI : I.stores = false) (h0 : I.dest = none)
    (hv : cc.holds (step E.table u h I).flags = p) :
    Only d [I, .cset d cc] ∧ (run E.table u [I, .cset d cc] h).get d = ofBool p := by
  constructor
  · refine only_cons.2 ⟨⟨hI, fun q hq => ?_⟩, only_one rfl rfl⟩
    rw [h0] at hq
    cases hq
  · rw [← hv]
    exact Host.get_set_self _ hd.ne.2.2.2.2

theorem emitCompare_spec {cc : CondCode} {p : Word → Word → Bool}
    (hp : ∀ a b, cc.holds (subFlags a b) = p a b) (hat : At E prev s n h) (hs : E.For s) :
    Compiled E u n h (emitCompare E prev w cc)
      (s.clearR31.operate w fun a b => ofBool (p a b)) := by
  have hput := hs.operate (w := w) fun a b => ofBool (p a b)
  unfold emitCompare
  dsimp only
  by_cases hl : isLit w = true
  · rw [if_pos hl]
    rw [opnd_lit hl] at hput
    exact rcDone_op1 (m := fun a d => [.cmpImm a (litOf w), .cset d cc])
      (g := fun a => ofBool (p a (litOf w))) hat
      (fun h a d _ hd => cset_spec hd rfl rfl (hp _ _)) hput
  · rw [if_neg hl]
    rw [opnd_reg hl] at hput
    exact rcDone_op12 (m := fun a b d => [.cmp a b, .cset d cc])
      (g := fun a b => ofBool (p a b)) hat
      (fun h a b d _ _ hd => cset_spec hd rfl rfl (hp _ _)) hput

/-! ## Conditional moves -/

/-- What a CMOV tests. -/
def cmovTest (w : Ins) : Instr :=
  if funcOf w = 0x14 ∨ funcOf w = 0x16 then .tstImm 0 1 else .tst 0 0

/-- A CMOV's function and the interpreter's condition for it. -/
theorem cmov_tests {cond : IntCond}
    (hc : (funcOf w, cond) ∈ [(0x24, IntCond.eq), (0x26, .ne), (0x44, .lt), (0x46, .ge),
      (0x64, .le), (0x66, .gt), (0x14, .lbs), (0x16, .lbc)]) :
    (cmovCond w).holds (step E.table u h (cmovTest w)).flags =
      cond.holds (h.get 0) := by
  obtain ⟨heq, hne, hlt, hge, hle, hgt⟩ := cmov_holds (h.get 0)
  have htst : (step E.table u h (.tst 0 0)).flags = logicFlags (h.get 0) :=
    congrArg logicFlags BitVec.and_self
  unfold cmovTest cmovCond
  simp only [List.mem_cons, Prod.mk.injEq, List.not_mem_nil, or_false] at hc
  rcases hc with ⟨hf, rfl⟩ | ⟨hf, rfl⟩ | ⟨hf, rfl⟩ | ⟨hf, rfl⟩ | ⟨hf, rfl⟩ | ⟨hf, rfl⟩ | ⟨hf, rfl⟩ |
    ⟨hf, rfl⟩ <;> rw [hf]
  · exact (congrArg (CondCode.holds · .eq) htst).trans heq
  · exact (congrArg (CondCode.holds · .ne) htst).trans hne
  · exact (congrArg (CondCode.holds · .lt) htst).trans hlt
  · exact (congrArg (CondCode.holds · .ge) htst).trans hge
  · exact (congrArg (CondCode.holds · .le) htst).trans hle
  · exact (congrArg (CondCode.holds · .gt) htst).trans hgt
  · rfl
  · rfl

theorem emitCmov_spec {cond : IntCond}
    (hc : ∀ h : Host, (cmovCond w).holds (step E.table u h (cmovTest w)).flags =
      cond.holds (h.get 0)) (hat : At E prev s n h) (hs : E.For s) :
    Compiled E u n h (emitCmov E prev w) (s.clearR31.cmov w cond.holds) := by
  have hput : Puts E s (rcOf w)
      (if cond.holds (E.val s (raOf w)) then E.opnd s w else E.val s (rcOf w))
      (s.clearR31.cmov w cond.holds) := by
    unfold IntState.cmov
    rw [hs.rav]
    split
    · exact hs.operate fun _ b => b
    · intro i hi
      split
      · rename_i he
        rw [he]
        exact clearR31_r _
      · exact Function.update_of_ne hi 0 s.r
  unfold emitCmov
  by_cases hrc : rcOf w = 31
  · rw [if_pos hrc]
    exact none_spec hat.rep hrc hput
  rw [if_neg hrc]
  obtain ⟨ho1, hv1, -⟩ := op1X0_spec (u := u) (w := w) hat
  have hrep1 := hat.rep.scratch (u := u) (t := E.table) scratch0 ho1
  obtain ⟨ho2, hv2, hk2⟩ := op2X1_spec (u := u) (w := w) hrep1
  have hrep2 := hrep1.scratch (u := u) (t := E.table) scratch1 ho2
  obtain ⟨ho3, hv3, hk3⟩ := movFromReg_spec (u := u) (d := 9) hrep2 hrc (by decide)
  have h9 : (9 : XReg) ∈ scratchRegs := by decide
  have htest : Only 9 [cmovTest w] := by
    refine only_cons.2 ⟨?_, only_nil⟩
    unfold cmovTest
    split
    · exact ⟨rfl, fun q hq => by cases hq⟩
    · exact ⟨rfl, fun q hq => by cases hq⟩
  have htg (h : Host) (q : XReg) : (step E.table u h (cmovTest w)).get q = h.get q := by
    refine step_get ?_
    unfold cmovTest
    split <;> exact fun e => by cases e
  refine store_spec hat.rep hrc h9 (v := if cond.holds (E.val s (raOf w)) then E.opnd s w
    else E.val s (rcOf w)) ?_ ?_ hput
  · refine only_append.2 ⟨only_append.2 ⟨only_append.2 ⟨ho1.of_scratch scratch0 9,
      ho2.of_scratch scratch1 9⟩, ho3⟩, ?_⟩
    exact only_append.2 ⟨htest, only_one rfl rfl⟩
  · rw [run_append, run_append, run_append]
    generalize hg1 : run E.table u (op1X0 E prev w) h = g1 at *
    generalize hg2 : run E.table u (op2X1 E w) g1 = g2 at *
    generalize hg3 : run E.table u (movFromReg E 9 (rcOf w)) g2 = g3 at *
    have hcond := hc g3
    rw [hk3 0 (by decide), hk2 0 (by decide), hv1] at hcond
    have hrun : (run E.table u [cmovTest w, .csel 9 1 9 (cmovCond w)] g3).get 9 =
        if (cmovCond w).holds (step E.table u g3 (cmovTest w)).flags
        then (step E.table u g3 (cmovTest w)).get 1
        else (step E.table u g3 (cmovTest w)).get 9 := Host.get_set_self _ (by decide)
    rw [htg, htg, hcond, hv3, hk3 1 (by decide), hv2] at hrun
    exact hrun

end Alphabox.Jit
