import Alphabox.Jit.Proof.Operates

/-!
# Byte manipulation compiled

EXT, INS and MSK are shifts by eight times the low three bits of the second operand, which the host
takes from the register's eightfold; with a literal they are one bit field or one mask. ZAP and
ZAPNOT are one mask, from a table or a constant.
-/

namespace Alphabox.Jit

open Fp Cpu

variable {E : Emit} {prev : Option GReg} {s s' : IntState} {h : Host} {w : Ins} {v n : Word}
  {u : Word → Word} {op : SafeOp} {a b d : XReg}

/-! ## Sizes -/

theorem bwxSize_le (w : Ins) : bwxSize w ≤ 3 := Nat.and_le_right

theorem bwxSize_cases (w : Ins) :
    bwxSize w = 0 ∨ bwxSize w = 1 ∨ bwxSize w = 2 ∨ bwxSize w = 3 := by
  have := bwxSize_le w
  omega

theorem bwxBits_le (w : Ins) : bwxBits w ≤ 64 := by
  unfold bwxBits
  rcases bwxSize_cases w with h | h | h | h <;> rw [h] <;> decide

theorem bwxMask_eq (w : Ins) : bwxMask w = ones (bwxBits w) := by
  unfold bwxMask bwxBits
  rcases bwxSize_cases w with h | h | h | h <;> rw [h] <;> decide

/-- The mask of a quadword keeps everything. -/
theorem and_bwxMask (hq : bwxSize w = 3) (x : Word) : x &&& bwxMask w = x := by
  rw [bwxMask_eq, show bwxBits w = 64 by simp [bwxBits, hq]]
  exact and_ones_64

/-- What a byte manipulation computes. -/
def bwxVal (w : Ins) (op : SafeOp) (x y : Word) : Word :=
  match op with
  | .extl => extLow (bwxMask w) x y
  | .exth => extHigh (bwxMask w) x y
  | .insl => insLow (bwxMask w) x y
  | .insh => insHigh (bwxMask w) x y
  | .mskl => mskLow (bwxMask w) x y
  | .mskh => mskHigh (bwxMask w) x y
  | _ => if funcOf w = 0x30 then x &&& byteMask false y else x &&& byteMask true y

/-! ## Masks of bytes -/

/-- A mask built byte by byte. -/
theorem foldl_mask_bit (p : Nat → Prop) [DecidablePred p] (n j : Nat) (hj : j < 64) :
    ((List.range n).foldl (fun m i => m ||| if p i then (0xff : Word) <<< (8 * i) else 0)
      0).getLsbD j = (decide (j < 8 * n) && decide (p (j / 8))) := by
  have hff (k : Nat) : (0xff : Word).getLsbD k = decide (k < 8) := by
    rw [show (0xff : Word) = ones 8 from rfl]
    exact getLsbD_ones (by decide) k
  induction n with
  | zero =>
    rw [decide_eq_false (by omega), Bool.false_and]
    exact BitVec.getLsbD_zero
  | succ n ih =>
    rw [List.range_succ, List.foldl_append, List.foldl_cons, List.foldl_nil, BitVec.getLsbD_or, ih]
    by_cases hn : j / 8 = n
    · rw [hn, decide_eq_false (show ¬j < 8 * n by omega),
        decide_eq_true (show j < 8 * (n + 1) by omega), Bool.false_and, Bool.false_or,
        Bool.true_and]
      split
      · rename_i hp
        rw [BitVec.getLsbD_shiftLeft, hff, decide_eq_true hj, decide_eq_true hp,
          decide_eq_false (show ¬j < 8 * n by omega), decide_eq_true (show j - 8 * n < 8 by omega)]
        rfl
      · rename_i hp
        rw [decide_eq_false hp]
        exact BitVec.getLsbD_zero
    · have hb : (if p n then (0xff : Word) <<< (8 * n) else 0).getLsbD j = false := by
        split
        · rw [BitVec.getLsbD_shiftLeft, hff]
          by_cases hlt : j < 8 * n
          · simp [hlt]
          · simp [show ¬j - 8 * n < 8 by omega]
        · exact BitVec.getLsbD_zero
      rw [hb, Bool.or_false]
      congr 1
      exact decide_eq_decide.2 (by omega)

theorem zapnotMask_bit {y : Word} {j : Nat} (hj : j < 64) :
    (zapnotMask (y &&& 0xff)).getLsbD j = y.getLsbD (j / 8) := by
  have hff : (0xff : Word).getLsbD (j / 8) = true := by
    rw [show (0xff : Word) = ones 8 from rfl, getLsbD_ones (by decide)]
    exact decide_eq_true (by omega)
  have hor (m : Word) (i : Nat) : (if (y &&& 0xff).getLsbD i then m ||| (0xff : Word) <<< (8 * i)
      else m) = m ||| if (y &&& 0xff).getLsbD i then (0xff : Word) <<< (8 * i) else 0 := by
    split
    · rfl
    · exact BitVec.or_zero.symm
  unfold zapnotMask
  simp only [hor]
  rw [foldl_mask_bit (fun i => (y &&& 0xff).getLsbD i = true) 8 j hj,
    decide_eq_true (show j < 8 * 8 by omega), Bool.true_and, Bool.decide_eq_true,
    BitVec.getLsbD_and, hff, Bool.and_true]

/-- ZAPNOT's mask, and ZAP's. -/
theorem byteMask_true (y : Word) : byteMask true y = zapnotMask (y &&& 0xff) := by
  refine BitVec.eq_of_getLsbD_eq fun j hj => ?_
  unfold byteMask
  rw [foldl_mask_bit (fun i => y.getLsbD i = true) 8 j hj, zapnotMask_bit hj,
    decide_eq_true (show j < 8 * 8 by omega), Bool.true_and, Bool.decide_eq_true]

theorem byteMask_false (y : Word) : byteMask false y = ~~~zapnotMask (y &&& 0xff) := by
  refine BitVec.eq_of_getLsbD_eq fun j hj => ?_
  unfold byteMask
  rw [foldl_mask_bit (fun i => y.getLsbD i = false) 8 j hj, BitVec.getLsbD_not, zapnotMask_bit hj,
    decide_eq_true hj, Bool.true_and, Bool.true_and]
  cases y.getLsbD (j / 8) <;> rfl

/-! ## By a literal -/

theorem andConst_spec {m : Word} (ha : Left a) (hd : Left d) :
    Only d (andConst E a d m) ∧
    (run E.table u (andConst E a d m) h).get d = h.get a &&& m := by
  have hd31 := hd.ne.2.2.2.2
  unfold andConst
  by_cases h0 : m = 0
  · rw [if_pos h0, h0]
    exact ⟨only_one rfl rfl, (get_movImm hd31).trans BitVec.and_zero.symm⟩
  rw [if_neg h0]
  by_cases h1 : m = 0xffffffffffffffff
  · rw [if_pos h1, h1, show h.get a &&& 0xffffffffffffffff = h.get a from BitVec.and_allOnes]
    by_cases hda : d = a
    · rw [if_neg (not_not.2 hda), hda]
      exact ⟨only_nil, rfl⟩
    · rw [if_pos hda]
      exact ⟨only_one rfl rfl, get_unary hd31⟩
  rw [if_neg h1]
  split
  · exact ⟨only_one rfl rfl, get_aluImm hd31⟩
  · refine ⟨only_append.2 ⟨(only_one rfl rfl).of_scratch (by decide) d, only_one rfl rfl⟩, ?_⟩
    rw [run_cons, get_alu hd31, step, Host.get_set_of_ne h ha.ne.2.1,
      Host.get_set_self h (by decide)]
    rfl

/-- A move that is left out where there is nothing to move. -/
theorem move_spec (hd : Left d) : Only d (if d ≠ a then [.unary .mov d a] else []) ∧
    (run E.table u (if d ≠ a then [.unary .mov d a] else []) h).get d = h.get a := by
  by_cases hda : d = a
  · rw [if_neg (not_not.2 hda), hda]
    exact ⟨only_nil, rfl⟩
  · rw [if_pos hda]
    exact ⟨only_one rfl rfl, get_unary hd.ne.2.2.2.2⟩

theorem lit_pos (w : Ins) : (litOf w &&& 7).toNat * 8 = (bytePos (litOf w)).toNat := by
  rw [bytePos_toNat, and_7]

theorem bytePos_le (y : Word) : (bytePos y).toNat ≤ 56 := by
  rw [bytePos_toNat]
  omega

theorem and_7_ne {y : Word} : y &&& 7 ≠ 0 ↔ (y &&& 7).toNat ≠ 0 := by
  rw [ne_eq, ne_eq, ← BitVec.toNat_inj]
  rfl

/-- `(64 - pos * 8) % 64`. -/
theorem lit_high (w : Ins) : (64 - (litOf w &&& 7).toNat * 8) % 64 =
    (bytePosHigh (litOf w)).toNat := by
  rw [bytePosHigh_toNat, and_7]

theorem lit_high_of_ne {y : Word} (hp : (y &&& 7).toNat ≠ 0) :
    64 - (y &&& 7).toNat * 8 = (bytePosHigh y).toNat := by
  rw [bytePosHigh_toNat, and_7] at *
  omega

theorem bwxLit_spec (ha : Left a) (hd : Left d)
    (hop : op ∈ [SafeOp.extl, .exth, .insl, .insh, .mskl, .mskh, .zap]) :
    Only d (bwxLit E w op a d) ∧ (run E.table u (bwxLit E w op a d) h).get d =
      bwxVal w op (h.get a) (litOf w) := by
  have hd31 := hd.ne.2.2.2.2
  have hm := bwxBits_le w
  have hle := bytePos_le (litOf w)
  simp only [List.mem_cons, List.not_mem_nil, or_false] at hop
  rcases hop with rfl | rfl | rfl | rfl | rfl | rfl | rfl <;> unfold bwxLit bwxVal <;> dsimp only
  · -- EXTxL
    unfold extLow
    rw [lit_pos, bwxMask_eq, BitVec.ushiftRight_eq']
    split
    · rename_i hw
      rw [hw.1, BitVec.ushiftRight_zero, show bwxBits w = 64 by omega, and_ones_64]
      exact move_spec hd
    · refine ⟨only_one rfl rfl, (Host.get_set_self h hd31).trans ?_⟩
      exact ubfx_min hm
  · -- EXTxH
    unfold extHigh
    rw [lit_high, bwxMask_eq, BitVec.shiftLeft_eq']
    split
    · rename_i hz
      rw [hz, BitVec.shiftLeft_zero]
      exact andConst_spec ha hd
    split
    · rename_i hms
      exact ⟨only_one rfl rfl, (get_movImm hd31).trans (shl_mask_zero hm hms).symm⟩
    · rename_i hms
      refine ⟨only_one rfl rfl, (Host.get_set_self h hd31).trans ?_⟩
      exact ubfiz_mask hm (by omega)
  · -- INSxL
    unfold insLow
    rw [lit_pos, bwxMask_eq, BitVec.shiftLeft_eq']
    split
    · rename_i hw
      rw [hw.1, BitVec.shiftLeft_zero, show bwxBits w = 64 by omega, and_ones_64]
      exact move_spec hd
    · refine ⟨only_one rfl rfl, (Host.get_set_self h hd31).trans ?_⟩
      exact ubfiz_min hm
  · -- INSxH
    unfold insHigh
    rw [bwxMask_eq]
    by_cases hp : (litOf w &&& 7).toNat = 0
    · rw [if_pos (Or.inl hp), if_neg (by rw [and_7_ne]; exact not_not.2 hp)]
      exact ⟨only_one rfl rfl, get_movImm hd31⟩
    · rw [if_pos (and_7_ne.2 hp), lit_high_of_ne hp, BitVec.ushiftRight_eq']
      split
      · rename_i hms
        refine ⟨only_one rfl rfl, (get_movImm hd31).trans (mask_shr_zero hm ?_).symm⟩
        rcases hms with h0 | hms
        · exact absurd h0 hp
        · exact hms
      · rename_i hms
        refine ⟨only_one rfl rfl, (Host.get_set_self h hd31).trans ?_⟩
        exact ubfx_mask hm (by omega)
  · -- MSKxL
    unfold mskLow
    rw [lit_pos, BitVec.shiftLeft_eq']
    exact andConst_spec ha hd
  · -- MSKxH
    unfold mskHigh
    by_cases hp : (litOf w &&& 7).toNat = 0
    · rw [if_neg (not_not.2 hp), if_neg (by rw [and_7_ne]; exact not_not.2 hp)]
      obtain ⟨ho, hv⟩ := andConst_spec (E := E) (u := u) (h := h)
        (m := 0xffffffffffffffff) ha hd
      exact ⟨ho, hv.trans BitVec.and_allOnes⟩
    · rw [if_pos hp, if_pos (and_7_ne.2 hp), lit_high_of_ne hp, BitVec.ushiftRight_eq']
      exact andConst_spec ha hd
  · -- ZAP and ZAPNOT
    rw [byteMask_true, byteMask_false]
    split
    · exact andConst_spec ha hd
    · exact andConst_spec ha hd

/-! ## By a register -/

/-- The count in `x9`, its negative, and what follows. -/
theorem count_spec {code : List Instr} {x : Word}
    (hc : ∀ g : Host, (∀ q, q ≠ 9 → g.get q = h.get q) → g.get 9 = h.get b <<< 3 →
      Only d code ∧ (run E.table u code g).get d = x) :
    Only d (.aluImm .lsl 9 b 3 :: code) ∧
    (run E.table u (.aluImm .lsl 9 b 3 :: code) h).get d = x := by
  obtain ⟨ho, hv⟩ := hc (step E.table u h (.aluImm .lsl 9 b 3))
    (fun q hq => Host.get_set_of_ne h hq) (Host.get_set_self h (by decide))
  exact ⟨only_append.2 ⟨(only_one rfl rfl).of_scratch (by decide) d, ho⟩, hv⟩

theorem count_neg_spec {code : List Instr} {x : Word}
    (hc : ∀ g : Host, (∀ q, q ≠ 9 → g.get q = h.get q) → g.get 9 = -(h.get b <<< 3) →
      Only d code ∧ (run E.table u code g).get d = x) :
    Only d ([.aluImm .lsl 9 b 3, .unary .neg 9 9] ++ code) ∧
    (run E.table u ([.aluImm .lsl 9 b 3, .unary .neg 9 9] ++ code) h).get d = x := by
  refine count_spec fun g hg h9 => ?_
  obtain ⟨ho, hv⟩ := hc (step E.table u g (.unary .neg 9 9))
    (fun q hq => (Host.get_set_of_ne g hq).trans (hg q hq))
    ((Host.get_set_self g (by decide)).trans (congrArg (- ·) h9))
  exact ⟨only_append.2 ⟨(only_one rfl rfl).of_scratch (by decide) d, ho⟩, hv⟩

/-- A shift into the destination, cut to the size there. -/
theorem shift_trunc {aop : AluOp} {x : Word} (hd : Left d)
    (hv : aop.eval (h.get a) (h.get 9) = x) :
    Only d ([.alu aop d a 9] ++
      if bwxSize w ≠ 3 then [.aluImm .and d d (bwxMask w)] else []) ∧
    (run E.table u ([.alu aop d a 9] ++
      if bwxSize w ≠ 3 then [.aluImm .and d d (bwxMask w)] else []) h).get d =
      x &&& bwxMask w := by
  have hd31 := hd.ne.2.2.2.2
  rw [← hv]
  by_cases hq : bwxSize w = 3
  · rw [if_neg (not_not.2 hq), and_bwxMask hq]
    exact ⟨only_one rfl rfl, get_alu hd31⟩
  · rw [if_pos hq]
    refine ⟨only_append.2 ⟨only_one rfl rfl, only_one rfl rfl⟩, ?_⟩
    rw [run_append, get_aluImm hd31, get_alu hd31]
    rfl

/-- The data cut to its size in `x10`, then a shift. -/
theorem trunc_shift {o : AluOp} {e : XReg} {x : Word} (he : e ≠ 31)
    (hd : e = d ∨ e ∈ scratchRegs)
    (hv : o.eval (h.get a &&& bwxMask w) (h.get 9) = x) :
    Only d (if bwxSize w ≠ 3 then [.aluImm .and 10 a (bwxMask w), .alu o e 10 9]
      else [.alu o e a 9]) ∧
    (run E.table u
      (if bwxSize w ≠ 3 then [.aluImm .and 10 a (bwxMask w), .alu o e 10 9]
      else [.alu o e a 9]) h).get e = x ∧
    ∀ q, q ≠ 10 → q ≠ e → (run E.table u
      (if bwxSize w ≠ 3 then [.aluImm .and 10 a (bwxMask w), .alu o e 10 9]
      else [.alu o e a 9]) h).get q = h.get q := by
  have hlast (src : XReg) : Only d [.alu o e src 9] := by
    refine only_cons.2 ⟨⟨rfl, fun q hq => ?_⟩, only_nil⟩
    cases hq
    exact hd
  rw [← hv]
  by_cases hq : bwxSize w = 3
  · rw [if_neg (not_not.2 hq), and_bwxMask hq]
    exact ⟨hlast a, get_alu he, fun q _ hqe => Host.get_set_of_ne h hqe⟩
  · rw [if_pos hq]
    refine ⟨only_append.2 ⟨(only_one rfl rfl).of_scratch (by decide) d, hlast 10⟩, ?_,
      fun q h10 hqe => (Host.get_set_of_ne _ hqe).trans (Host.get_set_of_ne h h10)⟩
    rw [run_cons, get_alu he, step, Host.get_set_self h (by decide),
      Host.get_set_of_ne h (by decide)]
    rfl

/-- The mask shifted to its bytes in `x10`. -/
theorem mask_shift (aop : AluOp) (d : XReg) (m : Word) :
    Only d [.movImm 10 m, .alu aop 10 10 9] ∧
    (run E.table u [.movImm 10 m, .alu aop 10 10 9] h).get 10 = aop.eval m (h.get 9) ∧
    ∀ q, q ≠ 10 →
      (run E.table u [.movImm 10 m, .alu aop 10 10 9] h).get q = h.get q := by
  have ho : Only 10 [.movImm 10 m, .alu aop 10 10 9] :=
    only_append.2 ⟨only_one rfl rfl, only_one rfl rfl⟩
  refine ⟨ho.of_scratch (by decide) d, ?_,
    fun q hq => (Host.get_set_of_ne _ hq).trans (Host.get_set_of_ne h hq)⟩
  rw [run_cons, get_alu (by decide), step, Host.get_set_self h (by decide),
    Host.get_set_of_ne h (by decide)]

/-- The end of INSxH and MSKxH: a choice by the position. -/
theorem tst_csel {x y : Word} {other : XReg} (hd : Left d) (hx : h.get 10 = x)
    (hy : h.get other = y) :
    Only d [.tstImm b 7, .csel d 10 other .ne] ∧
    (run E.table u [.tstImm b 7, .csel d 10 other .ne] h).get d =
      if h.get b &&& 7 ≠ 0 then x else y := by
  refine ⟨only_cons.2 ⟨⟨rfl, fun q hq => by cases hq⟩, only_one rfl rfl⟩, ?_⟩
  refine (Host.get_set_self _ hd.ne.2.2.2.2).trans ?_
  have hcc : CondCode.holds (logicFlags (h.get b &&& 7)) .ne = decide (h.get b &&& 7 ≠ 0) := by
    change (!decide (h.get b &&& 7 = 0)) = _
    rw [← decide_not]
  change (if CondCode.holds (logicFlags (h.get b &&& 7)) .ne = true then h.get 10
    else h.get other) = _
  rw [hcc, hx, hy]
  simp only [decide_eq_true_eq]

/-- The mask of ZAPNOT, from the table. -/
theorem zap_spec : Only 9 [.aluImm .and 9 b 0xff, .movImm 10 E.table, .ldrTable 9 10 9] ∧
    (run E.table u
      [.aluImm .and 9 b 0xff, .movImm 10 E.table, .ldrTable 9 10 9] h).get 9 =
      zapnotMask (h.get b &&& 0xff) ∧
    ∀ q, q ≠ 9 → q ≠ 10 → (run E.table u
      [.aluImm .and 9 b 0xff, .movImm 10 E.table, .ldrTable 9 10 9] h).get q = h.get q := by
  have h9 : (step E.table u (step E.table u h (.aluImm .and 9 b 0xff))
      (.movImm 10 E.table)).get 9 = h.get b &&& 0xff :=
    (Host.get_set_of_ne _ (by decide)).trans (Host.get_set_self h (by decide))
  have h10 : (step E.table u (step E.table u h (.aluImm .and 9 b 0xff))
      (.movImm 10 E.table)).get 10 = E.table := Host.get_set_self _ (by decide)
  have hlt : h.get b &&& 0xff < 256 := by
    rw [BitVec.lt_def, BitVec.toNat_and]
    exact Nat.lt_succ_of_le Nat.and_le_right
  refine ⟨?_, ?_, fun q hq9 hq10 => ?_⟩
  · have hm : Only 10 [.movImm 10 E.table] := only_one rfl rfl
    have hl : Only 9 [.ldrTable 9 10 9] := only_one rfl rfl
    have ha : Only 9 [.aluImm .and 9 b 0xff] := only_one rfl rfl
    exact only_append.2 ⟨ha, only_append.2 ⟨hm.of_scratch (by decide) 9, hl⟩⟩
  · refine (Host.get_set_self _ (by decide)).trans ?_
    rw [h9, h10, if_pos ⟨rfl, hlt⟩]
  · exact (Host.get_set_of_ne _ hq9).trans
      ((Host.get_set_of_ne _ hq10).trans (Host.get_set_of_ne h hq9))

theorem bwxReg_spec (ha : Left a) (hb : Right b) (hd : Left d)
    (hop : op ∈ [SafeOp.extl, .exth, .insl, .insh, .mskl, .mskh, .zap]) :
    Only d (bwxReg E w op a b d) ∧ (run E.table u (bwxReg E w op a b d) h).get d =
      bwxVal w op (h.get a) (h.get b) := by
  have hd31 := hd.ne.2.2.2.2
  have h10 : (10 : XReg) ∈ scratchRegs := by decide
  simp only [List.mem_cons, List.not_mem_nil, or_false] at hop
  rcases hop with rfl | rfl | rfl | rfl | rfl | rfl | rfl <;> unfold bwxReg bwxVal <;> dsimp only
  · -- EXTxL
    unfold extLow
    rw [BitVec.ushiftRight_eq']
    refine count_spec fun g hg h9 => shift_trunc hd ?_
    rw [hg a ha.ne.2.1, h9]
    exact congrArg (h.get a >>> ·) (shl_3_count _)
  · -- EXTxH
    unfold extHigh
    rw [BitVec.shiftLeft_eq']
    refine count_neg_spec fun g hg h9 => shift_trunc hd ?_
    rw [hg a ha.ne.2.1, h9]
    exact congrArg (h.get a <<< ·) (neg_shl_3_count _)
  · -- INSxL
    unfold insLow
    rw [BitVec.shiftLeft_eq']
    refine count_spec fun g hg h9 => ?_
    obtain ⟨ho, hv, -⟩ := trunc_shift (E := E) (u := u) (h := g) (w := w)
      (a := a) (d := d) (o := .lsl) (e := d) hd31 (Or.inl rfl) rfl
    refine ⟨ho, hv.trans ?_⟩
    rw [hg a ha.ne.2.1, h9]
    exact congrArg ((h.get a &&& bwxMask w) <<< ·) (shl_3_count _)
  · -- INSxH
    unfold insHigh
    rw [BitVec.ushiftRight_eq', List.append_assoc]
    refine count_neg_spec fun g hg h9 => ?_
    obtain ⟨ho, hv, hk⟩ := trunc_shift (E := E) (u := u) (h := g) (w := w)
      (a := a) (d := d) (o := .lsr) (e := 10) (by decide) (Or.inr h10) rfl
    rw [hg a ha.ne.2.1, h9] at hv
    have hb' := (hk b hb.ne.2.2.1 hb.ne.2.2.1).trans (hg b hb.ne.2.1)
    obtain ⟨ho2, hv2⟩ := tst_csel (E := E) (u := u) (b := b) hd hv
      (Host.get_zr _)
    refine ⟨only_append.2 ⟨ho, ho2⟩, ?_⟩
    rw [run_append, hv2, hb']
    exact congrArg (fun k => if h.get b &&& 7 ≠ 0 then (h.get a &&& bwxMask w) >>> k else 0)
      (neg_shl_3_count _)
  · -- MSKxL
    unfold mskLow
    rw [BitVec.shiftLeft_eq']
    refine count_spec fun g hg h9 => ?_
    obtain ⟨ho, hv, hk⟩ := mask_shift (E := E) (u := u) (h := g) .lsl d
      (bwxMask w)
    refine ⟨only_append.2 ⟨ho, only_one rfl rfl⟩, ?_⟩
    change (run E.table u ([_, _] ++ [.alu .bic d a 10]) g).get d = _
    rw [run_append, get_alu hd31, hv, hk a ha.ne.2.2.1, hg a ha.ne.2.1, h9]
    exact congrArg (fun k => h.get a &&& ~~~(bwxMask w <<< k)) (shl_3_count _)
  · -- MSKxH
    unfold mskHigh
    rw [BitVec.ushiftRight_eq']
    refine count_neg_spec fun g hg h9 => ?_
    obtain ⟨ho, hv, hk⟩ := mask_shift (E := E) (u := u) (h := g) .lsr d
      (bwxMask w)
    have h10 : (step E.table u (run E.table u
        [.movImm 10 (bwxMask w), .alu .lsr 10 10 9] g) (.alu .bic 10 a 10)).get 10 =
        h.get a &&& ~~~(bwxMask w >>> (bytePosHigh (h.get b)).toNat) := by
      rw [step, Host.get_set_self _ (by decide), hv, hk a ha.ne.2.2.1, hg a ha.ne.2.1, h9]
      exact congrArg (fun k => h.get a &&& ~~~(bwxMask w >>> k)) (neg_shl_3_count _)
    have hkeep (q : XReg) (h9 : q ≠ 9) (h10 : q ≠ 10) :
        (step E.table u (run E.table u
          [.movImm 10 (bwxMask w), .alu .lsr 10 10 9] g) (.alu .bic 10 a 10)).get q = h.get q :=
      (Host.get_set_of_ne _ h10).trans ((hk q h10).trans (hg q h9))
    obtain ⟨ho2, hv2⟩ := tst_csel (E := E) (u := u) (b := b) hd h10
      (hkeep a ha.ne.2.1 ha.ne.2.2.1)
    rw [hkeep b hb.ne.2.1 hb.ne.2.2.1] at hv2
    exact ⟨only_append.2 ⟨ho, only_append.2 ⟨(only_one rfl rfl).of_scratch (by decide) d, ho2⟩⟩,
      hv2⟩
  · -- ZAP and ZAPNOT
    obtain ⟨ho, hv, hk⟩ := zap_spec (E := E) (u := u) (h := h) (b := b)
    have ho' := ho.of_scratch (by decide) d
    rw [byteMask_true, byteMask_false, run_append, get_alu hd31, run_append]
    by_cases hf : funcOf w = 0x30
    · rw [if_pos hf, if_pos hf, get_unary (by decide), hv]
      have hm : Only 9 [.unary .mvn 9 9] := only_one rfl rfl
      refine ⟨only_append.2 ⟨only_append.2 ⟨ho', hm.of_scratch (by decide) d⟩,
        only_one rfl rfl⟩, ?_⟩
      have hka : (run E.table u [.unary .mvn 9 9] (run E.table u
          [.aluImm .and 9 b 0xff, .movImm 10 E.table, .ldrTable 9 10 9] h)).get a = h.get a :=
        (Host.get_set_of_ne _ ha.ne.2.1).trans (hk a ha.ne.2.1 ha.ne.2.2.1)
      rw [hka]
      rfl
    · rw [if_neg hf, if_neg hf, run_nil, hv, hk a ha.ne.2.1 ha.ne.2.2.1]
      exact ⟨only_append.2 ⟨only_append.2 ⟨ho', only_nil⟩, only_one rfl rfl⟩, rfl⟩

/-- EXT, INS, MSK and ZAP. -/
theorem emitBwx_spec (hop : op ∈ [SafeOp.extl, .exth, .insl, .insh, .mskl, .mskh, .zap])
    (hat : At E prev s n h) (hs : E.For s) :
    Compiled E u n h (emitBwx E prev w op) (s.clearR31.operate w (bwxVal w op)) := by
  have hput := hs.operate (w := w) (bwxVal w op)
  unfold emitBwx
  dsimp only
  by_cases hrc : rcOf w = 31
  · rw [if_pos hrc]
    exact none_spec hat.rep hrc hput
  rw [if_neg hrc]
  by_cases hl : isLit w = true
  · rw [if_pos hl]
    rw [opnd_lit hl] at hput
    exact rcDone_op1 (g := fun x => bwxVal w op x (litOf w)) hat
      (fun h a d ha hd => bwxLit_spec ha hd hop) hput
  · rw [if_neg hl]
    rw [opnd_reg hl] at hput
    exact rcDone_op12 (g := bwxVal w op) hat
      (fun h a b d ha hb hd => bwxReg_spec ha hb hd hop) hput

end Alphabox.Jit
