import Alphabox.Jit.Block
import Alphabox.Jit.Proof.EmitOp

/-!
# Compiled blocks run as the interpreter does

`emitFrom_spec` follows a block's words from any of them on, with the value that `x0` forwards: the
code leaves for the PC that the interpreter reaches after the instructions it has counted, with the
same registers. `jit_chain` puts blocks together between the entry that loads the pins and the exit
that stores them.
-/

namespace Alphabox.Jit

open Fp Cpu

variable {E : Emit} {prev : Option GReg} {s s' : IntState} {h h' : Host} {w : Ins} {v n : Word}
  {u : Word → Word} {op : SafeOp} {pc pc' tag : Word}

/-! ## The count -/

theorem countAdd_only (k : Nat) : Only 27 (countAdd k) := by
  unfold countAdd addImm
  generalize BitVec.ofNat 64 k = v
  split
  · exact only_one rfl rfl
  split
  · exact only_one rfl rfl
  · have hm : Only 17 [.movImm 17 v] := only_one rfl rfl
    exact only_append.2 ⟨hm.of_scratch (by decide) 27, only_one rfl rfl⟩

/-- Counting changes `x27`, and at most `x17` besides. -/
theorem countAdd_spec (k : Nat) :
    (run E.table u (countAdd k) h).get 27 = h.get 27 + BitVec.ofNat 64 k ∧
    ∀ q, q ≠ 17 → q ≠ 27 → (run E.table u (countAdd k) h).get q = h.get q := by
  unfold countAdd addImm
  generalize BitVec.ofNat 64 k = v
  split
  · exact ⟨Host.get_set_self h (by decide), fun q _ hq => Host.get_set_of_ne h hq⟩
  split
  · refine ⟨(Host.get_set_self h (by decide)).trans ?_, fun q _ hq => Host.get_set_of_ne h hq⟩
    exact (BitVec.sub_eq_add_neg ..).trans (congrArg (h.get 27 + ·) BitVec.neg_neg)
  · refine ⟨(Host.get_set_self _ (by decide)).trans ?_,
      fun q h17 hq => (Host.get_set_of_ne _ hq).trans (Host.get_set_of_ne h h17)⟩
    rw [step, Host.get_set_of_ne h (by decide), Host.get_set_self h (by decide)]
    rfl

theorem Rep.countAdd (hrep : Rep E s n h) (k : Nat) :
    Rep E s (n + BitVec.ofNat 64 k) (run E.table u (countAdd k) h) := by
  obtain ⟨h27, hx⟩ := countAdd_spec (E := E) (u := u) (h := h) k
  refine ⟨fun i hi => ?_, by rw [h27, hrep.count]⟩
  refine Eq.trans (guest_congr (fun q hq _ _ => hx q ?_ (pinHosts_ne hq).2.2.1)
    (by rw [(countAdd_only k).r])) (hrep.regs i hi)
  exact (show q ≠ 17 from fun e => not_scratch hq (e ▸ by decide))

/-! ## Conditional branches -/

/-- The interpreter's condition for a branch. -/
def condOf (op : SafeOp) : IntCond :=
  match op with
  | .beq => .eq
  | .bne => .ne
  | .blt => .lt
  | .bge => .ge
  | .ble => .le
  | .bgt => .gt
  | .blbc => .lbc
  | _ => .lbs

/-- A branch that may not be taken. -/
def IsCond (op : SafeOp) : Prop := op ∈ [SafeOp.beq, .bne, .blt, .bge, .ble, .bgt, .blbc, .blbs]

instance : Decidable (IsCond op) := inferInstanceAs (Decidable (op ∈ _))

/-- The fetch of the tested register. -/
theorem condReg_spec (hat : At E prev s n h) (ra : GReg) :
    Only 0 (condReg E prev ra).1 ∧
    (run E.table u (condReg E prev ra).1 h).get (condReg E prev ra).2.1 = E.val s ra ∧
    (ra ≠ 31 → ∀ r, (condReg E prev ra).2.2 = some r →
      r ≠ 31 ∧ (run E.table u (condReg E prev ra).1 h).get 0 = E.val s r) := by
  unfold condReg
  by_cases hr : ra = 31
  · rw [if_pos hr, hr, val_31]
    exact ⟨only_one rfl rfl, get_movImm (by decide), fun hn => absurd rfl hn⟩
  rw [if_neg hr]
  cases hp : E.hostOf ra with
  | some p => exact ⟨only_nil, hat.rep.val_pin hr hp, fun _ => hat.x0⟩
  | none =>
    dsimp only
    by_cases hf : prev = some ra
    · rw [if_pos hf]
      exact ⟨only_nil, (hat.x0 _ hf).2, fun _ => hat.x0⟩
    · rw [if_neg hf]
      have hv : (run E.table u [.ldr 0 (E.slotOf ra)] h).get 0 = E.val s ra :=
        (Host.get_set_self h (by decide)).trans (hat.rep.val_mem hr hp)
      refine ⟨only_one rfl rfl, hv, fun _ r e => ?_⟩
      cases e
      exact ⟨hr, hv⟩

/-- The compare, if any, and the test: control goes on where the branch is not taken. -/
theorem condTest_spec (hop : IsCond op) {x : XReg} :
    (condTest op x).2.holds (run E.table u (condTest op x).1 h) =
      !(condOf op).holds (h.get x) ∧
    (∀ q, (run E.table u (condTest op x).1 h).get q = h.get q) ∧
    (run E.table u (condTest op x).1 h).r = h.r := by
  unfold IsCond at hop
  simp only [List.mem_cons, List.not_mem_nil, or_false] at hop
  rcases hop with rfl | rfl | rfl | rfl | rfl | rfl | rfl | rfl <;>
    refine ⟨?_, fun q => rfl, rfl⟩
  · rfl
  · exact (Bool.not_not _).symm
  · exact congrArg (! ·) (slt_zero_bit _).symm
  · exact (slt_zero_bit _).symm.trans (Bool.not_not _).symm
  · have hle := cc_le (h.get x) 0
    change (!(subFlags (h.get x) 0).z && _) = !(h.get x).sle 0
    rw [← hle]
    exact (Bool.not_not _).symm
  · exact (cc_le (h.get x) 0).trans (Bool.not_not _).symm
  · exact (Bool.not_not _).symm.trans (congrArg (! ·) (and_1_bit _).symm)
  · change (!(h.get x).getLsbD 0) = !!(h.get x &&& 1 == 0)
    rw [and_1_bit, Bool.not_not]

/-! ## What the interpreter does with terminators -/

theorem inta_straight (hc : classifyInta (funcOf w) = some op) : isTerminator op = false := by
  unfold classifyInta at hc
  split at hc <;> cases hc <;> rfl

theorem intl_straight {ext : Ext} {ra : GReg} (hc : classifyIntl ext ra (funcOf w) = some op) :
    isTerminator op = false := by
  unfold classifyIntl at hc
  split at hc <;> try split at hc
  all_goals cases hc
  all_goals rfl

theorem ints_straight (hc : classifyInts (funcOf w) = some op) : isTerminator op = false := by
  unfold classifyInts at hc
  split at hc <;> cases hc <;> rfl

theorem intm_straight (hc : classifyIntm (funcOf w) = some op) : isTerminator op = false := by
  unfold classifyIntm at hc
  split at hc <;> cases hc <;> rfl

theorem fpti_straight (hc : classifyFpti (funcOf w) = some op) : isTerminator op = false := by
  unfold classifyFpti at hc
  split at hc <;> cases hc <;> rfl

/-- A terminator's opcode. -/
theorem classify_terminator {ext : Ext} (hc : classify ext w = some op)
    (ht : isTerminator op = true) :
    (op = .jmp ∧ (w >>> 26).toNat = 0x1a ∧ ext.native8 = false) ∨
    (op = .br ∧ (w >>> 26).toNat = 0x30) ∨ (op = .bsr ∧ (w >>> 26).toNat = 0x34) ∨
    (IsCond op ∧ ((w >>> 26).toNat, condOf op) ∈ [(0x38, IntCond.lbc), (0x39, .eq), (0x3a, .lt),
      (0x3b, .le), (0x3c, .lbs), (0x3d, .ne), (0x3e, .ge), (0x3f, .gt)]) := by
  have hno {op' : SafeOp} (he : some op' = some op) (hf : isTerminator op' = false) : False := by
    cases he
    rw [hf] at ht
    cases ht
  have hcond {op' : SafeOp} {k : Nat} (he : some op' = some op) (hk : (w >>> 26).toNat = k)
      (hop : IsCond op') (hm : (k, condOf op') ∈ [(0x38, IntCond.lbc), (0x39, .eq), (0x3a, .lt),
        (0x3b, .le), (0x3c, .lbs), (0x3d, .ne), (0x3e, .ge), (0x3f, .gt)]) :
      IsCond op ∧ ((w >>> 26).toNat, condOf op) ∈ [(0x38, IntCond.lbc), (0x39, .eq),
        (0x3a, .lt), (0x3b, .le), (0x3c, .lbs), (0x3d, .ne), (0x3e, .ge), (0x3f, .gt)] := by
    cases he
    rw [hk]
    exact ⟨hop, hm⟩
  unfold classify at hc
  split at hc <;> rename_i hopc <;> unfold opcodeOf at hopc
  · exact (hno hc rfl).elim
  · exact (hno hc rfl).elim
  · exact (hno rfl (inta_straight hc)).elim
  · exact (hno rfl (intl_straight hc)).elim
  · exact (hno rfl (ints_straight hc)).elim
  · exact (hno rfl (intm_straight hc)).elim
  · split at hc
    · cases hc
    · rename_i h8
      cases hc
      exact Or.inl ⟨rfl, hopc, Bool.eq_false_of_not_eq_true h8⟩
  · exact (hno rfl (fpti_straight hc)).elim
  · cases hc
    exact Or.inr (Or.inl ⟨rfl, hopc⟩)
  · cases hc
    exact Or.inr (Or.inr (Or.inl ⟨rfl, hopc⟩))
  · exact Or.inr (Or.inr (Or.inr (hcond hc hopc (by decide) (by decide))))
  · exact Or.inr (Or.inr (Or.inr (hcond hc hopc (by decide) (by decide))))
  · exact Or.inr (Or.inr (Or.inr (hcond hc hopc (by decide) (by decide))))
  · exact Or.inr (Or.inr (Or.inr (hcond hc hopc (by decide) (by decide))))
  · exact Or.inr (Or.inr (Or.inr (hcond hc hopc (by decide) (by decide))))
  · exact Or.inr (Or.inr (Or.inr (hcond hc hopc (by decide) (by decide))))
  · exact Or.inr (Or.inr (Or.inr (hcond hc hopc (by decide) (by decide))))
  · exact Or.inr (Or.inr (Or.inr (hcond hc hopc (by decide) (by decide))))
  · cases hc

theorem execute_jmp (hs : E.For s) (h8 : E.ext.native8 = false) (hopc : (w >>> 26).toNat = 0x1a)
    (pc : Word) :
    execute E.model uemul64 s pc w = some (doJmp s.clearR31 w (pc + 4)) := by
  unfold execute
  rw [hopc]
  exact if_neg (by rw [show s.clearR31.ev8n = s.ev8n from rfl, hs.native, h8]; decide)

theorem execute_br (hs : E.For s) (hopc : (w >>> 26).toNat = 0x30 ∨ (w >>> 26).toNat = 0x34)
    (pc : Word) :
    execute E.model uemul64 s pc w = some (doBr s.clearR31 w (pc + 4)) := by
  have hn : ¬(s.clearR31.palMode && s.clearR31.ev8n) = true := by
    intro he
    obtain ⟨hp, hv⟩ := Bool.and_eq_true_iff.1 he
    have hfalse := hs.palNative (hs.pal.symm.trans hp)
    rw [show s.clearR31.ev8n = s.ev8n from rfl, hfalse] at hv
    cases hv
  unfold execute
  rcases hopc with hopc | hopc <;> rw [hopc] <;> exact if_neg hn

theorem execute_cond {cond : IntCond} (hm : ((w >>> 26).toNat, cond) ∈ [(0x38, IntCond.lbc),
      (0x39, .eq), (0x3a, .lt), (0x3b, .le), (0x3c, .lbs), (0x3d, .ne), (0x3e, .ge), (0x3f, .gt)])
    (pc : Word) : execute E.model uemul64 s pc w =
      some (s.clearR31, doBranch s.clearR31 w cond (pc + 4)) := by
  unfold execute
  simp only [List.mem_cons, Prod.mk.injEq, List.not_mem_nil, or_false] at hm
  rcases hm with ⟨hopc, rfl⟩ | ⟨hopc, rfl⟩ | ⟨hopc, rfl⟩ | ⟨hopc, rfl⟩ | ⟨hopc, rfl⟩ | ⟨hopc, rfl⟩ |
    ⟨hopc, rfl⟩ | ⟨hopc, rfl⟩ <;> rw [hopc] <;> rfl

/-! ## What is emitted for terminators -/

theorem Rep.clearR31 (hrep : Rep E s n h) : Rep E s.clearR31 n h := by
  refine hrep.congr (v := 0) fun i hi => ?_
  rw [slotOf_31, if_neg hi]
  exact Function.update_of_ne hi 0 s.r

/-- The link of BR and BSR. -/
theorem emitLink_spec (hrep : Rep E s n h) (hs : E.For s) (fall : Word) :
    Rep E (s.clearR31.setRav w (fall &&& ~~~3)) n
      (run E.table u (emitLink E w fall) h) := by
  have hput := hs.setRav (w := w) (fall &&& ~~~3)
  unfold emitLink
  by_cases hra : raOf w = 31
  · rw [if_neg (not_not.2 hra)]
    exact hrep.congr (hra ▸ hput)
  · rw [if_pos hra]
    exact (store_spec (q := 9) hrep hra (by decide) (only_one rfl rfl) (get_movImm (by decide))
      hput).rep

/-- A result's way to its register touches no other. -/
theorem movToReg_get {src q : XReg} {r : GReg} (hq : q ∉ pinHosts) :
    (run E.table u (movToReg E r src).code h).get q = h.get q := by
  unfold movToReg
  cases hp : E.hostOf r with
  | some p => exact Host.get_set_of_ne h fun e => hq (e ▸ hostOf_mem hp)
  | none => rfl

/-- JMP: the target in `x9`, and the link. -/
theorem emitJmp_spec (tag : Word) (hrep : Rep E s n h) (hs : E.For s) (ret : Word) :
    Rep E (s.clearR31.setRav w (ret &&& ~~~3)) n
      (run E.table u (emitJmp E tag w ret) h) ∧
    (run E.table u (emitJmp E tag w ret) h).get 9 =
      (E.val s (rbOf w) &&& ~~~3) ||| (tag &&& 3) := by
  have hput := hs.setRav (w := w) (ret &&& ~~~3)
  -- the target
  have htarget : ∃ code, emitJmp E tag w ret = code ++ (if raOf w ≠ 31 then
        .movImm 0 (ret &&& ~~~3) :: (movToReg E (raOf w) 0).code else []) ∧ Only 9 code ∧
      (run E.table u code h).get 9 = (E.val s (rbOf w) &&& ~~~3) ||| (tag &&& 3) := by
    refine ⟨_, rfl, ?_⟩
    have hfetch : Only 9 (if rbOf w = 31 then [.movImm 9 0] else movFromReg E 9 (rbOf w)) ∧
        (run E.table u
          (if rbOf w = 31 then [.movImm 9 0] else movFromReg E 9 (rbOf w)) h).get 9 =
          E.val s (rbOf w) := by
      split
      · rename_i hr
        rw [hr, val_31]
        exact ⟨only_one rfl rfl, get_movImm (by decide)⟩
      · rename_i hr
        obtain ⟨ho, hv, -⟩ := movFromReg_spec (u := u) (d := 9) hrep hr (by decide)
        exact ⟨ho, hv⟩
    by_cases ht : tag &&& 3 = 0
    · rw [if_neg (not_not.2 ht), ht, List.append_nil]
      refine ⟨only_append.2 ⟨hfetch.1, only_one rfl rfl⟩, ?_⟩
      rw [run_append, get_aluImm (by decide), hfetch.2]
      exact BitVec.or_zero.symm
    · rw [if_pos ht]
      refine ⟨only_append.2 ⟨only_append.2 ⟨hfetch.1, only_one rfl rfl⟩, only_one rfl rfl⟩, ?_⟩
      rw [run_append, get_aluImm (by decide), run_append, get_aluImm (by decide), hfetch.2]
      rfl
  obtain ⟨code, hcode, ho, hv⟩ := htarget
  rw [hcode]
  by_cases hra : raOf w = 31
  · rw [if_neg (not_not.2 hra), List.append_nil]
    exact ⟨(hrep.scratch (by decide) ho).congr (hra ▸ hput), hv⟩
  · rw [if_pos hra]
    have ho0 : Only 0 (code ++ [.movImm 0 (ret &&& ~~~3)]) :=
      only_append.2 ⟨ho.of_scratch (by decide) 0, only_one rfl rfl⟩
    have hv0 : (run E.table u (code ++ [.movImm 0 (ret &&& ~~~3)]) h).get 0 =
        ret &&& ~~~3 := by
      rw [run_append, get_movImm (by decide)]
    have hstore := store_spec hrep hra scratch0 ho0 hv0 hput
    rw [List.append_assoc] at hstore
    refine ⟨hstore.rep, ?_⟩
    rw [run_append, run_cons, movToReg_get (by decide), step, Host.get_set_of_ne _ (by decide), hv]

/-! ## A block from any of its words -/

theorem addrOf_succ (tag : Word) (i : Nat) : addrOf tag (i + 1) = addrOf tag i + 4 := by
  unfold addrOf
  rw [BitVec.ofNat_add, BitVec.mul_add, ← BitVec.add_assoc]
  rfl

theorem addrOf_low (tag : Word) (i : Nat) : addrOf tag i &&& 3 = tag &&& 3 := sameLow_add tag _

/-- No conditional branch names R31 but at the end of the block. -/
def NoR31 (ext : Ext) (words : List Ins) : Prop :=
  ∀ w ∈ words.dropLast, ∀ op, classify ext w = some op → isBranch op = true → raOf w ≠ 31

/-- A test of R31 puts zero in `x0` and leaves the note of what it holds as it was: within a block
the instruction behind it may be given that zero for another register. -/
theorem condReg_31_stale {r : GReg} (hv : E.val s r ≠ 0) :
    ¬At E (condReg E (some r) 31).2.2 s n (run E.table u (condReg E (some r) 31).1 h) := by
  intro hat
  have h0 := (hat.x0 r rfl).2
  rw [show (condReg E (some r) 31).1 = [.movImm 0 0] from rfl, get_movImm (by decide)] at h0
  exact hv h0.symm

/-- What a block does from its word `i` on: the interpreter goes on for some instructions, and the
code leaves with their count where it goes. -/
def RunsFrom (E : Emit) (u : Word → Word) (fetch : Word → Ins) (tag : Word) (i : Nat)
    (words : List Ins) (s : IntState) (n : Word) (h : Host) (c : List Piece × Exit) : Prop :=
  ∃ k s', interp E.model fetch k (s, addrOf tag i) =
      some (s', (runBlock E.table u c.1 c.2 h).2) ∧
    Rep E s' (n + BitVec.ofNat 64 (i + k)) (runBlock E.table u c.1 c.2 h).1 ∧ E.For s' ∧
    (words ≠ [] → 0 < k)

/-- One instruction, and the rest of the block. -/
theorem RunsFrom.next {fetch : Word → Ins} {i : Nat} {w : Ins} {words words' : List Ins} {g : Host}
    {c c' : List Piece × Exit}
    (hx : execute E.model uemul64 s (addrOf tag i) w = some (s', addrOf tag (i + 1)))
    (hw : fetch (addrOf tag i) = w) (hr : RunsFrom E u fetch tag (i + 1) words s' n g c)
    (hc : runBlock E.table u c'.1 c'.2 h = runBlock E.table u c.1 c.2 g) :
    RunsFrom E u fetch tag i words' s n h c' := by
  obtain ⟨k, t, hk, hrep, hfor, -⟩ := hr
  refine ⟨k + 1, t, ?_, ?_, hfor, fun _ => Nat.succ_pos k⟩
  · unfold interp
    rw [hw, hx, hc]
    exact hk
  · rw [hc, show i + (k + 1) = i + 1 + k by omega]
    exact hrep

/-- One instruction that ends the block's run. -/
theorem RunsFrom.last {fetch : Word → Ins} {i : Nat} {w : Ins} {words : List Ins}
    {c : List Piece × Exit} (s' : IntState)
    (hx : execute E.model uemul64 s (addrOf tag i) w =
      some (s', (runBlock E.table u c.1 c.2 h).2))
    (hw : fetch (addrOf tag i) = w) (hfor : E.For s')
    (hrep : Rep E s' (n + BitVec.ofNat 64 (i + 1)) (runBlock E.table u c.1 c.2 h).1) :
    RunsFrom E u fetch tag i words s n h c := by
  refine ⟨1, s', ?_, hrep, hfor, fun _ => Nat.one_pos⟩
  unfold interp
  rw [hw, hx]
  rfl

/-! ### The shapes of `emitFrom` -/

variable {i : Nat} {ws : List Ins}

theorem emitFrom_straight (hc : classify E.ext w = some op) (ht : isTerminator op = false) :
    emitFrom E tag i prev (w :: ws) =
      (.code (emitOp E prev w op).code ::
        (emitFrom E tag (i + 1) (emitOp E prev w op).holds ws).1,
      (emitFrom E tag (i + 1) (emitOp E prev w op).holds ws).2) := by
  rw [emitFrom, hc]
  cases op <;> first
    | rfl
    | cases ht

/-- A conditional branch at the end of a block. -/
theorem emitFrom_last (hc : classify E.ext w = some op) (hop : IsCond op) :
    emitFrom E tag i prev [w] =
      ([.code (countAdd (i + 1) ++ (condReg E prev (raOf w)).1 ++
        (condTest op (condReg E prev (raOf w)).2.1).1)],
      .branch (condTest op (condReg E prev (raOf w)).2.1).2
        (addrOf tag (i + 1) + disp21 w * 4) (addrOf tag (i + 1))) := by
  unfold IsCond at hop
  simp only [List.mem_cons, List.not_mem_nil, or_false] at hop
  rw [emitFrom, hc]
  rcases hop with rfl | rfl | rfl | rfl | rfl | rfl | rfl | rfl <;> rfl

/-- A conditional branch that the block runs on through. -/
theorem emitFrom_mid {w' : Ins} (hc : classify E.ext w = some op) (hop : IsCond op) :
    emitFrom E tag i prev (w :: w' :: ws) =
      (.code ((condReg E prev (raOf w)).1 ++ (condTest op (condReg E prev (raOf w)).2.1).1) ::
        .exit (condTest op (condReg E prev (raOf w)).2.1).2 (countAdd (i + 1))
          (addrOf tag (i + 1) + disp21 w * 4) ::
        (emitFrom E tag (i + 1) (condReg E prev (raOf w)).2.2 (w' :: ws)).1,
      (emitFrom E tag (i + 1) (condReg E prev (raOf w)).2.2 (w' :: ws)).2) := by
  unfold IsCond at hop
  simp only [List.mem_cons, List.not_mem_nil, or_false] at hop
  rw [emitFrom, hc]
  rcases hop with rfl | rfl | rfl | rfl | rfl | rfl | rfl | rfl <;> rfl

/-! ### Branches -/

theorem runBlock_code {l : List Instr} {ps : List Piece} {e : Exit} :
    runBlock E.table u (.code l :: ps) e h = runBlock E.table u ps e (run E.table u l h) := rfl

theorem runBlock_exit {t : Test} {l : List Instr} {target : Word} {ps : List Piece} {e : Exit} :
    runBlock E.table u (.exit t l target :: ps) e h =
      if t.holds h then runBlock E.table u ps e h else (run E.table u l h, target) := rfl

theorem Rep.same (hrep : Rep E s n h) (hx : ∀ q, h'.get q = h.get q) (hr : h'.r = h.r) :
    Rep E s n h' := by
  refine ⟨fun i hi => ?_, (hx 27).trans hrep.count⟩
  exact Eq.trans (guest_congr (fun q _ _ _ => hx q) (by rw [hr])) (hrep.regs i hi)

theorem At.clearR31 (hat : At E prev s n h) : At E prev s.clearR31 n h := by
  refine ⟨hat.rep.clearR31, fun r e => ?_⟩
  obtain ⟨hr, hv⟩ := hat.x0 r e
  refine ⟨hr, hv.trans ?_⟩
  rw [val_of_ne hr, val_of_ne hr]
  exact (Function.update_of_ne (slotOf_ne hr) 0 s.r).symm

theorem At.countAdd (hat : At E prev s n h) (k : Nat) :
    At E prev s (n + BitVec.ofNat 64 k) (run E.table u (countAdd k) h) := by
  refine ⟨hat.rep.countAdd k, fun r e => ?_⟩
  obtain ⟨hr, hv⟩ := hat.x0 r e
  exact ⟨hr, ((countAdd_spec k).2 0 (by decide) (by decide)).trans hv⟩

/-- The fetch and the compare of a conditional branch, and which way it goes. -/
theorem cond_spec (hat : At E prev s n h) (hs : E.For s) (hop : IsCond op) :
    Rep E s n (run E.table u ((condReg E prev (raOf w)).1 ++
      (condTest op (condReg E prev (raOf w)).2.1).1) h) ∧
    (condTest op (condReg E prev (raOf w)).2.1).2.holds
      (run E.table u ((condReg E prev (raOf w)).1 ++
        (condTest op (condReg E prev (raOf w)).2.1).1) h) =
      !(condOf op).holds (s.clearR31.rav w) ∧
    (raOf w ≠ 31 → At E (condReg E prev (raOf w)).2.2 s n
      (run E.table u ((condReg E prev (raOf w)).1 ++
        (condTest op (condReg E prev (raOf w)).2.1).1) h)) := by
  obtain ⟨ho, hv, hx0⟩ := condReg_spec (u := u) hat (raOf w)
  obtain ⟨ht, hg, hr⟩ := condTest_spec (E := E) (u := u)
    (h := run E.table u (condReg E prev (raOf w)).1 h)
    (x := (condReg E prev (raOf w)).2.1) hop
  have hrep := (hat.rep.scratch (u := u) (t := E.table) scratch0 ho).same hg hr
  rw [run_append, hs.rav, ← hv]
  exact ⟨hrep, ht, fun hne => ⟨hrep, fun r e => (hx0 hne r e).imp_right (hg 0).trans⟩⟩

/-- The interpreter at a conditional branch. -/
theorem execute_branch (hc : classify E.ext w = some op) (hop : IsCond op) :
    execute E.model uemul64 s (addrOf tag i) w = some (s.clearR31,
      if (condOf op).holds (s.clearR31.rav w) then addrOf tag (i + 1) + disp21 w * 4
      else addrOf tag (i + 1)) := by
  have ht : isTerminator op = true := by
    revert hop
    cases op <;> decide
  rcases classify_terminator hc ht with ⟨rfl, -⟩ | ⟨rfl, -⟩ | ⟨rfl, -⟩ | ⟨-, hm⟩
  · exact absurd hop (by decide)
  · exact absurd hop (by decide)
  · exact absurd hop (by decide)
  · rw [execute_cond hm, addrOf_succ]
    rfl

/-! ## The whole of a block -/

variable {fetch : Word → Ins}

/-- The words are the ones that `fetch` finds from the word `i` of a block on. -/
def Here (fetch : Word → Ins) (tag : Word) (i : Nat) (words : List Ins) : Prop :=
  ∀ j w, words[j]? = some w → fetch (addrOf tag (i + j)) = w

theorem Here.head (hf : Here fetch tag i (w :: ws)) : fetch (addrOf tag i) = w := hf 0 w rfl

theorem Here.tail (hf : Here fetch tag i (w :: ws)) : Here fetch tag (i + 1) ws := by
  intro j w' hj
  have h := hf (j + 1) w' hj
  rwa [show i + (j + 1) = i + 1 + j by omega] at h

theorem NoR31.tail {ext : Ext} (hn : NoR31 ext (w :: ws)) : NoR31 ext ws := by
  intro w' hw'
  refine hn w' ?_
  cases ws with
  | nil => cases hw'
  | cons _ _ => exact List.mem_cons_of_mem w hw'

/-- The end of the block's words: the code leaves for the next. -/
theorem emitFrom_nil_spec (hat : At E prev s n h) (hs : E.For s) :
    RunsFrom E u fetch tag i [] s n h (emitFrom E tag i prev []) :=
  ⟨0, s, rfl, hat.rep.countAdd i, hs, fun hn => absurd rfl hn⟩

theorem emitFrom_jmp_spec (hc : classify E.ext w = some .jmp) (hat : At E prev s n h)
    (hs : E.For s) (hw : fetch (addrOf tag i) = w) :
    RunsFrom E u fetch tag i [w] s n h (emitFrom E tag i prev [w]) := by
  have hshape : emitFrom E tag i prev [w] =
      ([.code (emitJmp E tag w (addrOf tag (i + 1)) ++ countAdd (i + 1))], .computed) := by
    rw [emitFrom, hc]
  obtain ⟨hrep, h9⟩ := emitJmp_spec (u := u) (w := w) tag hat.rep hs (addrOf tag (i + 1))
  rcases classify_terminator hc rfl with ⟨-, hopc, h8⟩ | ⟨he, -⟩ | ⟨he, -⟩ | ⟨hop, -⟩
  · have hx := execute_jmp hs h8 hopc (addrOf tag i)
    have hfor : E.For (s.clearR31.setRav w (addrOf tag (i + 1) &&& ~~~3)) := by
      exact ⟨hs.pal, hs.sde, hs.palNative, hs.native, hs.ev8⟩
    rw [hshape]
    refine RunsFrom.last (s.clearR31.setRav w (addrOf tag (i + 1) &&& ~~~3)) ?_ hw hfor ?_
    · rw [hx, ← addrOf_succ]
      unfold doJmp runBlock runBlock
      rw [run_append, (countAdd_spec (i + 1)).2 9 (by decide) (by decide), h9, hs.rb, addrOf_low]
    · unfold runBlock runBlock
      rw [run_append]
      exact hrep.countAdd (i + 1)
  · cases he
  · cases he
  · exact absurd hop (by decide)

theorem emitFrom_br_spec (hc : classify E.ext w = some op) (hop : op = .br ∨ op = .bsr)
    (hat : At E prev s n h) (hs : E.For s) (hw : fetch (addrOf tag i) = w) :
    RunsFrom E u fetch tag i [w] s n h (emitFrom E tag i prev [w]) := by
  have hshape : emitFrom E tag i prev [w] =
      ([.code (emitLink E w (addrOf tag (i + 1)) ++ countAdd (i + 1))],
        .goto (addrOf tag (i + 1) + disp21 w * 4)) := by
    rw [emitFrom, hc]
    rcases hop with rfl | rfl <;> rfl
  have hopc : (w >>> 26).toNat = 0x30 ∨ (w >>> 26).toNat = 0x34 := by
    have ht : isTerminator op = true := by rcases hop with rfl | rfl <;> rfl
    rcases classify_terminator hc ht with ⟨rfl, -⟩ | ⟨-, hopc⟩ | ⟨-, hopc⟩ | ⟨hcond, -⟩
    · rcases hop with he | he <;> cases he
    · exact Or.inl hopc
    · exact Or.inr hopc
    · rcases hop with rfl | rfl <;> exact absurd hcond (by decide)
  have hrep := emitLink_spec (u := u) (w := w) hat.rep hs (addrOf tag (i + 1))
  have hfor : E.For (s.clearR31.setRav w (addrOf tag (i + 1) &&& ~~~3)) := by
    exact ⟨hs.pal, hs.sde, hs.palNative, hs.native, hs.ev8⟩
  rw [hshape]
  refine RunsFrom.last (s.clearR31.setRav w (addrOf tag (i + 1) &&& ~~~3)) ?_ hw hfor ?_
  · rw [execute_br hs hopc, ← addrOf_succ]
    rfl
  · unfold runBlock runBlock
    rw [run_append]
    exact hrep.countAdd (i + 1)

theorem emitFrom_last_spec (hc : classify E.ext w = some op) (hop : IsCond op)
    (hat : At E prev s n h) (hs : E.For s) (hw : fetch (addrOf tag i) = w) :
    RunsFrom E u fetch tag i [w] s n h (emitFrom E tag i prev [w]) := by
  obtain ⟨hrep, ht, -⟩ := cond_spec (u := u) (w := w) (hat.countAdd (u := u) (i + 1)) hs hop
  rw [emitFrom_last hc hop]
  refine RunsFrom.last s.clearR31 ?_ hw hs.clearR31 ?_
  · unfold runBlock runBlock
    rw [execute_branch hc hop, List.append_assoc, run_append, ht]
    cases (condOf op).holds (s.clearR31.rav w) <;> rfl
  · unfold runBlock runBlock
    rw [List.append_assoc, run_append]
    exact hrep.clearR31

/-- A conditional branch with the rest of the block behind it. -/
theorem emitFrom_mid_spec {w' : Ins} (hc : classify E.ext w = some op) (hop : IsCond op)
    (hat : At E prev s n h) (hs : E.For s) (hw : fetch (addrOf tag i) = w) (hne : raOf w ≠ 31)
    (ih : ∀ {prev : Option GReg} {s : IntState} {h : Host}, At E prev s n h → E.For s →
      RunsFrom E u fetch tag (i + 1) (w' :: ws) s n h (emitFrom E tag (i + 1) prev (w' :: ws))) :
    RunsFrom E u fetch tag i (w :: w' :: ws) s n h (emitFrom E tag i prev (w :: w' :: ws)) := by
  obtain ⟨hrep, ht, hat'⟩ := cond_spec (u := u) (w := w) hat hs hop
  have hx : execute E.model uemul64 s (addrOf tag i) w = _ := execute_branch hc hop
  rw [emitFrom_mid hc hop]
  generalize hg : run E.table u ((condReg E prev (raOf w)).1 ++
    (condTest op (condReg E prev (raOf w)).2.1).1) h = g at hrep ht hat'
  by_cases htaken : (condOf op).holds (s.clearR31.rav w) = true
  · -- the branch is taken, and the exit with it
    rw [if_pos htaken] at hx
    rw [htaken] at ht
    refine RunsFrom.last s.clearR31 ?_ hw hs.clearR31 ?_
    · rw [hx, runBlock_code, hg, runBlock_exit, if_neg (by rw [ht]; decide)]
    · rw [runBlock_code, hg, runBlock_exit, if_neg (by rw [ht]; decide)]
      exact hrep.clearR31.countAdd (i + 1)
  · rw [if_neg htaken] at hx
    rw [Bool.eq_false_of_not_eq_true htaken] at ht
    refine RunsFrom.next hx hw (ih (hat' hne).clearR31 hs.clearR31) ?_
    rw [runBlock_code, hg, runBlock_exit]
    exact if_pos ht

/-- A block from its word `i` on, whatever `x0` holds there: the code does what the interpreter does
with the instructions that it counts. -/
theorem emitFrom_spec (src : List Ins) (hf : Here fetch tag i (scan E.ext src))
    (hn : NoR31 E.ext (scan E.ext src)) (hat : At E prev s n h) (hs : E.For s) :
    RunsFrom E u fetch tag i (scan E.ext src) s n h (emitFrom E tag i prev (scan E.ext src)) := by
  induction src generalizing i prev s h with
  | nil => exact emitFrom_nil_spec hat hs
  | cons w ws ih =>
    cases hc : classify E.ext w with
    | none =>
      rw [show scan E.ext (w :: ws) = [] by rw [scan, hc]]
      exact emitFrom_nil_spec hat hs
    | some op =>
      by_cases ht : isTerminator op = true
      · by_cases hlast : (isEbbBranch op && !ws.isEmpty) = true
        · -- a conditional branch, and the scan goes on
          have hop : IsCond op := by
            have he := (Bool.and_eq_true_iff.1 hlast).1
            revert he
            cases op <;> decide
          have hscan : scan E.ext (w :: ws) = w :: scan E.ext ws := by
            rw [scan, hc]
            exact if_neg (by rw [ht, hlast]; decide)
          rw [hscan] at hf hn ⊢
          cases hws : scan E.ext ws with
          | nil => exact emitFrom_last_spec hc hop hat hs hf.head
          | cons w' ws' =>
            rw [hws] at hf hn ih
            have hbr : isBranch op = true := by
              revert hop
              cases op <;> decide
            exact emitFrom_mid_spec hc hop hat hs hf.head
              (hn w List.mem_cons_self op hc hbr) (ih hf.tail hn.tail)
        · have hscan : scan E.ext (w :: ws) = [w] := by
            rw [scan, hc]
            exact if_pos (by rw [ht, Bool.eq_false_of_not_eq_true hlast]; rfl)
          rw [hscan] at hf ⊢
          rcases classify_terminator hc ht with ⟨rfl, -⟩ | ⟨he, -⟩ | ⟨he, -⟩ | ⟨hop, -⟩
          · exact emitFrom_jmp_spec hc hat hs hf.head
          · exact emitFrom_br_spec hc (Or.inl he) hat hs hf.head
          · exact emitFrom_br_spec hc (Or.inr he) hat hs hf.head
          · exact emitFrom_last_spec hc hop hat hs hf.head
      · have ht' := Bool.eq_false_of_not_eq_true ht
        have hscan : scan E.ext (w :: ws) = w :: scan E.ext ws := by
          rw [scan, hc]
          exact if_neg (by rw [ht']; exact Bool.false_ne_true)
        rw [hscan] at hf hn ⊢
        obtain ⟨s', hx, hat', hs'⟩ := emitOp_spec (u := u) hc ht' hat hs (addrOf tag i)
        rw [← addrOf_succ] at hx
        rw [emitFrom_straight hc ht']
        exact RunsFrom.next hx hf.head (ih hf.tail hn.tail hat' hs') rfl

end Alphabox.Jit
