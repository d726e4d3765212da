import Alphabox.Lib.Bits
import Alphabox.Lib.Reach
import Alphabox.Cpu.Icache
import Alphabox.Cpu.Proof.Spec

/-!
# The cursor of the instruction cache

While the cursor stands in a line, the line answers for the instruction at the cursor: a fetch that
goes by the cursor is the lookup it leaves out (`fetch_cursor`).
-/

namespace Alphabox.Cpu

open Function (update)

/-! ## Addresses in a line -/

variable {a b pA : BitVec 64}

theorem matchMask_getLsbD (i : Nat) :
    ICACHE_MATCH_MASK.getLsbD i = decide (i = 0 ∨ 11 ≤ i ∧ i < 64) := by
  by_cases hi : i < 64
  · revert hi
    revert i
    unfold ICACHE_MATCH_MASK
    decide +kernel
  · rw [BitVec.getLsbD_of_ge _ _ (by omega)]
    symm
    rw [decide_eq_false_iff_not]
    omega

/-- The bits above those of a line are the line's number. -/
theorem getLsbD_line (a : BitVec 64) (k : Nat) :
    a.getLsbD (k + 11) = (a.toNat / 2048).testBit k := by
  rw [BitVec.getLsbD, ← Nat.testBit_div_two_pow]

/-- Addresses in one line with one mode bit have one tag. -/
theorem and_matchMask_congr (h : a.toNat / 2048 = b.toNat / 2048)
    (h0 : a.getLsbD 0 = b.getLsbD 0) : a &&& ICACHE_MATCH_MASK = b &&& ICACHE_MATCH_MASK := by
  apply Lib.and_eq_and.mpr
  intro i hi
  rw [matchMask_getLsbD, decide_eq_true_eq] at hi
  obtain rfl | ⟨h11, -⟩ := hi
  · exact h0
  · obtain ⟨k, rfl⟩ := Nat.exists_eq_add_of_le' h11
    rw [getLsbD_line, getLsbD_line, h]

/-- They are in one set. -/
theorem icacheSet_congr (h : a.toNat / 2048 = b.toNat / 2048) : icacheSet a = icacheSet b := by
  apply BitVec.eq_of_getLsbD_eq
  intro i hi
  have hthree (x : BitVec 64) : (x &&& ~~~3#64).getLsbD (11 + i) = x.getLsbD (11 + i) := by
    have hbit : (~~~3#64).getLsbD (11 + i) = true := by
      revert hi
      revert i
      decide +kernel
    rw [BitVec.getLsbD_and, hbit, Bool.and_true]
  simp only [icacheSet, BitVec.getLsbD_setWidth, BitVec.getLsbD_ushiftRight, hthree, hi,
    decide_true, Bool.true_and]
  rw [Nat.add_comm, getLsbD_line, getLsbD_line, h]

theorem icacheWord_eq (a : BitVec 64) : icacheWord a = a.toNat / 4 % 512 := by
  unfold icacheWord ICACHE_INDEX_MASK
  rw [BitVec.toNat_and, BitVec.toNat_ushiftRight, Nat.shiftRight_eq_div_pow]
  exact Nat.and_two_pow_sub_one_eq_mod (a.toNat / 4) 9

theorem icacheWord_lt (a : BitVec 64) : icacheWord a < ICACHE_LINE_SIZE := by
  rw [icacheWord_eq]
  exact Nat.mod_lt _ (by decide)

theorem and_byteMask (a : BitVec 64) :
    a &&& ICACHE_BYTE_MASK = BitVec.ofNat 64 (4 * icacheWord a) := by
  have hshift : a &&& ICACHE_BYTE_MASK = ((a >>> 2) &&& ICACHE_INDEX_MASK) <<< 2 := by
    apply BitVec.eq_of_getLsbD_eq
    intro i hi
    have hmask : ICACHE_BYTE_MASK.getLsbD i =
        (!decide (i < 2) && ICACHE_INDEX_MASK.getLsbD (i - 2)) := by
      unfold ICACHE_BYTE_MASK ICACHE_INDEX_MASK
      revert hi
      revert i
      decide +kernel
    rw [BitVec.getLsbD_and, hmask, BitVec.getLsbD_shiftLeft, BitVec.getLsbD_and,
      BitVec.getLsbD_ushiftRight, decide_eq_true hi]
    by_cases h2 : i < 2
    · simp [h2]
    · rw [show 2 + (i - 2) = i by omega]
      simp [h2]
  apply BitVec.eq_of_toNat_eq
  have hw := icacheWord_lt a
  rw [hshift, BitVec.toNat_shiftLeft, Nat.shiftLeft_eq, BitVec.toNat_ofNat, Nat.mul_comm]
  rfl

/-- The next instruction of a line. -/
theorem next_in_line (h : icacheWord a + 1 < ICACHE_LINE_SIZE) (h3 : a &&& 3 = 0) :
    (a + 4).toNat = a.toNat + 4 ∧ (a + 4).toNat / 2048 = a.toNat / 2048 ∧
      icacheWord (a + 4) = icacheWord a + 1 := by
  have h4 : a.toNat % 4 = 0 := by
    have := congrArg BitVec.toNat h3
    rw [BitVec.toNat_and] at this
    exact (Nat.and_two_pow_sub_one_eq_mod a.toNat 2).symm.trans this
  rw [icacheWord_eq, ICACHE_LINE_SIZE] at h
  have hlt := a.isLt
  have hadd : (a + 4).toNat = a.toNat + 4 := by
    rw [BitVec.toNat_add]
    apply Nat.mod_eq_of_lt
    have h4' : (4 : BitVec 64).toNat = 4 := rfl
    omega
  rw [icacheWord_eq, icacheWord_eq, hadd]
  omega

/-! ## I-stream translation -/

namespace AlphaCPU

variable {c c' : AlphaCPU} {va : BitVec 64}

/-- A lookup in the ITB changes the index and the last match. -/
theorem findTBEntry_itb (c : AlphaCPU) (va : BitVec 64) :
    (∃ i ix, c.findTBEntry va .itb false = (some i, (c.setIdx .itb ix).setLastFound .itb false i) ∧
      (c.tb .itb i).hits va c.asn = true) ∨ c.findTBEntry va .itb false = (none, c) := by
  obtain ⟨i, ix, he, hh, -⟩ | ⟨ht, -⟩ | ⟨he, -⟩ := findTBEntry_cases c va .itb false
  · exact .inl ⟨i, ix, he, hh⟩
  · cases ht
  · exact .inr he

/-- The entry it found is the one a second lookup finds. -/
theorem findTBEntry_again {i : TbSlot} (h : c.findTBEntry va .itb false = (some i, c')) :
    c'.findTBEntry va .itb false = (some i, c') := by
  obtain ⟨j, ix, he, hh⟩ | he := findTBEntry_itb c va
  · rw [he] at h
    cases h
    have hlast : ((c.setIdx .itb ix).setLastFound .itb false i).lastFoundTb .itb false = i := by
      simp [setLastFound]
    unfold findTBEntry
    dsimp only
    rw [hlast, if_pos]
    exact hh
  · rw [he] at h
    cases h

theorem findTBEntry_itb_ctl (h : (c.findTBEntry va .itb false).2 = c') :
    c'.asn = c.asn ∧ c'.cm = c.cm := by
  subst h
  obtain ⟨j, ix, he, -⟩ | he := findTBEntry_itb c va
  · rw [he]
    exact ⟨rfl, rfl⟩
  · rw [he]
    exact ⟨rfl, rfl⟩

theorem virt2phys_exec_ctl {x : Xlate} (h : c.virt2phys va { exec := true } = (x, c')) :
    c'.asn = c.asn ∧ c'.cm = c.cm := by
  unfold virt2phys virt2physFast at h
  split at h
  · cases h
    exact ⟨rfl, rfl⟩
  · split at h
    · split at h
      · cases h
        exact ⟨rfl, rfl⟩
      · cases h
        exact ⟨rfl, rfl⟩
    · split at h
      · rename_i hf
        cases h
        exact findTBEntry_itb_ctl (congrArg Prod.snd hf)
      · rename_i hf
        cases h
        exact findTBEntry_itb_ctl (congrArg Prod.snd hf)

theorem icacheExecModes_ctl (c : AlphaCPU) (address va : BitVec 64) :
    (c.icacheExecModes address va).2.asn = c.asn ∧ (c.icacheExecModes address va).2.cm = c.cm := by
  unfold icacheExecModes
  split
  · exact ⟨rfl, rfl⟩
  · split
    · rename_i hf
      exact findTBEntry_itb_ctl (congrArg Prod.snd hf)
    · rename_i hf
      exact findTBEntry_itb_ctl (congrArg Prod.snd hf)

/-- A translation that is granted is granted by the line it fills. -/
theorem icacheExecModes_cm {pA address : BitVec 64}
    (h : c.virt2phys va { exec := true } = (.ok pA, c'))
    (hs : superpage (c.spe { exec := true }) va ≠ none → (c.findTBEntry va .itb false).1 = none) :
    (c'.icacheExecModes address va).1 c'.cm = true := by
  unfold icacheExecModes
  split
  · rfl
  unfold virt2phys virt2physFast at h
  split at h
  · cases h
  · split at h
    · rename_i phys hsome
      split at h
      · cases h
      · cases h
        have hnone := hs (by rw [hsome]; exact Option.some_ne_none _)
        obtain ⟨j, ix, he, -⟩ | he := findTBEntry_itb c va
        · rw [he] at hnone
          cases hnone
        · rw [he]
          exact beq_self_eq_true _
    · split at h
      · cases h
      · rename_i i c1 hf
        have hok := congrArg Prod.fst h
        obtain rfl := congrArg Prod.snd h
        have hcm := (findTBEntry_itb_ctl (congrArg Prod.snd hf)).2
        rw [findTBEntry_again hf]
        dsimp only at hok ⊢
        unfold checkEntry at hok
        dsimp only at hok
        by_contra hacc
        rw [Bool.not_eq_true] at hacc
        rw [hcm] at hacc
        simp [Flags.tb, checkMode, hacc] at hok

end AlphaCPU

/-! ## The lookup -/

namespace IFetch

variable {s s' : IFetch} {memBits flushes : Nat} {mem : Nat → BitVec 8} {address : BitVec 64}
  {ins : BitVec 32}

/-- What a lookup leaves behind for an instruction in a line: the line answers for it. -/
structure FoundIn (s : IFetch) (address : BitVec 64) (ins : BitVec 32) : Prop where
  hits : s.icacheLineHits (icacheSet address) address = true
  found : s.lastFoundIcache = icacheSet address
  ins : ins = (s.icache (icacheSet address)).data (icacheWord address)
  phys : s.pcPhys = (s.icache (icacheSet address)).pAddress + (address &&& ICACHE_BYTE_MASK)

theorem getIcache_pc (h : s.getIcache memBits mem address = (some ins, s')) : s'.pc = s.pc := by
  unfold getIcache fillIcache at h
  split at h
  · cases h
    rfl
  · split at h
    · cases h
      split <;> rfl
    · split at h
      · cases h
        split <;> rfl
      · cases h

theorem fillIcache_foundIn {pA : BitVec 64} {asm : Bool} (hd : InDram memBits pA)
    (hm : (s.cpu.icacheExecModes address (address &&& ICACHE_MATCH_MASK)).1 s.cpu.cm = true) :
    (s.fillIcache memBits mem address pA asm).2.FoundIn address
      (s.fillIcache memBits mem address pA asm).1 := by
  obtain ⟨hasn, hcm⟩ := s.cpu.icacheExecModes_ctl address (address &&& ICACHE_MATCH_MASK)
  unfold fillIcache
  rw [if_pos hd]
  constructor
  · simp [icacheLineHits, newLine, hasn, hcm, hm]
  · rfl
  · simp
  · simp [newLine]

/-- A native lookup finds its instruction in a line. -/
theorem getIcache_foundIn (h0 : address.getLsbD 0 = false)
    (hok : s.cpu.ExecOk memBits (address &&& ICACHE_MATCH_MASK))
    (h : s.getIcache memBits mem address = (some ins, s')) : s'.FoundIn address ins := by
  unfold getIcache at h
  split at h
  · rename_i hhits
    cases h
    exact ⟨hhits, rfl, rfl, rfl⟩
  · rw [h0, if_neg Bool.false_ne_true] at h
    split at h
    · rename_i pA c hv
      cases h
      exact fillIcache_foundIn (hok.dram pA c hv) (AlphaCPU.icacheExecModes_cm hv hok.superpage)
    · cases h

/-! ## The cursor -/

/-- The cursor stands where a lookup would find the next instruction. -/
structure AtCursor (s : IFetch) : Prop where
  aligned : s.pc &&& 3 = 0
  line : s.seqLine = icacheSet s.pc
  offset : s.seqOffset = icacheWord s.pc
  remaining : s.seqRemaining = ICACHE_LINE_SIZE - s.seqOffset
  found : s.FoundIn s.pc ((s.icache s.seqLine).data s.seqOffset)

/-- Wherever the cursor answers it stands right. -/
def CursorInv (s : IFetch) : Prop := s.Sequential → s.AtCursor

theorem even_of_aligned {a : BitVec 64} (h : a &&& 3 = 0) : a.getLsbD 0 = false := by
  have := congrArg (·.getLsbD 0) h
  simpa using this

theorem cursorInv_of_remaining (h : s.seqRemaining = 0) : s.CursorInv := by
  intro hs
  have := hs.2
  omega

/-- The line an instruction was found in answers for the next one. -/
theorem FoundIn.next (h : s.FoundIn s.pc ins) (h3 : s.pc &&& 3 = 0)
    (hw : icacheWord s.pc + 1 < ICACHE_LINE_SIZE) :
    s.nextPc.FoundIn s.nextPc.pc
        ((s.icache (icacheSet s.pc)).data (icacheWord s.pc + 1)) ∧
      icacheSet s.nextPc.pc = icacheSet s.pc ∧ icacheWord s.nextPc.pc = icacheWord s.pc + 1 ∧
      s.nextPc.pc &&& 3 = 0 := by
  obtain ⟨hadd, hline, hword⟩ := next_in_line hw h3
  have hset : icacheSet (s.pc + 4) = icacheSet s.pc := icacheSet_congr hline
  have h3' : (s.pc + 4) &&& 3 = 0 := by
    apply BitVec.eq_of_toNat_eq
    have h0 := congrArg BitVec.toNat h3
    rw [BitVec.toNat_and] at h0 ⊢
    have hmod : ∀ x : Nat, x &&& (3 : BitVec 64).toNat = x % 4 := fun x =>
      Nat.and_two_pow_sub_one_eq_mod x 2
    have hzero : (0 : BitVec 64).toNat = 0 := rfl
    rw [hmod, hzero] at h0 ⊢
    omega
  have htag : (s.pc + 4) &&& ICACHE_MATCH_MASK = s.pc &&& ICACHE_MATCH_MASK := by
    apply and_matchMask_congr hline
    rw [even_of_aligned h3, even_of_aligned h3']
  refine ⟨⟨?_, ?_, ?_, ?_⟩, hset, hword, h3'⟩
  · show s.icacheLineHits (icacheSet (s.pc + 4)) (s.pc + 4) = true
    have := h.hits
    unfold icacheLineHits at this ⊢
    rwa [hset, htag]
  · exact h.found.trans hset.symm
  · show _ = (s.icache (icacheSet (s.pc + 4))).data (icacheWord (s.pc + 4))
    rw [hset, hword]
  · show s.pcPhys + 4 = (s.icache (icacheSet (s.pc + 4))).pAddress +
      ((s.pc + 4) &&& ICACHE_BYTE_MASK)
    rw [hset, h.phys, and_byteMask, and_byteMask, hword, BitVec.add_assoc]
    congr 1
    rw [show 4 * (icacheWord s.pc + 1) = 4 * icacheWord s.pc + 4 by omega, BitVec.ofNat_add]
    rfl

theorem cursorInv_fetchNext (h : s.CursorInv) (hs : s.Sequential) :
    s.fetchNext.2.CursorInv := by
  have hc := h hs
  intro hs'
  have hrem : 0 < s.seqRemaining - 1 := hs'.2
  have hleft := hc.remaining
  have hlt : icacheWord s.pc + 1 < ICACHE_LINE_SIZE := by
    rw [← hc.offset]
    omega
  obtain ⟨hfound, hset, hword, h3⟩ := hc.found.next hc.aligned hlt
  refine ⟨h3, hc.line.trans hset.symm, ?_, ?_, ?_⟩
  · show s.seqOffset + 1 = icacheWord s.nextPc.pc
    rw [hword, hc.offset]
  · show s.seqRemaining - 1 = ICACHE_LINE_SIZE - (s.seqOffset + 1)
    omega
  · refine ⟨hfound.hits, hfound.found, ?_, hfound.phys⟩
    show (s.icache s.seqLine).data (s.seqOffset + 1) = _
    rw [hc.line, hc.offset]
    exact hfound.ins

theorem cursorInv_setCursor (h : s.pc.getLsbD 0 = false → ∃ ins, s.FoundIn s.pc ins) :
    s.setCursor.nextPc.CursorInv := by
  unfold setCursor
  split
  · exact cursorInv_of_remaining rfl
  · rename_i h0
    rw [Bool.not_eq_true] at h0
    obtain ⟨ins, hf⟩ := h h0
    intro hs
    obtain ⟨hpc, hrem⟩ : s.pc + 4 = (s.pc &&& ~~~3#64) + 4 ∧
      0 < ICACHE_LINE_SIZE - (icacheWord s.pc + 1) := hs
    have h3 : s.pc &&& 3 = 0 := by
      have heq := (BitVec.add_left_inj 4).mp hpc
      rw [heq, BitVec.and_assoc]
      have : (~~~3#64) &&& (3 : BitVec 64) = 0 := by decide
      rw [this]
      simp
    obtain ⟨hfound, hset, hword, h3'⟩ := hf.next h3 (by omega)
    refine ⟨h3', ?_, hword.symm, rfl, ?_⟩
    · show s.lastFoundIcache = icacheSet s.nextPc.pc
      rw [hset, hf.found]
    · rw [← hf.found] at hfound
      exact ⟨hfound.hits, hfound.found, hfound.ins, hfound.phys⟩

/-- The lookup that the cursor leaves out finds the cursor's instruction and changes nothing. -/
theorem AtCursor.getIcache (h : s.AtCursor) :
    s.getIcache memBits mem s.pc = (some s.fetchNext.1, s) := by
  have hhits := h.found.hits
  unfold IFetch.getIcache
  rw [if_pos hhits, ← h.found.phys, ← h.found.found, ← h.offset]
  show (some ((s.icache s.lastFoundIcache).data s.seqOffset), s) = _
  rw [h.found.found, ← h.line]
  rfl

theorem atReset_even (h : s.AtReset) : s.pc.getLsbD 0 = true := by
  rw [h.2, BitVec.getLsbD_or]
  simp

theorem getIcache_none (h : s.getIcache memBits mem address = (none, s')) :
    s'.seqRemaining = 0 := by
  unfold getIcache at h
  split at h
  · cases h
  · split at h
    · cases h
    · split at h
      · cases h
      · cases h
        unfold vectorExec
        split <;> rfl

theorem cursorInv_lookup
    (hok : s.pc.getLsbD 0 = false → s.cpu.ExecOk memBits (s.pc &&& ICACHE_MATCH_MASK)) :
    (s.lookup memBits mem).2.CursorInv := by
  unfold lookup
  split
  · rename_i ins s' hg
    apply cursorInv_setCursor
    intro h0
    have hpc := getIcache_pc hg
    rw [hpc] at h0 ⊢
    exact ⟨ins, getIcache_foundIn h0 (hok h0) hg⟩
  · rename_i hg
    exact cursorInv_of_remaining (getIcache_none hg)

/-- Every fetch leaves the cursor right. -/
theorem cursorInv_fetch (h : s.CursorInv)
    (hok : s.pc.getLsbD 0 = false → s.cpu.ExecOk memBits (s.pc &&& ICACHE_MATCH_MASK)) :
    (s.fetch memBits mem flushes).2.CursorInv := by
  unfold fetch
  split
  · rename_i hs
    exact cursorInv_fetchNext h hs
  · apply cursorInv_lookup
    unfold resetFlush
    split
    · rename_i hr
      intro h0
      cases (atReset_even hr).symm.trans h0
    · exact hok

/-- The cursor as a lookup would set it. -/
theorem AtCursor.setCursor (h : s.AtCursor) (hs : s.Sequential) :
    s.setCursor.nextPc = s.fetchNext.2 := by
  have h0 := even_of_aligned h.aligned
  have hclear : s.pc &&& ~~~3#64 = s.pc := by
    have h3 : s.pc &&& 3#64 = 0#64 := h.aligned
    apply BitVec.eq_of_getLsbD_eq
    intro i hi
    have hbit : (s.pc &&& 3#64).getLsbD i = (0#64).getLsbD i := by rw [h3]
    rw [BitVec.getLsbD_and, BitVec.getLsbD_zero] at hbit
    rw [BitVec.getLsbD_and, BitVec.getLsbD_not, decide_eq_true hi]
    cases hthree : (3#64).getLsbD i with
    | false => simp
    | true =>
      rw [hthree] at hbit
      simpa using hbit.symm
  have hoff := h.offset
  have hrem := h.remaining
  unfold IFetch.setCursor fetchNext
  rw [h0, if_neg Bool.false_ne_true, hclear, h.found.found, ← h.line, ← h.offset, hs.1, hrem,
    Nat.sub_add_eq]

/-- Where the cursor stands right, a fetch is a lookup. -/
theorem fetch_eq_fetchPlain (h : s.CursorInv) :
    s.fetch memBits mem flushes = s.fetchPlain memBits mem flushes := by
  unfold fetch
  split
  · rename_i hs
    have hc := h hs
    have hreset : ¬ s.AtReset := fun hr => hr.1 hs
    unfold fetchPlain resetFlush lookup
    rw [if_neg hreset, hc.getIcache]
    dsimp only
    rw [hc.setCursor hs]
  · rfl

end IFetch

/-! ## The cursor in a run -/

namespace FetchRun

open IFetch

variable {n memBits : Nat} {s : FetchRun n}

/-- One processor's change keeps what holds of all. -/
theorem update_forall {P : IFetch → Prop} {proc : Fin n → IFetch} (h : ∀ i, P (proc i)) {j : Fin n}
    {f : IFetch} (hf : P f) : ∀ i, P (update proc j f i) := by
  intro i
  by_cases hi : i = j
  · rw [hi, Function.update_self]
    exact hf
  · rw [Function.update_of_ne hi]
    exact h i

theorem cursorInv_setCpu {t : IFetch} (h : t.CursorInv) {c : AlphaCPU}
    (hc : t.pc.getLsbD 0 = true ∨ c.asn = t.cpu.asn ∧ c.cm = t.cpu.cm) :
    ({ t with cpu := c } : IFetch).CursorInv := by
  intro hs
  have hcur := h hs
  obtain h1 | ⟨hasn, hcm⟩ := hc
  · cases (even_of_aligned hcur.aligned).symm.trans h1
  · refine ⟨hcur.aligned, hcur.line, hcur.offset, hcur.remaining, ?_, hcur.found.found,
      hcur.found.ins, hcur.found.phys⟩
    have := hcur.found.hits
    unfold icacheLineHits at this ⊢
    dsimp only
    rwa [hasn, hcm]

theorem cursorInv_step (op : FetchOp n) (h : ∀ i, (s.proc i).CursorInv) (hok : s.Ok memBits op) :
    ∀ i, ((s.step memBits op).proc i).CursorInv := by
  cases op with
  | fetch i => exact update_forall h (cursorInv_fetch (h i) hok)
  | setPc i pc => exact update_forall h (cursorInv_of_remaining rfl)
  | setCpu i c => exact update_forall h (cursorInv_setCpu (h i) hok)
  | setPalBase i palBase =>
    apply update_forall h
    intro hs
    obtain ⟨h3, hline, hoff, hrem, hfound⟩ := h i hs
    exact ⟨h3, hline, hoff, hrem, hfound.hits, hfound.found, hfound.ins, hfound.phys⟩
  | flush i => exact update_forall h (cursorInv_of_remaining rfl)
  | flushAsm i => exact update_forall h (cursorInv_of_remaining rfl)
  | look i =>
    apply update_forall h
    unfold honourRemoteFlush
    split
    · exact h i
    · exact cursorInv_of_remaining rfl
  | write a b => exact h

theorem cursorInv_run (h : Lib.Reach Start (Ok memBits) (step memBits) s) :
    ∀ i, (s.proc i).CursorInv := by
  refine h.inv (P := fun s => ∀ i, (s.proc i).CursorInv) ?_ ?_
  · exact fun s hs i => cursorInv_of_remaining (hs i).seqRemaining
  · exact fun s op hs hok => cursorInv_step op hs hok

/-- Native code outside DRAM fills no line, but the cursor is set all the same: it stands in the
line that was found last, whatever that line holds. -/
theorem cursor_outside_dram {t : IFetch} {mem : Nat → BitVec 8} {pA : BitVec 64} {c : AlphaCPU}
    (h0 : t.pc.getLsbD 0 = false) (hn : t.icacheLineHits (icacheSet t.pc) t.pc = false)
    (hv : t.cpu.virt2phys (t.pc &&& ICACHE_MATCH_MASK) { exec := true } = (.ok pA, c))
    (hd : ¬ InDram memBits pA) : (t.lookup memBits mem).2.fetchNext.1 =
      (t.icache t.lastFoundIcache).data (icacheWord t.pc + 1) := by
  unfold lookup getIcache fillIcache
  rw [hn, if_neg Bool.false_ne_true, h0, if_neg Bool.false_ne_true, hv]
  dsimp only
  rw [if_neg hd]
  unfold setCursor
  dsimp only
  rw [h0, if_neg Bool.false_ne_true]
  rfl

/-- In every run a fetch that goes by the cursor delivers the instruction that a lookup would, and
leaves the processor as the lookup would. -/
theorem fetch_cursor (h : Lib.Reach Start (Ok memBits) (step memBits) s) (i : Fin n) :
    (s.proc i).fetch memBits s.mem s.flushes = (s.proc i).fetchPlain memBits s.mem s.flushes :=
  fetch_eq_fetchPlain (cursorInv_run h i)

/-! ## At a superpage -/

/-- A processor in kernel mode at the start of the 48-bit superpage. -/
def atSuperpage : IFetch where
  cpu := { AlphaCPU.init false with iCtlSpe := 4, iCtlVaMode := 1 }
  pc := 0xffff800000000000#64
  pcPhys := 0
  palBase := 0
  icache := fun _ => ⟨0, fun _ => 0, 0, 0, false, false, 0, fun _ => false⟩
  icacheGen := 0
  lastFoundIcache := 0
  icacheFlushSeen := 0
  seqLine := 0
  seqOffset := 0
  seqRemaining := 0
  seqNextPc := 0

def superpageRun (n : Nat) : FetchRun n := ⟨fun a => BitVec.ofNat 8 a, 0, fun _ => atSuperpage⟩

theorem superpageRun_start (n : Nat) : Start (superpageRun n) := fun _ =>
  ⟨fun _ => rfl, rfl, rfl⟩

theorem virt2phys_superpage : atSuperpage.cpu.virt2phys (atSuperpage.pc &&& ICACHE_MATCH_MASK)
    { exec := true } = (.ok 0, atSuperpage.cpu) := rfl

theorem superpage_execOk :
    atSuperpage.cpu.ExecOk 12 (atSuperpage.pc &&& ICACHE_MATCH_MASK) where
  superpage _ := by decide +kernel
  dram pA c' h := by
    rw [virt2phys_superpage] at h
    cases h
    decide

theorem superpageRun_fetched (n : Nat) (i : Fin n) :
    Lib.Reach Start (Ok 12) (step 12) ((superpageRun n).step 12 (.fetch i)) :=
  .next (a := FetchOp.fetch i) (.start (superpageRun_start n)) fun _ => superpage_execOk

/-- The second instruction of a line, by the cursor. -/
theorem fetch_cursor_second :
    (((superpageRun 1).step 12 (.fetch 0)).proc 0).fetch 12
        ((superpageRun 1).step 12 (.fetch 0)).mem ((superpageRun 1).step 12 (.fetch 0)).flushes =
      (((superpageRun 1).step 12 (.fetch 0)).proc 0).fetchPlain 12
        ((superpageRun 1).step 12 (.fetch 0)).mem ((superpageRun 1).step 12 (.fetch 0)).flushes :=
  fetch_cursor (superpageRun_fetched 1 0) 0

end FetchRun

end Alphabox.Cpu
