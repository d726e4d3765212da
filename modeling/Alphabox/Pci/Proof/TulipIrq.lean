import Alphabox.Pci.TulipIrq

/-!
# The Tulip's interrupt line settles

`Inv` says who drives the line: nobody while `m_irq_busy` is clear, one thread while it is set. A
thread leaves `update_irq` with the line right, or while another is still in it; so when all are out
the line is what the registers ask for.
-/

namespace Alphabox.Pci

namespace IrqRegs

/-! ## The summary bits -/

variable (r : IrqRegs)

/-- The summary bits that the enabled groups give. -/
def groups : BitVec 32 :=
  (if r.csr5 &&& r.csr7 &&& STATUS_NORMAL ≠ 0 then STATUS_NIS else 0#32) |||
    if r.csr5 &&& r.csr7 &&& STATUS_ABNORMAL ≠ 0 then STATUS_AIS else 0#32

theorem summary_eq : r.summary = r.csr5 &&& ~~~(STATUS_NIS ||| STATUS_AIS) ||| r.groups := by
  unfold summary groups
  dsimp only
  split_ifs
  · rw [BitVec.or_assoc]
  · rw [BitVec.zero_or]
  · rw [BitVec.or_zero]
  · rw [BitVec.or_zero, BitVec.or_zero]

theorem groups_and : r.groups &&& ~~~(STATUS_NIS ||| STATUS_AIS) = 0#32 := by
  unfold groups
  split_ifs <;> decide

/-- A register's other bits are not its summary bits. -/
theorem summary_and {m : BitVec 32} (h : m &&& (STATUS_NIS ||| STATUS_AIS) = 0#32) :
    r.summary &&& m = r.csr5 &&& m := by
  have hm : m = ~~~(STATUS_NIS ||| STATUS_AIS) &&& m := by
    refine BitVec.eq_of_getLsbD_eq fun i hi => ?_
    have hbit := congrArg (·.getLsbD i) h
    simp only [BitVec.getLsbD_and, BitVec.getLsbD_zero] at hbit
    rw [BitVec.getLsbD_and, BitVec.getLsbD_not, decide_eq_true hi]
    cases hm : m.getLsbD i with
    | false => simp
    | true => simpa [hm] using hbit
  have hor (x y : BitVec 32) : (x ||| y) &&& m = x &&& m ||| y &&& m := by
    refine BitVec.eq_of_getLsbD_eq fun i _ => ?_
    simp only [BitVec.getLsbD_and, BitVec.getLsbD_or, Bool.and_or_distrib_right]
  rw [summary_eq, hor, BitVec.and_assoc, ← hm]
  conv_lhs =>
    rhs
    rw [hm, ← BitVec.and_assoc, groups_and, BitVec.zero_and]
  rw [BitVec.or_zero]

/-- With its summary computed anew. -/
def summed : IrqRegs := { r with csr5 := r.summary }

theorem summed_enabled {m : BitVec 32} (h : m &&& (STATUS_NIS ||| STATUS_AIS) = 0#32) :
    r.summed.csr5 &&& r.summed.csr7 &&& m = r.csr5 &&& r.csr7 &&& m := by
  have hm : r.csr7 &&& m &&& (STATUS_NIS ||| STATUS_AIS) = 0#32 := by
    rw [BitVec.and_assoc, h, BitVec.and_zero]
  rw [BitVec.and_assoc, BitVec.and_assoc]
  exact r.summary_and hm

theorem summary_bits : r.summary &&& (STATUS_NIS ||| STATUS_AIS) = r.groups := by
  have hor (x y m : BitVec 32) : (x ||| y) &&& m = x &&& m ||| y &&& m := by
    refine BitVec.eq_of_getLsbD_eq fun i _ => ?_
    simp only [BitVec.getLsbD_and, BitVec.getLsbD_or, Bool.and_or_distrib_right]
  rw [summary_eq, hor, BitVec.and_assoc,
    show ~~~(STATUS_NIS ||| STATUS_AIS) &&& (STATUS_NIS ||| STATUS_AIS) = 0#32 by decide,
    BitVec.and_zero, BitVec.zero_or]
  unfold groups
  split_ifs <;> decide

/-- NIS and AIS are the OR of their enabled groups. -/
structure Summed : Prop where
  nis : r.csr5 &&& STATUS_NIS ≠ 0 ↔ r.csr5 &&& r.csr7 &&& STATUS_NORMAL ≠ 0
  ais : r.csr5 &&& STATUS_AIS ≠ 0 ↔ r.csr5 &&& r.csr7 &&& STATUS_ABNORMAL ≠ 0

theorem summed_spec : r.summed.Summed := by
  have hbits := r.summary_bits
  have hnis : r.summary &&& STATUS_NIS = r.groups &&& STATUS_NIS := by
    rw [← hbits, BitVec.and_assoc]
    rfl
  have hais : r.summary &&& STATUS_AIS = r.groups &&& STATUS_AIS := by
    rw [← hbits, BitVec.and_assoc]
    rfl
  refine ⟨?_, ?_⟩
  · rw [r.summed_enabled (by decide)]
    show r.summary &&& STATUS_NIS ≠ 0 ↔ _
    rw [hnis, groups]
    split_ifs with hn ha <;> simp only [hn, ne_eq, not_false_eq_true, iff_true] <;> decide
  · rw [r.summed_enabled (by decide)]
    show r.summary &&& STATUS_AIS ≠ 0 ↔ _
    rw [hais, groups]
    split_ifs with hn ha <;> simp only [*, ne_eq, not_false_eq_true, iff_true] <;> decide

end IrqRegs

namespace TulipIrq

variable {T : Type} [DecidableEq T] {s : TulipIrq T} {t u : T}

/-! ## Who drives the line -/

/-- In `do_pci_interrupt`, or not yet past the section after it. -/
def Drives (s : TulipIrq T) (t : T) (level : Bool) : Prop :=
  s.pc t = .driving level ∨ s.pc t = .driven level

/-- The summary bits and the line are what the registers ask for. -/
def Settled (s : TulipIrq T) : Prop := s.regs.Summed ∧ s.line = s.regs.asserted

structure Inv (s : TulipIrq T) : Prop where
  first : s.calls.getLast? ≠ some false
  alternate : s.calls.IsChain (· ≠ ·)
  busy : s.irqBusy = true → ∃ t level, s.Drives t level
  free : s.irqBusy = false → s.line = s.irqWasAsserted ∧ ∀ t level, ¬ s.Drives t level
  alone : ∀ t level, s.Drives t level → s.line = level ∧ ∀ u other, s.Drives u other → u = t
  settled : (∀ t, s.pc t = .out) → s.Settled

theorem goto_self (s : TulipIrq T) (t : T) (pc : IrqPc) : (s.goto t pc).pc t = pc :=
  Function.update_self _ _ _

theorem goto_other (s : TulipIrq T) (pc : IrqPc) (h : u ≠ t) : (s.goto t pc).pc u = s.pc u :=
  Function.update_of_ne h _ _

/-- Not in `do_pci_interrupt`. -/
def Away (pc : IrqPc) : Prop := ∀ level, pc ≠ .driving level ∧ pc ≠ .driven level

theorem drives_goto {pc : IrqPc} (hpc : Away pc) (level : Bool) :
    (s.goto t pc).Drives u level ↔ u ≠ t ∧ s.Drives u level := by
  by_cases hu : u = t
  · subst hu
    rw [Drives, goto_self]
    simp [hpc level]
  · rw [Drives, goto_other s pc hu, Drives]
    simp [hu]

/-- A thread that does not drive goes on, and the registers change, while some thread is not out. -/
theorem Inv.goto (h : Inv s) {pc : IrqPc} (hpc : Away pc) (ht : ∀ level, ¬ s.Drives t level)
    (regs : IrqRegs) (hset : (∀ u, (s.goto t pc).pc u = .out) →
      Settled { s.goto t pc with regs }) : Inv { s.goto t pc with regs } := by
  have hdrives (u : T) (level : Bool) :
      Drives { s.goto t pc with regs } u level ↔ s.Drives u level := by
    constructor
    · exact fun hd => ((drives_goto hpc level).1 hd).2
    · intro hd
      refine (drives_goto hpc level).2 ⟨?_, hd⟩
      rintro rfl
      exact ht level hd
  refine ⟨h.first, h.alternate, fun hb => ?_, fun hb => ?_, fun u level hd => ?_, hset⟩
  · obtain ⟨u, level, hd⟩ := h.busy hb
    exact ⟨u, level, (hdrives u level).2 hd⟩
  · obtain ⟨hline, hnone⟩ := h.free hb
    exact ⟨hline, fun u level hd => hnone u level ((hdrives u level).1 hd)⟩
  · obtain ⟨hline, halone⟩ := h.alone u level ((hdrives u level).1 hd)
    exact ⟨hline, fun v other hv => halone v other ((hdrives v other).1 hv)⟩

theorem away_out : Away .out := fun _ => ⟨nofun, nofun⟩

theorem away_changed : Away .changed := fun _ => ⟨nofun, nofun⟩

theorem away_called : Away .called := fun _ => ⟨nofun, nofun⟩

/-- What the loop of `update_irq` needs when it is entered: nobody else drives. -/
structure Ready (s : TulipIrq T) (t : T) : Prop where
  first : s.calls.getLast? ≠ some false
  alternate : s.calls.IsChain (· ≠ ·)
  free : s.irqBusy = false
  line : s.line = s.irqWasAsserted
  others : ∀ u level, u ≠ t → ¬ s.Drives u level

theorem getLast_cons_ne {l : List Bool} {b : Bool} (h : l.getLast? ≠ some false)
    (hb : b ≠ l.headD false) : (b :: l).getLast? ≠ some false := by
  cases l with
  | nil => cases b <;> simp_all
  | cons a l => rwa [List.getLast?_cons_cons]

theorem isChain_cons_ne {l : List Bool} {b : Bool} (h : l.IsChain (· ≠ ·))
    (hb : b ≠ l.headD false) : (b :: l).IsChain (· ≠ ·) := by
  cases l with
  | nil => exact List.IsChain.singleton b
  | cons a l => exact List.isChain_cons_cons.2 ⟨hb, h⟩

/-- **A turn of the loop**: the thread leaves with the line right, or drives the other level. -/
theorem inv_look (h : Ready s t) : Inv (s.look t) := by
  obtain ⟨hfirst, halternate, hfree, hline, hothers⟩ := h
  obtain ⟨regs, irqBusy, was, pc, calls⟩ := s
  obtain rfl : irqBusy = false := hfree
  obtain rfl : calls.headD false = was := hline
  have hsummed : regs.summed.Summed := regs.summed_spec
  rw [look]
  dsimp only
  rw [show ({ regs with csr5 := regs.summary } : IrqRegs) = regs.summed from rfl]
  by_cases hlevel : regs.summed.asserted = calls.headD false
  · rw [if_pos hlevel]
    have hnone (u : T) (level : Bool) :
        ¬ Drives (goto ⟨regs.summed, false, calls.headD false, pc, calls⟩ t .out) u level := by
      intro hd
      obtain ⟨hu, hd⟩ := (drives_goto away_out level).1 hd
      exact hothers u level hu hd
    exact ⟨hfirst, halternate, nofun, fun _ => ⟨rfl, hnone⟩,
      fun u level hd => absurd hd (hnone u level), fun _ => ⟨hsummed, hlevel.symm⟩⟩
  · rw [if_neg hlevel]
    generalize regs.summed.asserted = asserted at *
    have hdrives (u : T) (level : Bool)
        (hd : Drives (T := T) ⟨regs.summed, true, calls.headD false,
          Function.update pc t (.driving asserted), asserted :: calls⟩ u level) :
        u = t ∧ level = asserted := by
      by_cases hu : u = t
      · subst hu
        simp only [Drives, Function.update_self, IrqPc.driving.injEq, reduceCtorEq, or_false] at hd
        exact ⟨rfl, hd.symm⟩
      · simp only [Drives, Function.update_of_ne hu] at hd
        exact absurd hd (hothers u level hu)
    refine ⟨getLast_cons_ne hfirst hlevel, isChain_cons_ne halternate hlevel, fun _ => ?_, nofun,
      fun u level hd => ?_, fun hout => ?_⟩
    · exact ⟨t, asserted, .inl (Function.update_self _ _ _)⟩
    · obtain ⟨rfl, rfl⟩ := hdrives u level hd
      exact ⟨rfl, fun v other hv => (hdrives v other hv).1⟩
    · have ht : Function.update pc t (.driving asserted) t = .out := hout t
      rw [Function.update_self] at ht
      nomatch ht

/-! ## Steps -/

omit [DecidableEq T] in
theorem not_drives {pc : IrqPc} (hs : s.pc t = pc) (hpc : Away pc) (level : Bool) :
    ¬ s.Drives t level := by
  rintro (hd | hd)
  · exact (hpc level).1 (hs.symm.trans hd)
  · exact (hpc level).2 (hs.symm.trans hd)

omit [DecidableEq T] in
theorem inv_start : Inv (start : TulipIrq T) := by
  refine ⟨nofun, List.IsChain.nil, nofun, fun _ => ⟨rfl, fun t level hd => ?_⟩,
    fun t level hd => ?_, fun _ => ⟨⟨?_, ?_⟩, ?_⟩⟩
  · exact not_drives rfl away_out level hd
  · exact absurd hd (not_drives rfl away_out level)
  · show IrqRegs.reset.csr5 &&& _ ≠ 0 ↔ IrqRegs.reset.csr5 &&& IrqRegs.reset.csr7 &&& _ ≠ 0
    decide
  · show IrqRegs.reset.csr5 &&& _ ≠ 0 ↔ IrqRegs.reset.csr5 &&& IrqRegs.reset.csr7 &&& _ ≠ 0
    decide
  · show false = IrqRegs.reset.asserted
    decide

/-- `do_pci_interrupt` returns. -/
theorem Inv.returned (h : Inv s) {level : Bool} (hpc : s.pc t = .driving level) :
    Inv (s.goto t (.driven level)) := by
  have hdrives (u : T) (other : Bool) :
      (s.goto t (.driven level)).Drives u other ↔ s.Drives u other := by
    by_cases hu : u = t
    · subst hu
      simp [Drives, goto_self, hpc]
    · rw [Drives, goto_other s _ hu]
      rfl
  refine ⟨h.first, h.alternate, fun hb => ?_, fun hb => ?_, fun u other hd => ?_, fun hout => ?_⟩
  · obtain ⟨u, other, hd⟩ := h.busy hb
    exact ⟨u, other, (hdrives u other).2 hd⟩
  · obtain ⟨hline, hnone⟩ := h.free hb
    exact ⟨hline, fun u other hd => hnone u other ((hdrives u other).1 hd)⟩
  · obtain ⟨hline, halone⟩ := h.alone u other ((hdrives u other).1 hd)
    exact ⟨hline, fun v o hv => halone v o ((hdrives v o).1 hv)⟩
  · have ht := hout t
    rw [goto_self] at ht
    nomatch ht

theorem inv_step (h : Inv s) (t : T) (a : IrqAct) : Inv (s.step t a) := by
  have away_of (hpc : s.pc t = .out ∨ s.pc t = .changed) (level : Bool) : ¬ s.Drives t level := by
    obtain hpc | hpc := hpc
    · exact not_drives hpc away_out level
    · exact not_drives hpc away_changed level
  have in_progress {pc : IrqPc} (hne : pc ≠ .out) (hout : ∀ u, (s.goto t pc).pc u = .out) :
      False := hne ((goto_self s t pc).symm.trans (hout t))
  cases a with
  | change c =>
    rw [step]
    split
    · rename_i hpc
      exact h.goto away_changed (away_of hpc) _ fun hout =>
        (in_progress (by decide) hout).elim
    · exact h
  | call =>
    rw [step]
    split
    · rename_i hpc
      exact h.goto away_called (away_of hpc) s.regs fun hout =>
        (in_progress (by decide) hout).elim
    · exact h
  | go =>
    rw [step]
    cases hpc : s.pc t with
    | out => exact h
    | changed => exact h
    | called =>
      have ht := not_drives hpc away_called
      dsimp only
      split
      · rename_i hbusy
        refine h.goto away_out ht s.regs fun hout => ?_
        -- another thread drives the line, and is not out
        obtain ⟨u, level, hd⟩ := h.busy hbusy
        have hu : u ≠ t := by
          rintro rfl
          exact ht level hd
        have hpcu := hout u
        rw [goto_other s _ hu] at hpcu
        exact absurd hd (not_drives hpcu away_out level)
      · rename_i hbusy
        obtain ⟨hline, hnone⟩ := h.free (Bool.eq_false_of_not_eq_true hbusy)
        exact inv_look ⟨h.first, h.alternate, Bool.eq_false_of_not_eq_true hbusy, hline,
          fun u level _ => hnone u level⟩
    | driving level => exact h.returned hpc
    | driven level =>
      obtain ⟨hline, halone⟩ := h.alone t level (.inr hpc)
      exact inv_look ⟨h.first, h.alternate, rfl, hline, fun u other hu hd => hu (halone u other hd)⟩

theorem inv_run (acts : List (T × IrqAct)) : Inv (run acts) := by
  unfold run
  suffices ∀ s : TulipIrq T, Inv s → Inv (acts.foldl (fun s a => s.step a.1 a.2) s) from
    this _ inv_start
  induction acts with
  | nil => exact fun s h => h
  | cons a acts ih => exact fun s h => ih _ (inv_step h a.1 a.2)

/-- **The interrupt line settles.** Any number of threads, any order of their steps: one thread at a
time is in `do_pci_interrupt`, its calls alternate in level from an assertion on, and when no thread
has an `update_irq` to make or under way, the summary bits and the line are what the registers ask
for. -/
theorem irq_line_settles (acts : List (T × IrqAct)) :
    (∀ t u level other, (run acts).pc t = .driving level → (run acts).pc u = .driving other →
      u = t) ∧
    (run acts).calls.getLast? ≠ some false ∧ (run acts).calls.IsChain (· ≠ ·) ∧
    ((∀ t, (run acts).pc t = .out) →
      (run acts).regs.Summed ∧ (run acts).line = (run acts).regs.asserted) := by
  have h := inv_run acts
  refine ⟨fun t u level other ht hu => ?_, h.first, h.alternate, h.settled⟩
  exact (h.alone t level (.inl ht)).2 u other (.inl hu)

/-- A second thread clears the status bit while the first drives the line for it. -/
theorem irq_line_settles_two :
    let acts : List (Bool × IrqAct) := [(true, .change (.inten 0x00010001)),
      (true, .change (.set STATUS_TI)), (true, .call), (true, .go),
      (false, .change (.status STATUS_TI)), (false, .call), (false, .go), (true, .go), (true, .go),
      (true, .go), (true, .go)]
    (run acts).calls = [false, true] ∧ (run acts).line = (run acts).regs.asserted := by
  intro acts
  have hout : ∀ t, (run acts).pc t = .out := by decide
  exact ⟨by decide, ((irq_line_settles acts).2.2.2 hout).2⟩

end TulipIrq

end Alphabox.Pci
