import Alphabox.Lib.Bits
import Alphabox.Lib.Reach
import Alphabox.Pci.Sym53C8xx

/-!
# What becomes of a raised condition

A history follows every raised bit: it is posted in its register, stacked behind it, or was
returned by one read (`Condition`). DIP, SIP and the pin are functions of the registers, since
every entry ends in `eval_interrupts` (`Evaluated`). The second level is another matter: it moves
down when the registers are clear, not when nothing is pending, so a masked non-fatal bit that
stays posted strands what was stacked. `Strands` names those steps; where none is taken the second
level is empty whenever nothing is pending.
-/

namespace Alphabox.Pci

/-! ## Histories -/

/-- Where a raised bit is. -/
inductive Place where
  | posted
  | stacked
  /-- Returned by the read of that number. -/
  | returned (n : Nat)
  deriving DecidableEq

/-- One raise of one condition, after `born` reads. -/
structure Condition where
  reg : StatReg
  bit : Fin 8
  born : Nat
  place : Place

/-- The channel, the reads of its status registers and the conditions raised. -/
structure SymHistory where
  chan : SymChannel
  reads : List (StatReg × BitVec 8)
  raised : List Condition

namespace SymHistory

variable (chip : SymChip) (h : SymHistory)

def init : SymHistory := ⟨SymChannel.init, [], []⟩

/-- The conditions among the bits given to `set_interrupt`: those a read clears. -/
def conditions (r : StatReg) (interrupt : BitVec 8) : List Condition :=
  ((List.finRange 8).filter fun i : Fin 8 => (interrupt &&& chip.rc r).getLsbD i.val).map fun i =>
    ⟨r, i, h.reads.length, if h.chan.pending then .stacked else .posted⟩

/-- The second level moves down. -/
def moved (down : Bool) (l : List Condition) : List Condition :=
  l.map fun c => if down ∧ c.place = .stacked then { c with place := .posted } else c

/-- A read takes what is posted in its register. -/
def taken (r : StatReg) : List Condition :=
  h.raised.map fun c =>
    if c.reg = r ∧ c.place = .posted then { c with place := .returned h.reads.length } else c

def setInterrupt (r : StatReg) (interrupt : BitVec 8) : SymHistory :=
  { h with
    chan := h.chan.setInterrupt chip r interrupt
    raised := moved ((h.chan.post r interrupt).drains chip)
      (h.raised ++ h.conditions chip r interrupt) }

def read (r : StatReg) : SymHistory where
  chan := (h.chan.readB chip r).1
  reads := h.reads ++ [(r, (h.chan.readB chip r).2)]
  raised := moved ((h.chan.rdclr chip r).drains chip) (h.taken r)

/-- An entry that raises and reads nothing. -/
def quiet (chan : SymChannel) : SymHistory :=
  { h with chan := chan, raised := moved (h.chan.drains chip) h.raised }

def abortRequest : SymHistory :=
  if tb h.chan.istat ISTAT_ABRT then h.setInterrupt chip .dstat DSTAT_ABRT else h

/-- An ISTAT write with ABRT raises DSTAT's condition on the way. -/
def writeIstat (value : BitVec 8) : SymHistory :=
  let h1 := { h with chan := h.chan.setIstatBits value }
  (h1.abortRequest chip).quiet chip (h.chan.writeIstat chip value)

def step : SymOp → SymHistory
  | .setInterrupt r interrupt => h.setInterrupt chip r interrupt
  | .read r => h.read chip r
  | .writeIstat value => h.writeIstat chip value
  | .scripts executing waitReselect running =>
    { h with chan := h.chan.step chip (.scripts executing waitReselect running) }
  | op => h.quiet chip (h.chan.step chip op)

/-- The history's channel is the channel's own run. -/
theorem step_chan (op : SymOp) : (h.step chip op).chan = h.chan.step chip op := by
  cases op <;> rfl

end SymHistory

/-! ## The registers an evaluation leaves -/

namespace SymChannel

variable {chip : SymChip} {s : SymChannel}

/-- DIP, SIP and the pin say what the registers hold. -/
structure Evaluated (chip : SymChip) (s : SymChannel) : Prop where
  dip : tb s.istat ISTAT_DIP = true ↔ s.reg .dstat &&& chip.fatal .dstat ≠ 0
  sip : tb s.istat ISTAT_SIP = true ↔
    s.reg .sist0 &&& (chip.fatal .sist0 ||| s.sien0) ≠ 0 ∨
      s.reg .sist1 &&& (chip.fatal .sist1 ||| s.sien1) ≠ 0
  line : s.line = true ↔
    (s.reg .dstat &&& s.dien &&& chip.fatal .dstat ≠ 0 ∨ s.reg .sist0 &&& s.sien0 ≠ 0 ∨
        s.reg .sist1 &&& s.sien1 ≠ 0 ∨ tb s.istat ISTAT_INTF = true) ∧
      tb s.dcntl DCNTL_IRQD = false ∧
      ¬(chip.regBytes > 128 ∧ tb s.istat1 ISTAT1_SIRQD = true)
  asserted : s.line = s.irqAsserted

  /-- The second level has moved down where nothing is posted. -/
  drained : s.drains chip = true → ∀ r, s.stack r = 0

/-- `tb` of a single bit. -/
theorem tb_bit (r : BitVec 8) (i : Fin 8) : tb r (1#8 <<< i.val) = r.getLsbD i.val := by
  revert r i
  decide +kernel

theorem tb_sb_dip (r : BitVec 8) (d p : Bool) :
    tb (sb (sb r ISTAT_DIP d) ISTAT_SIP p) ISTAT_DIP = d := by
  revert r d p
  decide +kernel

theorem tb_sb_sip (r : BitVec 8) (d p : Bool) :
    tb (sb (sb r ISTAT_DIP d) ISTAT_SIP p) ISTAT_SIP = p := by
  revert r d p
  decide +kernel

theorem tb_sb_intf (r : BitVec 8) (d p : Bool) :
    tb (sb (sb r ISTAT_DIP d) ISTAT_SIP p) ISTAT_INTF = tb r ISTAT_INTF := by
  revert r d p
  decide +kernel

theorem tb_sb_srst (r : BitVec 8) (d p : Bool) :
    tb (sb (sb r ISTAT_DIP d) ISTAT_SIP p) ISTAT_SRST = tb r ISTAT_SRST := by
  revert r d p
  decide +kernel

theorem and_or_ne_zero {a b c : BitVec 8} (h : a &&& c ≠ 0) : a &&& (b ||| c) ≠ 0 := by
  obtain ⟨i, ha, hc⟩ := Lib.and_ne_zero_iff.mp h
  exact Lib.and_ne_zero_iff.mpr ⟨i, ha, by simp [hc]⟩

theorem scsiPending_of_enabled (h : s.scsiEnabled = true) : s.scsiPending chip = true := by
  simp only [scsiEnabled, scsiPending, Bool.or_eq_true, decide_eq_true_eq] at h ⊢
  exact h.imp and_or_ne_zero and_or_ne_zero

theorem dmaPending_of_enabled (h : s.dmaEnabled chip = true) : s.dmaPending chip = true := by
  simp only [dmaEnabled, dmaPending, decide_eq_true_eq] at h ⊢
  obtain ⟨i, ha, hm⟩ := Lib.and_ne_zero_iff.mp h
  exact Lib.and_ne_zero_iff.mpr ⟨i, by simp_all, hm⟩

theorem drains_moveDown (h : (s.moveDown chip).drains chip = true) (r : StatReg) :
    (s.moveDown chip).stack r = 0 := by
  unfold moveDown at h ⊢
  split
  · rfl
  · rename_i hd
    rw [if_neg hd] at h
    exact absurd h hd

/-- An enabled condition is a pending one, so the nested tests of `eval_interrupts` come to
this. -/
theorem willAssert_iff : s.willAssert chip = true ↔
    (s.dmaEnabled chip = true ∨ s.scsiEnabled = true ∨ tb s.istat ISTAT_INTF = true) ∧
      s.irqDisabled chip = false := by
  simp only [willAssert, Bool.and_eq_true, Bool.or_eq_true, Bool.not_eq_true', or_assoc]
  refine and_congr_left fun _ => or_congr ?_ (or_congr ?_ Iff.rfl)
  · exact and_iff_right_of_imp dmaPending_of_enabled
  · exact and_iff_right_of_imp scsiPending_of_enabled

theorem evaluated_evaluate (hl : s.line = s.irqAsserted)
    (hd : s.drains chip = true → ∀ r, s.stack r = 0) : Evaluated chip (s.evaluate chip) where
  dip := by simp only [evaluate, tb_sb_dip, dmaPending, decide_eq_true_eq]
  sip := by simp only [evaluate, tb_sb_sip, scsiPending, Bool.or_eq_true, decide_eq_true_eq]
  line := by
    have hline : (s.evaluate chip).line = s.willAssert chip := by
      simp only [evaluate, hl]
      split <;> simp_all
    rw [hline, willAssert_iff]
    simp only [evaluate, tb_sb_intf, dmaEnabled, scsiEnabled, irqDisabled, Bool.or_eq_true,
      decide_eq_true_eq, Bool.or_eq_false_iff, or_assoc, Bool.and_eq_false_iff]
    simp only [decide_eq_false_iff_not, not_and_or, Bool.not_eq_true]
  asserted := by
    simp only [evaluate, hl]
    split <;> simp_all
  drained := hd

theorem evaluated_eval (hl : s.line = s.irqAsserted) : Evaluated chip (s.evalInterrupts chip) := by
  refine evaluated_evaluate ?_ drains_moveDown
  unfold moveDown
  split <;> exact hl

theorem Evaluated.congr {s' : SymChannel} (h : Evaluated chip s) (hr : s'.reg = s.reg)
    (hk : s'.stack = s.stack) (hi : s'.istat = s.istat) (hi1 : s'.istat1 = s.istat1)
    (hd : s'.dien = s.dien) (h0 : s'.sien0 = s.sien0) (h1 : s'.sien1 = s.sien1)
    (hc : s'.dcntl = s.dcntl) (hl : s'.line = s.line) (ha : s'.irqAsserted = s.irqAsserted) :
    Evaluated chip s' := by
  obtain ⟨hdip, hsip, hline, hass, hdr⟩ := h
  constructor
  · rwa [hr, hi]
  · rwa [hr, hi, h0, h1]
  · rwa [hr, hi, hi1, hd, h0, h1, hc, hl]
  · rwa [hl, ha]
  · simpa only [drains, hr, hk] using hdr

theorem evaluated_evalRaised (hl : s.line = s.irqAsserted) : Evaluated chip (s.evalRaised chip) :=
  (evaluated_eval hl).congr rfl rfl rfl rfl rfl rfl rfl rfl rfl rfl

theorem post_frame (r : StatReg) (interrupt : BitVec 8) :
    (s.post r interrupt).line = s.line ∧ (s.post r interrupt).irqAsserted = s.irqAsserted := by
  unfold post
  split <;> exact ⟨rfl, rfl⟩

theorem evaluated_setInterrupt (hl : s.line = s.irqAsserted) (r : StatReg) (interrupt : BitVec 8) :
    Evaluated chip (s.setInterrupt chip r interrupt) := by
  refine evaluated_evalRaised ?_
  obtain ⟨hline, hirq⟩ := post_frame r interrupt (s := s)
  rw [hline, hirq, hl]

theorem signal_frame : s.signal.line = s.line ∧ s.signal.irqAsserted = s.irqAsserted ∧
    s.signal.reg = s.reg ∧ s.signal.stack = s.stack ∧ s.signal.sien0 = s.sien0 ∧
    s.signal.sien1 = s.sien1 := by
  unfold signal
  split <;> exact ⟨rfl, rfl, rfl, rfl, rfl, rfl⟩

theorem abortRequest_asserted (hl : s.line = s.irqAsserted) :
    (s.abortRequest chip).line = (s.abortRequest chip).irqAsserted := by
  unfold abortRequest
  split
  · exact (evaluated_setInterrupt hl _ _).asserted
  · exact hl

theorem resetRequest_asserted (hl : s.line = s.irqAsserted) (oldSrst : Bool) :
    (s.resetRequest oldSrst).line = (s.resetRequest oldSrst).irqAsserted := by
  unfold resetRequest
  split
  · simp only [chipReset, hl]
    split <;> simp_all
  · exact hl

theorem evaluated_writeIstat (hl : s.line = s.irqAsserted) (value : BitVec 8) :
    Evaluated chip (s.writeIstat chip value) := by
  have h1 : (s.setIstatBits value).line = (s.setIstatBits value).irqAsserted := hl
  refine evaluated_eval ?_
  rw [signal_frame.1, signal_frame.2.1]
  exact resetRequest_asserted (abortRequest_asserted h1) _

theorem evaluated_init : Evaluated chip init := by
  refine ⟨?_, ?_, ?_, rfl, fun _ _ => rfl⟩ <;> cases chip <;> decide

theorem evaluated_step (h : Evaluated chip s) (op : SymOp) : Evaluated chip (s.step chip op) := by
  cases op with
  | setInterrupt r interrupt => exact evaluated_setInterrupt h.asserted r interrupt
  | setIstat interrupt => exact evaluated_evalRaised h.asserted
  | read r => exact evaluated_eval h.asserted
  | writeDien value => exact evaluated_eval h.asserted
  | writeSien0 value => exact evaluated_eval h.asserted
  | writeSien1 value => exact evaluated_eval h.asserted
  | writeDcntl value =>
    refine evaluated_eval ?_
    split <;> exact h.asserted
  | writeIstat value => exact evaluated_writeIstat h.asserted value
  | writeIstat1 value =>
    simp only [step, writeIstat1]
    split
    · exact evaluated_eval h.asserted
    · exact h
  | scripts executing waitReselect running =>
    exact h.congr rfl rfl rfl rfl rfl rfl rfl rfl rfl rfl

/-! ## The second level -/

/-- The registers are about to be evaluated with something stacked, nothing pending, and a masked
non-fatal bit still posted, so that nothing moves down. -/
structure Strands (chip : SymChip) (s : SymChannel) : Prop where
  stacked : ∃ r, s.stack r ≠ 0
  posted : s.drains chip = false
  silent : s.willHalt chip = false

/-- With nothing pending the second level is empty. -/
def SecondEmpty (s : SymChannel) : Prop := s.pending = false → ∀ r, s.stack r = 0

theorem Evaluated.pending_eq (h : Evaluated chip s) : s.pending = s.willHalt chip := by
  rw [Bool.eq_iff_iff]
  simp only [pending, willHalt, dmaPending, scsiPending, Bool.or_eq_true, decide_eq_true_eq, h.dip,
    h.sip]

theorem pending_evaluate : (s.evaluate chip).pending = s.willHalt chip := by
  simp only [pending, evaluate, tb_sb_dip, tb_sb_sip, willHalt]

/-- An evaluation keeps the second level empty with nothing pending except where it strands. -/
theorem secondEmpty_eval : (s.evalInterrupts chip).SecondEmpty ↔ ¬Strands chip s := by
  have hp : (s.evalInterrupts chip).pending = (s.moveDown chip).willHalt chip := pending_evaluate
  unfold SecondEmpty
  rw [hp]
  show (_ → ∀ r, (s.moveDown chip).stack r = 0) ↔ _
  cases hd : s.drains chip with
  | true =>
    have hm : s.moveDown chip =
        { s with reg := fun r => s.reg r ||| s.stack r, stack := fun _ => 0 } := by
      rw [moveDown, if_pos hd]
    rw [hm]
    exact ⟨fun _ h => by simp [h.posted] at hd, fun _ _ _ => rfl⟩
  | false =>
    have hm : s.moveDown chip = s := by rw [moveDown, hd]; rfl
    rw [hm]
    constructor
    · intro h hs
      obtain ⟨r, hr⟩ := hs.stacked
      exact hr (h hs.silent r)
    · intro h hw r
      by_contra hr
      exact h ⟨⟨r, hr⟩, hd, hw⟩

theorem secondEmpty_evalRaised : (s.evalRaised chip).SecondEmpty ↔ ¬Strands chip s :=
  secondEmpty_eval

/-- A register change that touches neither the status registers nor SIEN strands nothing. -/
theorem not_strands_of_same {s' : SymChannel} (hp : s.pending = s.willHalt chip)
    (h : s.SecondEmpty) (hr : s'.reg = s.reg) (hk : s'.stack = s.stack) (h0 : s'.sien0 = s.sien0)
    (h1 : s'.sien1 = s.sien1) : ¬Strands chip s' := by
  rintro ⟨⟨r, hs⟩, -, hw⟩
  have hw' : s.willHalt chip = false := by
    simpa only [willHalt, dmaPending, scsiPending, hr, h0, h1] using hw
  exact hs (by rw [hk]; exact h (hp.trans hw') r)

/-- A raise strands nothing: it stacks where something is pending, and finds the second level
empty where nothing is. -/
theorem not_strands_post (hp : s.pending = s.willHalt chip) (h : s.SecondEmpty) (r : StatReg)
    (interrupt : BitVec 8) : ¬Strands chip (s.post r interrupt) := by
  unfold post
  split
  · rename_i hpend
    rintro ⟨-, -, hw⟩
    have hw' : s.willHalt chip = false := hw
    rw [← hp, hpend] at hw'
    exact Bool.noConfusion hw'
  · rename_i hpend
    rintro ⟨⟨r', hs⟩, -, -⟩
    exact hs (h (by simpa using hpend) r')

/-- An ISTAT write leaves DIP and SIP, and sets SRST as written. -/
theorem tb_setIstatBits (value : BitVec 8) : (s.setIstatBits value).pending = s.pending ∧
    tb (s.setIstatBits value).istat ISTAT_SRST = tb value ISTAT_SRST := by
  have hd (r : BitVec 8) : tb r ISTAT_DIP = r.getLsbD 0 := tb_bit r 0
  have hs (r : BitVec 8) : tb r ISTAT_SIP = r.getLsbD 1 := tb_bit r 1
  have hr (r : BitVec 8) : tb r ISTAT_SRST = r.getLsbD 6 := tb_bit r 6
  constructor
  · simp [pending, setIstatBits, hd, hs, wrmw1c, ISTAT_MASK, ISTAT_W1C]
  · simp [setIstatBits, hr, wrmw1c, ISTAT_MASK, ISTAT_W1C]

theorem tb_setInterrupt_srst (r : StatReg) (interrupt : BitVec 8) :
    tb (s.setInterrupt chip r interrupt).istat ISTAT_SRST = tb s.istat ISTAT_SRST := by
  have hm : ((s.post r interrupt).moveDown chip).istat = s.istat := by
    unfold moveDown post
    split <;> split <;> rfl
  show tb (sb (sb ((s.post r interrupt).moveDown chip).istat ISTAT_DIP _) ISTAT_SIP _) _ = _
  rw [tb_sb_srst, hm]

/-- The operation leaves nothing stranded behind a bit that stays posted. -/
def Safe (chip : SymChip) (s : SymChannel) : SymOp → Prop
  | .read r => ¬Strands chip (s.rdclr chip r)
  | .writeSien0 value => ¬Strands chip (s.setSien0 value)
  | .writeSien1 value => ¬Strands chip (s.setSien1 chip value)
  | _ => True

theorem tb_abortRequest_srst (value : BitVec 8) :
    tb ((s.setIstatBits value).abortRequest chip).istat ISTAT_SRST = tb value ISTAT_SRST := by
  unfold abortRequest
  split
  · rw [tb_setInterrupt_srst, (tb_setIstatBits value).2]
  · exact (tb_setIstatBits value).2

theorem resetRequest_eq {value : BitVec 8} (hn : s.NoReset (.writeIstat value)) :
    ((s.setIstatBits value).abortRequest chip).resetRequest (tb s.istat ISTAT_SRST) =
      (s.setIstatBits value).abortRequest chip := by
  unfold resetRequest
  rw [if_neg]
  rw [tb_abortRequest_srst]
  rcases hn with hn | hn <;> simp [hn]

theorem secondEmpty_writeIstat (h : Evaluated chip s) (hs : s.SecondEmpty) {value : BitVec 8}
    (hn : s.NoReset (.writeIstat value)) : (s.writeIstat chip value).SecondEmpty := by
  have hpend := (tb_setIstatBits value (s := s)).1
  have hp : (s.setIstatBits value).pending = (s.setIstatBits value).willHalt chip :=
    hpend.trans h.pending_eq
  have hs1 : (s.setIstatBits value).SecondEmpty := fun hq => hs (hpend ▸ hq)
  have hl : (s.setIstatBits value).line = (s.setIstatBits value).irqAsserted := h.asserted
  -- the abort leaves an evaluated channel, or the written one
  have ha : ((s.setIstatBits value).abortRequest chip).pending =
        ((s.setIstatBits value).abortRequest chip).willHalt chip ∧
      ((s.setIstatBits value).abortRequest chip).SecondEmpty := by
    unfold abortRequest
    split
    · exact ⟨(evaluated_setInterrupt hl _ _).pending_eq,
        secondEmpty_evalRaised.mpr (not_strands_post hp hs1 _ _)⟩
    · exact ⟨hp, hs1⟩
  obtain ⟨hpa, hsa⟩ := ha
  unfold writeIstat
  rw [secondEmpty_eval, resetRequest_eq hn]
  obtain ⟨-, -, hr, hk, h0, h1⟩ := signal_frame (s := (s.setIstatBits value).abortRequest chip)
  exact not_strands_of_same hpa hsa hr hk h0 h1

/-- Where nothing was stranded before, an operation strands something exactly when it is not
safe. -/
theorem secondEmpty_step (h : Evaluated chip s) (hs : s.SecondEmpty) {op : SymOp}
    (hn : s.NoReset op) : (s.step chip op).SecondEmpty ↔ s.Safe chip op := by
  have hp := h.pending_eq
  cases op with
  | setInterrupt r interrupt =>
    exact iff_of_true (secondEmpty_evalRaised.mpr (not_strands_post hp hs r interrupt)) trivial
  | setIstat interrupt =>
    exact iff_of_true (secondEmpty_evalRaised.mpr (not_strands_of_same hp hs rfl rfl rfl rfl)) trivial
  | read r => exact secondEmpty_eval
  | writeDien value =>
    exact iff_of_true (secondEmpty_eval.mpr (not_strands_of_same hp hs rfl rfl rfl rfl)) trivial
  | writeSien0 value => exact secondEmpty_eval
  | writeSien1 value => exact secondEmpty_eval
  | writeDcntl value =>
    refine iff_of_true (secondEmpty_eval.mpr ?_) trivial
    split <;> exact not_strands_of_same hp hs rfl rfl rfl rfl
  | writeIstat value => exact iff_of_true (secondEmpty_writeIstat h hs hn) trivial
  | writeIstat1 value =>
    refine iff_of_true ?_ trivial
    simp only [step, writeIstat1]
    split
    · exact secondEmpty_eval.mpr (not_strands_of_same hp hs rfl rfl rfl rfl)
    · exact hs
  | scripts executing waitReselect running => exact iff_of_true hs trivial

end SymChannel

/-! ## Every raised bit -/

namespace SymHistory

variable {chip : SymChip} {h : SymHistory}

/-- A raised condition of the register and bit is in that place. -/
def At (l : List Condition) (r : StatReg) (i : Fin 8) (p : Place) : Prop :=
  ∃ c ∈ l, c.reg = r ∧ c.bit = i ∧ c.place = p

/-- A condition's bit is set in a level where a raised one is in that place. -/
def Level (chip : SymChip) (bits : StatReg → BitVec 8) (l : List Condition) (p : Place) : Prop :=
  ∀ r (i : Fin 8), (chip.rc r).getLsbD i.val = true → ((bits r).getLsbD i.val = true ↔ At l r i p)

/-- What the history says of the registers and of the reads: every bit of every read came from a
condition raised before. -/
structure Accounts (chip : SymChip) (h : SymHistory) : Prop where
  posted : Level chip h.chan.reg h.raised .posted
  stacked : Level chip h.chan.stack h.raised .stacked
  returned : ∀ n r v, h.reads[n]? = some (r, v) → ∀ i : Fin 8, (chip.rc r).getLsbD i.val = true →
    (v.getLsbD i.val = true ↔ At h.raised r i (.returned n))
  condition : ∀ c ∈ h.raised, (chip.rc c.reg).getLsbD c.bit.val = true ∧ c.born ≤ h.reads.length
  later : ∀ c ∈ h.raised, ∀ n, c.place = .returned n →
    c.born ≤ n ∧ ∃ v, h.reads[n]? = some (c.reg, v)

theorem at_append {l m : List Condition} {r : StatReg} {i : Fin 8} {p : Place} :
    At (l ++ m) r i p ↔ At l r i p ∨ At m r i p := by
  simp only [At, List.mem_append, or_and_right, exists_or]

theorem at_moved_posted {l : List Condition} {r : StatReg} {i : Fin 8} :
    At (moved true l) r i .posted ↔ At l r i .posted ∨ At l r i .stacked := by
  simp only [At, moved, List.mem_map]
  constructor
  · rintro ⟨_, ⟨c, hc, rfl⟩, h⟩
    by_cases hs : c.place = .stacked
    · exact Or.inr ⟨c, hc, by simpa [hs] using h⟩
    · exact Or.inl ⟨c, hc, by simpa [hs] using h⟩
  · rintro (⟨c, hc, h⟩ | ⟨c, hc, h⟩)
    · exact ⟨_, ⟨c, hc, rfl⟩, by simpa [h.2.2] using h⟩
    · exact ⟨_, ⟨c, hc, rfl⟩, by simp [h.2.2, h.1, h.2.1]⟩

theorem at_moved_stacked {l : List Condition} {r : StatReg} {i : Fin 8} :
    ¬At (moved true l) r i .stacked := by
  simp only [At, moved, List.mem_map]
  rintro ⟨_, ⟨c, hc, rfl⟩, h⟩
  by_cases hs : c.place = .stacked <;> simp [hs] at h

theorem at_moved_returned {l : List Condition} {r : StatReg} {i : Fin 8} {n : Nat} {down : Bool} :
    At (moved down l) r i (.returned n) ↔ At l r i (.returned n) := by
  simp only [At, moved, List.mem_map]
  constructor
  · rintro ⟨_, ⟨c, hc, rfl⟩, h⟩
    refine ⟨c, hc, ?_⟩
    by_cases hs : down = true ∧ c.place = .stacked
    · rw [if_pos hs] at h
      exact Place.noConfusion h.2.2
    · rwa [if_neg hs] at h
  · rintro ⟨c, hc, h⟩
    exact ⟨_, ⟨c, hc, rfl⟩, by simpa [h.2.2] using h⟩

theorem moved_false (l : List Condition) : moved false l = l := by simp [moved]

/-- Where nothing is posted the registers have no condition's bit. -/
theorem rc_clear_of_drains {s : SymChannel} (hd : s.drains chip = true) {r : StatReg} {i : Nat}
    (hi : (chip.rc r).getLsbD i = true) : (s.reg r).getLsbD i = false := by
  simp only [SymChannel.drains, Bool.and_eq_true, decide_eq_true_eq] at hd
  obtain ⟨⟨h0, h1⟩, hds⟩ := hd
  cases r with
  | dstat =>
    have := congrArg (fun x => x.getLsbD i) hds
    simpa [hi] using this
  | sist0 => simp [h0]
  | sist1 => simp [h1]

/-- An evaluation moves down what the status registers and their second level say. -/
theorem eval_levels {s s' : SymChannel} (hr : s'.reg = s.reg) (hk : s'.stack = s.stack) :
    (s'.evalInterrupts chip).reg = (s.moveDown chip).reg ∧
      (s'.evalInterrupts chip).stack = (s.moveDown chip).stack := by
  show (s'.moveDown chip).reg = _ ∧ (s'.moveDown chip).stack = _
  have hd : s'.drains chip = s.drains chip := by simp only [SymChannel.drains, hr]
  unfold SymChannel.moveDown
  rw [hd]
  split
  · exact ⟨by simp only [hr, hk], rfl⟩
  · exact ⟨hr, hk⟩

/-- The levels after the second one has moved down. -/
theorem level_moveDown {s : SymChannel} {l : List Condition} (hp : Level chip s.reg l .posted)
    (hs : Level chip s.stack l .stacked) :
    Level chip (s.moveDown chip).reg (moved (s.drains chip) l) .posted ∧
      Level chip (s.moveDown chip).stack (moved (s.drains chip) l) .stacked := by
  unfold SymChannel.moveDown
  cases hd : s.drains chip with
  | true =>
    refine ⟨fun r i hi => ?_, fun r i hi => ?_⟩
    · simp only [if_true, BitVec.getLsbD_or, Bool.or_eq_true]
      rw [at_moved_posted, hp r i hi, hs r i hi]
    · simpa using at_moved_stacked
  | false =>
    rw [moved_false]
    exact ⟨hp, hs⟩

theorem at_conditions {r r' : StatReg} {interrupt : BitVec 8} {i : Fin 8} {p : Place} :
    At (h.conditions chip r interrupt) r' i p ↔
      r' = r ∧ (interrupt &&& chip.rc r).getLsbD i.val = true ∧
        p = if h.chan.pending then .stacked else .posted := by
  simp only [At, conditions, List.mem_map, List.mem_filter, List.mem_finRange, true_and]
  constructor
  · rintro ⟨c, ⟨i', hi', rfl⟩, rfl, rfl, rfl⟩
    exact ⟨rfl, hi', rfl⟩
  · rintro ⟨rfl, hi, rfl⟩
    exact ⟨_, ⟨i, hi, rfl⟩, rfl, rfl, rfl⟩

/-- The levels after a raise has been posted or stacked. -/
theorem level_post (hp : Level chip h.chan.reg h.raised .posted)
    (hs : Level chip h.chan.stack h.raised .stacked) (r : StatReg) (interrupt : BitVec 8) :
    Level chip (h.chan.post r interrupt).reg (h.raised ++ h.conditions chip r interrupt) .posted ∧
      Level chip (h.chan.post r interrupt).stack (h.raised ++ h.conditions chip r interrupt)
        .stacked := by
  have hset (bits : StatReg → BitVec 8) (r' : StatReg) (i : Fin 8)
      (hi : (chip.rc r').getLsbD i.val = true) :
      (Function.update bits r (bits r ||| interrupt) r').getLsbD i.val = true ↔
        (bits r').getLsbD i.val = true ∨
          r' = r ∧ (interrupt &&& chip.rc r).getLsbD i.val = true := by
    by_cases hr : r' = r
    · subst hr
      simp [hi]
    · simp [hr]
  refine ⟨fun r' i hi => ?_, fun r' i hi => ?_⟩
  · rw [at_append, at_conditions, ← hp r' i hi, SymChannel.post]
    cases h.chan.pending with
    | false => exact (hset _ r' i hi).trans (by simp)
    | true => simp
  · rw [at_append, at_conditions, ← hs r' i hi, SymChannel.post]
    cases h.chan.pending with
    | false => simp
    | true => exact (hset _ r' i hi).trans (by simp)

theorem at_taken_posted {r r' : StatReg} {i : Fin 8} :
    At (h.taken r) r' i .posted ↔ r' ≠ r ∧ At h.raised r' i .posted := by
  simp only [At, taken, List.mem_map]
  constructor
  · rintro ⟨_, ⟨c, hc, rfl⟩, hx⟩
    by_cases ht : c.reg = r ∧ c.place = .posted
    · rw [if_pos ht] at hx
      exact Place.noConfusion hx.2.2
    · rw [if_neg ht] at hx
      exact ⟨fun he => ht ⟨hx.1.trans he, hx.2.2⟩, c, hc, hx⟩
  · rintro ⟨hne, c, hc, hx⟩
    exact ⟨_, ⟨c, hc, rfl⟩, by rw [if_neg fun ht => hne (hx.1.symm.trans ht.1)]; exact hx⟩

theorem at_taken_stacked {r r' : StatReg} {i : Fin 8} :
    At (h.taken r) r' i .stacked ↔ At h.raised r' i .stacked := by
  simp only [At, taken, List.mem_map]
  constructor
  · rintro ⟨_, ⟨c, hc, rfl⟩, hx⟩
    by_cases ht : c.reg = r ∧ c.place = .posted
    · rw [if_pos ht] at hx
      exact Place.noConfusion hx.2.2
    · rw [if_neg ht] at hx
      exact ⟨c, hc, hx⟩
  · rintro ⟨c, hc, hx⟩
    exact ⟨_, ⟨c, hc, rfl⟩, by simpa [hx.2.2] using hx⟩

/-- A read's own number marks what was posted in its register; the older marks stay. -/
theorem at_taken_returned {r r' : StatReg} {i : Fin 8} {n : Nat} :
    At (h.taken r) r' i (.returned n) ↔
      At h.raised r' i (.returned n) ∨
        n = h.reads.length ∧ r' = r ∧ At h.raised r' i .posted := by
  simp only [At, taken, List.mem_map]
  constructor
  · rintro ⟨_, ⟨c, hc, rfl⟩, hx⟩
    by_cases ht : c.reg = r ∧ c.place = .posted
    · rw [if_pos ht] at hx
      obtain ⟨rfl, rfl, hn⟩ := hx
      exact Or.inr ⟨(Place.returned.inj hn).symm, ht.1, c, hc, rfl, rfl, ht.2⟩
    · rw [if_neg ht] at hx
      exact Or.inl ⟨c, hc, hx⟩
  · rintro (⟨c, hc, hx⟩ | ⟨rfl, rfl, c, hc, hx⟩)
    · exact ⟨_, ⟨c, hc, rfl⟩, by simpa [hx.2.2] using hx⟩
    · exact ⟨_, ⟨c, hc, rfl⟩, by simp [hx.1, hx.2.1, hx.2.2]⟩

/-- The levels after a read has cleared its register. -/
theorem level_taken (hp : Level chip h.chan.reg h.raised .posted)
    (hs : Level chip h.chan.stack h.raised .stacked) (r : StatReg) :
    Level chip (h.chan.rdclr chip r).reg (h.taken r) .posted ∧
      Level chip (h.chan.rdclr chip r).stack (h.taken r) .stacked := by
  refine ⟨fun r' i hi => ?_, fun r' i hi => ?_⟩
  · rw [at_taken_posted, ← hp r' i hi]
    by_cases hr : r' = r
    · subst hr
      simp [SymChannel.rdclr, hi]
    · simp [SymChannel.rdclr, hr]
  · rw [at_taken_stacked]
    exact hs r' i hi

/-! ## Histories keep account -/

theorem accounts_init : Accounts chip init where
  posted r i hi := by
    have hd : SymChannel.init.drains chip = true := by cases chip <;> decide
    have h0 : (SymChannel.init.reg r).getLsbD i.val = false := rc_clear_of_drains hd hi
    show (SymChannel.init.reg r).getLsbD i.val = true ↔ _
    rw [h0]
    simp [At, init]
  stacked r i hi := by simp [At, init, SymChannel.init, SymChannel.chipReset]
  returned n r v hn := by simp [init] at hn
  condition c hc := by simp [init] at hc
  later c hc := by simp [init] at hc

/-- An entry that raises and reads nothing, whose evaluation is of these status registers. -/
theorem accounts_quiet (ha : Accounts chip h) {c : SymChannel}
    (hr : c.reg = (h.chan.moveDown chip).reg) (hk : c.stack = (h.chan.moveDown chip).stack) :
    Accounts chip (h.quiet chip c) := by
  obtain ⟨hp, hs⟩ := level_moveDown ha.posted ha.stacked
  refine ⟨by rw [quiet, hr]; exact hp, by rw [quiet, hk]; exact hs, ?_, ?_, ?_⟩
  · intro n r v hn i hi
    rw [ha.returned n r v hn i hi]
    exact at_moved_returned.symm
  · intro c hc
    obtain ⟨c', hc', rfl⟩ := List.mem_map.mp hc
    split <;> exact ha.condition c' hc'
  · intro c hc n hn
    obtain ⟨c', hc', rfl⟩ := List.mem_map.mp hc
    split at hn
    · exact Place.noConfusion hn
    · rename_i hne
      rw [if_neg hne]
      exact ha.later c' hc' n hn

theorem accounts_setInterrupt (ha : Accounts chip h) (r : StatReg) (interrupt : BitVec 8) :
    Accounts chip (h.setInterrupt chip r interrupt) := by
  obtain ⟨hp, hs⟩ := level_post ha.posted ha.stacked r interrupt
  -- the raise by itself keeps account; the evaluation that follows is a quiet one
  have hraise : Accounts chip { h with
      chan := h.chan.post r interrupt, raised := h.raised ++ h.conditions chip r interrupt } := by
    refine ⟨hp, hs, ?_, ?_, ?_⟩
    · intro n r' v hn i hi
      rw [at_append, at_conditions, ha.returned n r' v hn i hi]
      cases h.chan.pending <;> simp
    · intro c hc
      rcases List.mem_append.mp hc with hc | hc
      · exact ha.condition c hc
      · simp only [conditions, List.mem_map, List.mem_filter] at hc
        obtain ⟨i, ⟨-, hi⟩, rfl⟩ := hc
        rw [BitVec.getLsbD_and, Bool.and_eq_true] at hi
        exact ⟨hi.2, le_rfl⟩
    · intro c hc n hn
      rcases List.mem_append.mp hc with hc | hc
      · exact ha.later c hc n hn
      · simp only [conditions, List.mem_map, List.mem_filter] at hc
        obtain ⟨i, -, rfl⟩ := hc
        cases hpend : h.chan.pending <;> simp [hpend] at hn
  exact accounts_quiet hraise (c := h.chan.setInterrupt chip r interrupt) rfl rfl

theorem accounts_read (ha : Accounts chip h) (r : StatReg) : Accounts chip (h.read chip r) := by
  obtain ⟨hp, hs⟩ := level_taken ha.posted ha.stacked r
  have hnone (r' : StatReg) (i : Fin 8) : ¬At h.raised r' i (.returned h.reads.length) := by
    rintro ⟨c, hc, -, -, hn⟩
    obtain ⟨-, v, hv⟩ := ha.later c hc _ hn
    simp at hv
  have hread : Accounts chip ⟨h.chan.rdclr chip r, h.reads ++ [(r, h.chan.reg r)], h.taken r⟩ := by
    refine ⟨hp, hs, ?_, ?_, ?_⟩
    · intro n r' v hn i hi
      rw [at_taken_returned]
      rcases Nat.lt_or_ge n h.reads.length with hlt | hge
      · rw [List.getElem?_append_left hlt] at hn
        rw [ha.returned n r' v hn i hi]
        simp [hlt.ne]
      · rw [List.getElem?_append_right hge, List.getElem?_singleton] at hn
        split at hn
        · obtain rfl : n = h.reads.length := by omega
          obtain ⟨rfl, rfl⟩ := Prod.mk.inj (Option.some.inj hn)
          simp only [hnone, false_or, true_and]
          exact ha.posted r i hi
        · simp at hn
    · intro c hc
      obtain ⟨c', hc', rfl⟩ := List.mem_map.mp hc
      obtain ⟨hrc, hb⟩ := ha.condition c' hc'
      rw [List.length_append]
      split <;> exact ⟨hrc, hb.trans (Nat.le_add_right _ _)⟩
    · intro c hc n hn
      obtain ⟨c', hc', rfl⟩ := List.mem_map.mp hc
      split at hn
      · rename_i ht
        rw [if_pos ht]
        obtain rfl := Place.returned.inj hn
        exact ⟨(ha.condition c' hc').2, h.chan.reg r, by simp [ht.1]⟩
      · rename_i ht
        rw [if_neg ht]
        obtain ⟨hb, v, hv⟩ := ha.later c' hc' n hn
        have hlt : n < h.reads.length := (List.getElem?_eq_some_iff.mp hv).1
        exact ⟨hb, v, by rw [List.getElem?_append_left hlt, hv]⟩
  exact accounts_quiet hread (c := (h.chan.readB chip r).1) rfl rfl

theorem accounts_eval (ha : Accounts chip h) {s : SymChannel} (hr : s.reg = h.chan.reg)
    (hk : s.stack = h.chan.stack) : Accounts chip (h.quiet chip (s.evalInterrupts chip)) := by
  exact accounts_quiet ha (eval_levels hr hk).1 (eval_levels hr hk).2

theorem accounts_writeIstat (ha : Accounts chip h) {value : BitVec 8}
    (hn : h.chan.NoReset (.writeIstat value)) : Accounts chip (h.writeIstat chip value) := by
  have h1 : Accounts chip { h with chan := h.chan.setIstatBits value } :=
    ⟨ha.posted, ha.stacked, ha.returned, ha.condition, ha.later⟩
  have h2 : Accounts chip (abortRequest chip { h with chan := h.chan.setIstatBits value }) := by
    unfold abortRequest
    split
    · exact accounts_setInterrupt h1 _ _
    · exact h1
  have hc : (abortRequest chip { h with chan := h.chan.setIstatBits value }).chan =
      (h.chan.setIstatBits value).abortRequest chip := by
    unfold abortRequest SymChannel.abortRequest
    split <;> rfl
  obtain ⟨-, -, hr, hk, -⟩ :=
    SymChannel.signal_frame (s := (h.chan.setIstatBits value).abortRequest chip)
  have hw : h.chan.writeIstat chip value =
      ((h.chan.setIstatBits value).abortRequest chip).signal.evalInterrupts chip := by
    rw [SymChannel.writeIstat, SymChannel.resetRequest_eq hn]
  simp only [writeIstat, hw]
  exact accounts_eval h2 (hr.trans (by rw [hc])) (hk.trans (by rw [hc]))

theorem accounts_step (he : SymChannel.Evaluated chip h.chan) (ha : Accounts chip h) {op : SymOp}
    (hn : h.chan.NoReset op) : Accounts chip (h.step chip op) := by
  cases op with
  | setInterrupt r interrupt => exact accounts_setInterrupt ha r interrupt
  | setIstat interrupt =>
    have h1 := accounts_eval ha (s := { h.chan with istat := h.chan.istat ||| interrupt }) rfl rfl
    exact ⟨h1.posted, h1.stacked, h1.returned, h1.condition, h1.later⟩
  | read r => exact accounts_read ha r
  | writeDien value => exact accounts_eval ha (s := { h.chan with dien := _ }) rfl rfl
  | writeSien0 value => exact accounts_eval ha (s := h.chan.setSien0 value) rfl rfl
  | writeSien1 value => exact accounts_eval ha (s := h.chan.setSien1 chip value) rfl rfl
  | writeDcntl value =>
    refine accounts_eval ha ?_ ?_ <;> split <;> rfl
  | writeIstat value => exact accounts_writeIstat ha hn
  | writeIstat1 value =>
    show Accounts chip (h.quiet chip (h.chan.writeIstat1 chip value))
    unfold SymChannel.writeIstat1
    split
    · exact accounts_eval ha (s := { h.chan with istat1 := _ }) rfl rfl
    · -- not decoded: the second level was already down
      refine accounts_quiet ha ?_ ?_
      all_goals
        unfold SymChannel.moveDown
        split
      · rename_i hd
        funext r
        simp [he.drained hd r]
      · rfl
      · rename_i hd
        funext r
        exact he.drained hd r
      · rfl
  | scripts executing waitReselect running =>
    exact ⟨ha.posted, ha.stacked, ha.returned, ha.condition, ha.later⟩

/-! ## Runs -/

/-- What the host is owed in a state: DIP, SIP and the pin follow the registers, the second level
is empty with nothing pending, and every raised condition is accounted for. -/
structure Kept (chip : SymChip) (h : SymHistory) : Prop where
  evaluated : SymChannel.Evaluated chip h.chan
  second : h.chan.SecondEmpty
  accounts : Accounts chip h

/-- The histories of a channel that was just reset, by operations allowed where they are taken. -/
def Reachable (chip : SymChip) (ok : SymHistory → SymOp → Prop) : SymHistory → Prop :=
  Lib.Reach (· = init) ok (step chip)

/-- No operation resets the chip again. -/
def Running (h : SymHistory) (op : SymOp) : Prop := h.chan.NoReset op

/-- And none strands a condition. -/
def RunningSafe (chip : SymChip) (h : SymHistory) (op : SymOp) : Prop :=
  h.chan.NoReset op ∧ h.chan.Safe chip op

theorem kept_init : Kept chip init := by
  refine ⟨SymChannel.evaluated_init, fun _ _ => rfl, accounts_init⟩

theorem kept_step (hk : Kept chip h) {op : SymOp} (hn : h.chan.NoReset op) :
    Kept chip (h.step chip op) ↔ h.chan.Safe chip op := by
  have hs := SymChannel.secondEmpty_step hk.evaluated hk.second hn
  refine ⟨fun hkept => ?_, fun hsafe => ?_⟩
  · rw [← hs, ← step_chan]
    exact hkept.second
  · refine ⟨?_, ?_, accounts_step hk.evaluated hk.accounts hn⟩
    · rw [step_chan]
      exact SymChannel.evaluated_step hk.evaluated op
    · rw [step_chan]
      exact hs.mpr hsafe

theorem Reachable.kept (hr : Reachable chip (RunningSafe chip) h) : Kept chip h := by
  refine Lib.Reach.inv (P := Kept chip) (fun h hi => ?_) (fun h op hk ha => ?_) hr
  · rw [hi]
    exact kept_init
  · exact (kept_step hk ha.1).mpr ha.2

/-- In every run of safe operations no interrupt is lost, and the next operation loses none
exactly when it is safe. -/
theorem sym_keeps_interrupts (hr : Reachable chip (RunningSafe chip) h) :
    Kept chip h ∧
      ∀ op, h.chan.NoReset op → (Kept chip (h.step chip op) ↔ h.chan.Safe chip op) :=
  ⟨hr.kept, fun _ hn => kept_step hr.kept hn⟩

/-- A phase mismatch, a SCRIPTS interrupt stacked behind it, and the read of SIST0. -/
def mismatchThenInt : List SymOp := [.setInterrupt .sist0 0x80, .setInterrupt .dstat 0x04, .read .sist0]

theorem sym_keeps_interrupts_stacked :
    Kept .c810 (mismatchThenInt.foldl (step .c810) init) ∧
      (mismatchThenInt.foldl (step .c810) init).chan.reg .dstat = 0x84 := by
  have h0 : Reachable .c810 (RunningSafe .c810) init := .start rfl
  have h1 := h0.next (show RunningSafe .c810 _ (.setInterrupt .sist0 0x80) from ⟨trivial, trivial⟩)
  have h2 := h1.next (show RunningSafe .c810 _ (.setInterrupt .dstat 0x04) from ⟨trivial, trivial⟩)
  have h3 := h2.next (show RunningSafe .c810 _ (.read .sist0) from
    ⟨trivial, fun hs => absurd hs.posted (by decide +kernel)⟩)
  exact ⟨(sym_keeps_interrupts h3).1, by decide +kernel⟩

/-- The same behind a general purpose timer that is masked. -/
def maskedTimer : List SymOp := .setInterrupt .sist1 0x02 :: mismatchThenInt

/-- The timer's bit keeps the SCRIPTS interrupt on the second level with nothing pending. -/
theorem sym_strands_interrupt :
    ∃ h, Reachable .c810 Running h ∧ ¬Kept .c810 h := by
  refine ⟨maskedTimer.foldl (step .c810) init, ?_, fun hk => ?_⟩
  · have h0 : Reachable .c810 Running init := .start rfl
    refine h0.foldl _ fun op hop h => ?_
    simp only [maskedTimer, mismatchThenInt, List.mem_cons, List.not_mem_nil, or_false] at hop
    rcases hop with rfl | rfl | rfl | rfl <;> exact trivial
  · have hp : (maskedTimer.foldl (step .c810) init).chan.pending = false := by decide +kernel
    have hstack : (maskedTimer.foldl (step .c810) init).chan.stack .dstat = 0x04 := by
      decide +kernel
    have h0 := hk.second hp .dstat
    rw [hstack] at h0
    exact absurd h0 (by decide)

end SymHistory

end Alphabox.Pci
