import Alphabox.Isa.Uart16550

/-!
# No byte lost, and an interrupt that is a function of the state

The receive side is accounted for by a `Ledger`: every accepted byte is, in the order of
acceptance, one that an RBR read returned, one that an FCR write discarded, or one that still
waits in the FIFO, and the waiting ones come last. The interrupt side is `Identified`: IIR's low
half and the level driven are those of the first cause in priority order that is enabled and
raised. Every register access either recomputes them or leaves the causes alone.
-/

namespace Alphabox.Isa

/-! ## Causes -/

/-- The interrupt's causes. -/
inductive Cause where
  | overrun
  | data
  | thre
  | modem
  deriving DecidableEq

namespace Cause

/-- The causes, highest priority first. -/
def all : List Cause := [.overrun, .data, .thre, .modem]

/-- The cause as IIR's low half gives it. -/
def code : Cause → BitVec 8
  | .overrun => 0x06
  | .data => 0x04
  | .thre => 0x02
  | .modem => 0x00

/-- The cause's bit of IER. -/
def enable : Cause → BitVec 8
  | .overrun => IER_RLS
  | .data => IER_RDA
  | .thre => IER_THRE
  | .modem => IER_MS

/-- The condition is there, whether or not it is enabled. -/
def raised (u : Uart16550) : Cause → Bool
  | .overrun => tests u.bLSR LSR_OE
  | .data => !u.fifo.isEmpty
  | .thre => u.threPending
  | .modem => tests u.bMSR MSR_DELTAS

end Cause

namespace Uart16550

/-- The highest-priority cause that is enabled and raised. -/
def cause (u : Uart16550) : Option Cause :=
  Cause.all.find? fun c => tests u.bIER c.enable && c.raised u

/-- IIR's low half gives the cause, 1 for none, and the line is driven for one. -/
structure Identified (u : Uart16550) : Prop where
  iir : u.bIIR &&& 0x0f = (u.cause.map Cause.code).getD IIR_NONE
  line : u.line = u.cause.isSome

theorem rxEmpty_iff {u : Uart16550} : u.rxEmpty = true ↔ u.fifo = [] := by
  rw [rxEmpty, decide_eq_true_eq, fifo, Lib.Ring.contents_eq_nil]

theorem rxEmpty_eq (u : Uart16550) : u.rxEmpty = u.fifo.isEmpty := by
  rw [Bool.eq_iff_iff, rxEmpty_iff, List.isEmpty_iff]

/-- What `cause` looks at. -/
theorem cause_congr {u v : Uart16550} (hi : u.bIER = v.bIER)
    (hl : tests u.bLSR LSR_OE = tests v.bLSR LSR_OE) (hf : u.fifo = v.fifo)
    (ht : u.threPending = v.threPending) (hm : u.bMSR = v.bMSR) : u.cause = v.cause := by
  have hr (c : Cause) : c.raised u = c.raised v := by
    cases c <;> simp only [Cause.raised, hl, hf, ht, hm]
  simp only [cause, hi, hr]

theorem Identified.congr {u v : Uart16550} (h : Identified v) (hi : u.bIER = v.bIER)
    (hl : u.bLSR = v.bLSR) (hf : u.fifo = v.fifo) (ht : u.threPending = v.threPending)
    (hm : u.bMSR = v.bMSR) (hr : u.bIIR = v.bIIR) (hline : u.line = v.line) : Identified u := by
  have hc := cause_congr hi (by rw [hl]) hf ht hm
  exact ⟨by rw [hc, hr, h.iir], by rw [hc, hline, h.line]⟩

/-- The source's chain of tests is the search through the causes. -/
theorem iirCause_eq (u : Uart16550) : u.iirCause = (u.cause.map Cause.code).getD IIR_NONE := by
  unfold iirCause cause
  rw [rxEmpty_eq]
  simp only [Cause.all, List.find?, Cause.enable, Cause.raised]
  generalize (tests u.bIER IER_RLS && tests u.bLSR LSR_OE) = overrun
  generalize (tests u.bIER IER_RDA && !u.fifo.isEmpty) = data
  generalize (tests u.bIER IER_THRE && u.threPending) = thre
  generalize (tests u.bIER IER_MS && tests u.bMSR MSR_DELTAS) = modem
  cases overrun <;> cases data <;> cases thre <;> cases modem <;> rfl

theorem identified_updateLocked (u : Uart16550) : Identified u.updateLocked := by
  have hc : u.updateLocked.cause = u.cause := cause_congr rfl rfl rfl rfl rfl
  constructor
  · rw [hc]
    show (if tests u.bFCR FCR_ENABLE then u.iirCause ||| IIR_FIFO else u.iirCause) &&& 0x0f = _
    rw [iirCause_eq]
    cases u.cause with
    | none => split <;> rfl
    | some c => cases c <;> split <;> rfl
  · rw [hc]
    show (!tests u.iirCause IIR_NONE) = _
    rw [iirCause_eq]
    cases u.cause with
    | none => rfl
    | some c => cases c <;> rfl

/-! ## Register accesses -/

theorem identified_receiveLoop {u : Uart16550} (h : Identified u) (data : List (BitVec 8)) :
    Identified (u.receiveLoop data).1 := by
  induction data generalizing u with
  | nil => exact h
  | cons byte data ih =>
    unfold receiveLoop
    split
    · exact h
    · exact ih (identified_updateLocked _)

theorem identified_receive {u : Uart16550} (h : Identified u) (data : List (BitVec 8)) :
    Identified (u.receive data).1 := by
  unfold receive
  split
  · exact h
  · exact identified_receiveLoop h data

theorem identified_read {u : Uart16550} (h : Identified u) (reg : BitVec 32) :
    Identified (u.read reg).1 := by
  unfold read
  split
  · unfold readRbr
    split
    · exact h
    · exact identified_updateLocked _
  · exact h
  · exact identified_updateLocked _
  · exact h
  · exact h
  · exact identified_updateLocked _
  · exact identified_updateLocked _
  · exact h

theorem identified_write {u : Uart16550} (h : Identified u) (reg : BitVec 32)
    (value : BitVec 8) : Identified (u.write reg value) := by
  unfold write
  split
  · unfold writeThr
    split
    · exact h.congr rfl rfl rfl rfl rfl rfl rfl
    · exact identified_updateLocked _
  · unfold writeIer
    split
    · exact h.congr rfl rfl rfl rfl rfl rfl rfl
    · exact identified_updateLocked _
  · exact identified_updateLocked _
  · exact h.congr rfl rfl rfl rfl rfl rfl rfl
  · exact identified_updateLocked _
  · exact h
  · exact h
  · exact h.congr rfl rfl rfl rfl rfl rfl rfl

/-! ## The FIFO -/

/-- `push_rx` fails just when the FIFO holds 1023 bytes. -/
theorem pushRx_full (u : Uart16550) (byte : BitVec 8) :
    u.pushRx byte = none ↔ u.fifo.length = 1023 := by
  have hfull : u.rcvW + 1 = u.rcvR ↔ u.fifo.length + 1 = 1024 := Lib.Ring.full_iff
  rw [← Nat.succ_inj, ← hfull]
  unfold pushRx
  split
  · rename_i h
    exact iff_of_true rfl h
  · rename_i h
    exact iff_of_false (Option.some_ne_none _) h

theorem pushRx_cases (u : Uart16550) (byte : BitVec 8) :
    u.pushRx byte = none ∨
      ∃ u', u.pushRx byte = some u' ∧ u'.fifo = u.fifo ++ [byte] ∧ u'.bLSR = u.bLSR := by
  unfold pushRx
  split
  · exact Or.inl rfl
  · rename_i h
    exact Or.inr ⟨_, rfl, Lib.Ring.contents_push byte h, rfl⟩

/-- `receive` takes the first bytes, until the FIFO is full. -/
theorem receiveLoop_spec (u : Uart16550) (data : List (BitVec 8)) :
    (u.receiveLoop data).1.fifo = u.fifo ++ data.take (u.receiveLoop data).2 ∧
      (u.receiveLoop data).1.bLSR = u.bLSR ∧
      ((u.receiveLoop data).2 < data.length → (u.receiveLoop data).1.fifo.length = 1023) := by
  induction data generalizing u with
  | nil => simp [receiveLoop]
  | cons byte data ih =>
    rcases pushRx_cases u byte with hn | ⟨u', hs, hf, hl⟩
    · simp [receiveLoop, hn, (pushRx_full u byte).mp hn]
    · obtain ⟨ihf, ihl, ihfull⟩ := ih u'.updateLocked
      have hu : u'.updateLocked.fifo = u.fifo ++ [byte] := hf
      simp only [receiveLoop, hs, ihf, ihl, hu, List.take_succ_cons, List.append_assoc,
        List.singleton_append]
      refine ⟨trivial, hl, fun hlt => ?_⟩
      have hfull := ihfull (Nat.lt_of_succ_lt_succ hlt)
      rwa [ihf, hu, List.append_assoc, List.singleton_append] at hfull

theorem receive_spec (u : Uart16550) (data : List (BitVec 8)) :
    (u.receive data).1.fifo = u.fifo ++ data.take (u.receive data).2 ∧
      (u.receive data).1.bLSR = u.bLSR := by
  unfold receive
  split
  · simp
  · exact ⟨(receiveLoop_spec u data).1, (receiveLoop_spec u data).2.1⟩

/-- An RBR read of a non-empty FIFO takes its oldest byte. -/
theorem readRbr_pop {u : Uart16550} (hd : tests u.bLCR LCR_DLAB = false)
    (he : u.rxEmpty = false) :
    u.fifo = u.readRbr.2 :: u.readRbr.1.fifo ∧ u.readRbr.1.bLSR = u.bLSR := by
  have hne : u.rcvW ≠ u.rcvR := by simpa [rxEmpty, eq_comm] using he
  simp only [readRbr, hd, he, Bool.false_eq_true, if_false]
  exact ⟨Lib.Ring.contents_eq_cons hne, rfl⟩

theorem readRbr_keep {u : Uart16550} (h : (!tests u.bLCR LCR_DLAB && !u.rxEmpty) = false) :
    u.readRbr.1.fifo = u.fifo ∧ u.readRbr.1.bLSR = u.bLSR := by
  unfold readRbr
  split
  · exact ⟨rfl, rfl⟩
  · rename_i hd
    have he : u.rxEmpty = true := by simpa [hd] using h
    simp only [he, if_true]
    exact ⟨rfl, rfl⟩

theorem readIir_keep (u : Uart16550) :
    u.readIir.1.fifo = u.fifo ∧ u.readIir.1.bLSR = u.bLSR := by
  simp only [readIir]
  split <;> exact ⟨rfl, rfl⟩

theorem and_not_overrun (r : BitVec 8) : tests (r &&& ~~~LSR_OE) LSR_OE = false := by
  simp [tests, BitVec.and_assoc, LSR_OE]

/-- What a register read does to the FIFO and to OE. -/
theorem read_cases (u : Uart16550) (reg : BitVec 32) :
    ((u.isData reg && !u.rxEmpty) = true ∧ (reg &&& 7).toNat ≠ 5 ∧
        u.fifo = (u.read reg).2 :: (u.read reg).1.fifo ∧ (u.read reg).1.bLSR = u.bLSR) ∨
      ((u.isData reg && !u.rxEmpty) = false ∧ (u.read reg).1.fifo = u.fifo ∧
        tests (u.read reg).1.bLSR LSR_OE =
          if (reg &&& 7).toNat = 5 then false else tests u.bLSR LSR_OE) := by
  unfold read isData
  generalize (reg &&& 7).toNat = k
  match k with
  | 0 =>
    cases h : (!tests u.bLCR LCR_DLAB && !u.rxEmpty) with
    | true =>
      obtain ⟨hd, he⟩ := Bool.and_eq_true_iff.mp h
      obtain ⟨hf, hl⟩ := readRbr_pop (by simpa using hd) (by simpa using he)
      exact Or.inl ⟨by simpa using h, by decide, hf, hl⟩
    | false =>
      obtain ⟨hf, hl⟩ := readRbr_keep h
      exact Or.inr ⟨by simpa using h, hf, by simp [hl]⟩
  | 1 => exact Or.inr ⟨rfl, rfl, rfl⟩
  | 2 => exact Or.inr ⟨rfl, (readIir_keep u).1, by simp [(readIir_keep u).2]⟩
  | 3 => exact Or.inr ⟨rfl, rfl, rfl⟩
  | 4 => exact Or.inr ⟨rfl, rfl, rfl⟩
  | 5 => exact Or.inr ⟨rfl, rfl, and_not_overrun _⟩
  | 6 => exact Or.inr ⟨rfl, rfl, rfl⟩
  | k + 7 => exact Or.inr ⟨rfl, rfl, by simp⟩

/-- LSR returns OE as it stood. -/
theorem readLsr_overrun (u : Uart16550) : tests u.readLsr.2 LSR_OE = tests u.bLSR LSR_OE := by
  have hstatus : (LSR_THRE ||| LSR_TEMT ||| (if u.rxEmpty then 0 else LSR_DR)) &&& LSR_OE = 0 := by
    cases u.rxEmpty <;> decide
  have h : u.readLsr.2 &&& LSR_OE = u.bLSR &&& LSR_OE := by
    show (LSR_THRE ||| LSR_TEMT ||| _ ||| (u.bLSR &&& LSR_OE)) &&& LSR_OE = _
    rw [BitVec.and_or_distrib_right, hstatus, BitVec.and_assoc, BitVec.and_self]
    exact BitVec.zero_or
  simp only [tests, h]

theorem writeThr_dlab {u : Uart16550} (hd : tests u.bLCR LCR_DLAB = true) (value : BitVec 8) :
    (u.writeThr value).fifo = u.fifo ∧ (u.writeThr value).bLSR = u.bLSR := by
  rw [writeThr, if_pos hd]
  exact ⟨rfl, rfl⟩

theorem writeThr_data {u : Uart16550} (hd : tests u.bLCR LCR_DLAB = false) (value : BitVec 8) :
    (u.writeThr value).fifo = (u.transmit value).fifo ∧
      (u.writeThr value).bLSR = (u.transmit value).bLSR := by
  simp only [writeThr, hd, Bool.false_eq_true, if_false]
  exact ⟨rfl, rfl⟩

theorem writeIer_keep (u : Uart16550) (value : BitVec 8) :
    (u.writeIer value).fifo = u.fifo ∧ (u.writeIer value).bLSR = u.bLSR := by
  unfold writeIer
  split <;> exact ⟨rfl, rfl⟩

theorem writeFcr_fifo (u : Uart16550) (value : BitVec 8) :
    (u.writeFcr value).fifo = if u.fcrResets value then [] else u.fifo := by
  show Lib.Ring.contents u.rcvBuffer (if u.fcrResets value then u.rcvW else u.rcvR) u.rcvW = _
  split
  · exact Lib.Ring.contents_self _ _
  · rfl

theorem or_overrun (r : BitVec 8) : tests (r ||| LSR_OE) LSR_OE = true := by
  simp only [tests, decide_eq_true_eq]
  intro hz
  have := congrArg (fun x => x.getLsbD 1) hz
  simp [LSR_OE] at this

/-- What a register write does to the FIFO and to OE. -/
theorem write_cases (u : Uart16550) (reg : BitVec 32) (value : BitVec 8) :
    (History.loops u reg value = some true ∧ (reg &&& 7).toNat ≠ 2 ∧
        (u.write reg value).fifo = u.fifo ++ [value] ∧
        tests (u.write reg value).bLSR LSR_OE = tests u.bLSR LSR_OE) ∨
      (History.loops u reg value = some false ∧ (reg &&& 7).toNat ≠ 2 ∧
        (u.write reg value).fifo = u.fifo ∧ tests (u.write reg value).bLSR LSR_OE = true) ∨
      (History.loops u reg value = none ∧
        (u.write reg value).fifo =
          (if (reg &&& 7).toNat = 2 && u.fcrResets value then [] else u.fifo) ∧
        tests (u.write reg value).bLSR LSR_OE = tests u.bLSR LSR_OE) := by
  unfold write History.loops isData
  generalize (reg &&& 7).toNat = k
  match k with
  | 0 =>
    cases hd : tests u.bLCR LCR_DLAB with
    | true =>
      obtain ⟨hf, hl⟩ := writeThr_dlab hd value
      exact Or.inr (Or.inr ⟨by simp, by simpa using hf, by simp [hl]⟩)
    | false =>
      obtain ⟨hf, hl⟩ := writeThr_data hd value
      simp only [hf, hl, transmit]
      cases hloop : tests u.bMCR MCR_LOOP with
      | false => exact Or.inr (Or.inr ⟨by simp, by simp; rfl, by simp⟩)
      | true =>
        rcases pushRx_cases u value with hn | ⟨u', hs, hfifo, hlsr⟩
        · refine Or.inr (Or.inl ⟨by simp [hn], by decide, ?_, ?_⟩)
          · simp only [if_true, hn, Option.getD_none]
            rfl
          · simpa [hn] using or_overrun u.bLSR
        · exact Or.inl ⟨by simp [hs], by decide, by simpa [hs] using hfifo, by simp [hs, hlsr]⟩
  | 1 =>
    obtain ⟨hf, hl⟩ := writeIer_keep u value
    exact Or.inr (Or.inr ⟨rfl, hf, by simp [hl]⟩)
  | 2 => exact Or.inr (Or.inr ⟨rfl, by simpa using writeFcr_fifo u value, rfl⟩)
  | 3 => exact Or.inr (Or.inr ⟨rfl, rfl, rfl⟩)
  | 4 => exact Or.inr (Or.inr ⟨rfl, rfl, rfl⟩)
  | 5 => exact Or.inr (Or.inr ⟨rfl, rfl, rfl⟩)
  | 6 => exact Or.inr (Or.inr ⟨rfl, rfl, rfl⟩)
  | k + 7 => exact Or.inr (Or.inr ⟨by simp, by simp; rfl, rfl⟩)

/-! ## What became of every byte -/

/-- What became of an accepted byte. -/
inductive Fate where
  | returned
  | discarded
  | waiting
  deriving DecidableEq

/-- The bytes of one fate, in order. -/
def ofFate (f : Fate) (l : List (BitVec 8 × Fate)) : List (BitVec 8) :=
  (l.filter fun x => x.2 = f).map Prod.fst

theorem ofFate_append (f : Fate) (l m : List (BitVec 8 × Fate)) :
    ofFate f (l ++ m) = ofFate f l ++ ofFate f m := by
  simp [ofFate]

theorem ofFate_map (f g : Fate) (l : List (BitVec 8)) :
    ofFate f (l.map fun b => (b, g)) = if g = f then l else [] := by
  unfold ofFate
  split
  · rename_i h
    simp [List.filter_eq_self.mpr, h, Function.comp_def]
  · rename_i h
    simp [h]

/-- Every accepted byte is settled as returned or discarded, or waits behind all those. -/
def Ledger (accepted returned discarded fifo : List (BitVec 8)) : Prop :=
  ∃ settled : List (BitVec 8 × Fate), (∀ x ∈ settled, x.2 ≠ .waiting) ∧
    accepted = settled.map Prod.fst ++ fifo ∧ ofFate .returned settled = returned ∧
    ofFate .discarded settled = discarded

namespace Ledger

variable {acc ret dis fifo : List (BitVec 8)}

theorem accepts (l : Ledger acc ret dis fifo) (bytes : List (BitVec 8)) :
    Ledger (acc ++ bytes) ret dis (fifo ++ bytes) := by
  obtain ⟨settled, hdone, rfl, hr, hd⟩ := l
  exact ⟨settled, hdone, List.append_assoc _ _ _, hr, hd⟩

/-- The waiting bytes up to `rest` are settled as `f`. -/
theorem settles {front rest : List (BitVec 8)} {f : Fate} (l : Ledger acc ret dis (front ++ rest))
    (hf : f ≠ .waiting) :
    Ledger acc (ret ++ if f = .returned then front else [])
      (dis ++ if f = .discarded then front else []) rest := by
  obtain ⟨settled, hdone, rfl, rfl, rfl⟩ := l
  refine ⟨settled ++ front.map fun b => (b, f), fun x hx => ?_, ?_, ?_, ?_⟩
  · rcases List.mem_append.mp hx with h | h
    · exact hdone x h
    · obtain ⟨b, -, rfl⟩ := List.mem_map.mp h
      exact hf
  · simp [Function.comp_def]
  · rw [ofFate_append, ofFate_map]
  · rw [ofFate_append, ofFate_map]

theorem returns {b : BitVec 8} (l : Ledger acc ret dis (b :: fifo)) :
    Ledger acc (ret ++ [b]) dis fifo := by
  have h : Ledger acc ret dis ([b] ++ fifo) := l
  simpa using h.settles (f := .returned) (by decide)

theorem discards (l : Ledger acc ret dis fifo) : Ledger acc ret (dis ++ fifo) [] := by
  have h : Ledger acc ret dis (fifo ++ []) := by rwa [List.append_nil]
  simpa using h.settles (f := .discarded) (by decide)

/-- The ledger as one list of all accepted bytes. -/
theorem fates (l : Ledger acc ret dis fifo) :
    ∃ fates : List (BitVec 8 × Fate), fates.map Prod.fst = acc ∧ ofFate .returned fates = ret ∧
      ofFate .discarded fates = dis ∧ ofFate .waiting fates = fifo := by
  obtain ⟨settled, hdone, rfl, rfl, rfl⟩ := l
  have hw : ofFate .waiting settled = [] := by
    simp only [ofFate, List.map_eq_nil_iff, List.filter_eq_nil_iff, decide_eq_true_eq]
    exact hdone
  refine ⟨settled ++ fifo.map fun b => (b, .waiting), ?_, ?_, ?_, ?_⟩
  · simp [Function.comp_def]
  · simp [ofFate_append, ofFate_map]
  · simp [ofFate_append, ofFate_map]
  · simp [ofFate_append, ofFate_map, hw]

end Ledger

/-! ## Histories -/

namespace History

/-- What every history keeps. -/
structure Inv (h : History) : Prop where
  ledger : Ledger h.accepted h.returned h.discarded h.uart.fifo
  overrun : tests h.uart.bLSR LSR_OE = h.lost
  identified : Identified h.uart

theorem inv_init : Inv init where
  ledger := ⟨[], by simp, rfl, rfl, rfl⟩
  overrun := by decide
  identified := ⟨by decide, by decide⟩

theorem inv_receive {h : History} (hi : Inv h) (data : List (BitVec 8)) : Inv (h.receive data) := by
  obtain ⟨hf, hl⟩ := receive_spec h.uart data
  refine ⟨?_, ?_, identified_receive hi.identified data⟩
  · simp only [receive, hf]
    exact hi.ledger.accepts _
  · simp only [receive, hl]
    exact hi.overrun

theorem inv_read {h : History} (hi : Inv h) (reg : BitVec 32) : Inv (h.read reg) := by
  refine ⟨?_, ?_, identified_read hi.identified reg⟩
  all_goals rcases read_cases h.uart reg with ⟨hd, hne, hf, hl⟩ | ⟨hd, hf, hl⟩
  · simp only [read, hd, if_true]
    exact Ledger.returns (hf ▸ hi.ledger)
  · simp only [read, hd, Bool.false_eq_true, if_false, hf]
    exact hi.ledger
  · simp only [read, hne, if_false, hl]
    exact hi.overrun
  · simp only [read, hl, hi.overrun]

theorem inv_write {h : History} (hi : Inv h) (reg : BitVec 32) (value : BitVec 8) :
    Inv (h.write reg value) := by
  refine ⟨?_, ?_, identified_write hi.identified reg value⟩
  all_goals
    rcases write_cases h.uart reg value with ⟨hs, hne, hf, hl⟩ | ⟨hs, hne, hf, hl⟩ | ⟨hs, hf, hl⟩
  · simp only [write, hs, hf, hne]
    simpa using hi.ledger.accepts [value]
  · simp only [write, hs, hf, hne]
    simpa using hi.ledger
  · simp only [write, hs, hf]
    cases (reg &&& 7).toNat = 2 && h.uart.fcrResets value with
    | true => exact hi.ledger.discards
    | false => exact hi.ledger
  · simp [write, hs, hl, hi.overrun]
  · simp [write, hs, hl]
  · simp [write, hs, hl, hi.overrun]

theorem inv_step {h : History} (hi : Inv h) (op : UartOp) : Inv (h.step op) := by
  cases op with
  | receive data => exact inv_receive hi data
  | read reg => exact inv_read hi reg
  | write reg value => exact inv_write hi reg value

theorem inv_run (ops : List UartOp) : Inv (run ops) := by
  have h (h0 : History) (hi : Inv h0) : Inv (ops.foldl step h0) := by
    induction ops generalizing h0 with
    | nil => exact hi
    | cons op ops ih => exact ih _ (inv_step hi op)
  exact h init inv_init

end History

/-- After any calls on the port: each accepted byte was returned by an RBR read, discarded by an
FCR write or waits in the FIFO, in the order of acceptance; OE says whether a loopback byte was
lost since the last read of LSR, and that read returns it; IIR<3:0> is the first enabled and
raised cause in priority order, and the line was last driven for whether there is one. -/
theorem uart_keeps_input (ops : List UartOp) :
    (∃ fates : List (BitVec 8 × Fate), fates.map Prod.fst = (History.run ops).accepted ∧
        ofFate .returned fates = (History.run ops).returned ∧
        ofFate .discarded fates = (History.run ops).discarded ∧
        ofFate .waiting fates = (History.run ops).uart.fifo) ∧
      ((History.run ops).uart.rxEmpty = true ↔ (History.run ops).uart.fifo = []) ∧
      tests (History.run ops).uart.bLSR LSR_OE = (History.run ops).lost ∧
      tests (History.run ops).uart.readLsr.2 LSR_OE = (History.run ops).lost ∧
      Identified (History.run ops).uart := by
  have h := History.inv_run ops
  refine ⟨h.ledger.fates, rxEmpty_iff, h.overrun, ?_, h.identified⟩
  rw [readLsr_overrun, h.overrun]

/-- A byte looped back and read, another discarded by turning the FIFOs on. -/
example : (History.run [.write 4 0x10, .write 0 0x55, .write 0 0xaa, .read 0, .write 2 0x01]).returned
      = [0x55] ∧
    (History.run [.write 4 0x10, .write 0 0x55, .write 0 0xaa, .read 0, .write 2 0x01]).discarded
      = [0xaa] := by
  decide

end Uart16550

end Alphabox.Isa
