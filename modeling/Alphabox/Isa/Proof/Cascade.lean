import Alphabox.Isa.I8259
import Alphabox.Lib.Reach

/-!
# The cascade shows no phantom interrupt

`Inv`: the level last given to `int_line` is the master's output, the master's request 2 is
there only while the slave has a deliverable request, and nothing is in service on a master
between its ICW1 and the last ICW. The third is what makes ICW4, which changes the special
fully nested mode without a refresh of the output, harmless (`getIrq_specialFnm`); it is the
reason no acknowledge may fall into an initialisation.

Every operation ends in `refresh` (an output recomputed from the registers: `inv_refresh`) or
in `setChip` of registers with the same request (`inv_setChip`).
-/

namespace Alphabox.Isa

open I8259

/-! ## Bits -/

theorem has_bit (n m : Fin 8) : has (bit n) m = decide (m = n) := by
  have hm := m.isLt
  have hn := n.isLt
  simp only [has, bit, BitVec.getLsbD_shiftLeft, BitVec.getLsbD_one, Fin.ext_iff]
  by_cases h : m.val = n.val
  · simp [h]
  · simp only [h, decide_false]
    rcases Nat.lt_or_gt_of_ne h with h | h
    · simp [h]
    · simp; omega

theorem has_or_bit (r : BitVec 8) (n m : Fin 8) :
    has (r ||| bit n) m = (has r m || decide (m = n)) := by
  rw [← has_bit]
  simp only [has, BitVec.getLsbD_or]

theorem has_and_not_bit (r : BitVec 8) (n m : Fin 8) :
    has (r &&& ~~~bit n) m = (has r m && !decide (m = n)) := by
  rw [← has_bit]
  simp only [has, BitVec.getLsbD_and, BitVec.getLsbD_not, m.isLt, decide_true, Bool.true_and]

/-! ## The request of a controller -/

/-- `get_irq` reads the request, mask and in-service registers, the rotation and the two modes. -/
theorem getIrq_congr {index : Index} {c c' : Chip} (hirr : c'.irr = c.irr) (himr : c'.imr = c.imr)
    (hisr : c'.isr = c.isr) (hadd : c'.priorityAdd = c.priorityAdd)
    (hsm : c'.specialMask = c.specialMask) (hsf : c'.specialFnm = c.specialFnm) :
    getIrq index c' = getIrq index c := by
  have hm : isrMask index c' = isrMask index c := by
    cases c; cases c'; simp only at hisr himr hsm hsf; subst hisr himr hsm hsf; rfl
  simp only [getIrq, hirr, himr, hadd, hm]

/-- With nothing in service the special fully nested mode changes no request. -/
theorem getIrq_specialFnm {index : Index} {c c' : Chip} (hirr : c'.irr = c.irr)
    (himr : c'.imr = c.imr) (hisr : c'.isr = c.isr) (hadd : c'.priorityAdd = c.priorityAdd) (h0 : c.isr = 0) :
    getIrq index c' = getIrq index c := by
  have hm : ∀ d : Chip, d.isr = 0 → isrMask index d = 0 := fun d hd => by simp [isrMask, hd]
  simp only [getIrq, hirr, himr, hadd, hm c h0, hm c' (hisr.trans h0)]

/-- A request delivered is one that is pending and not masked. -/
theorem getIrq_pending {index : Index} {c : Chip} {irq : Fin 8} (h : getIrq index c = some irq) :
    has c.irr irq = true ∧ has c.imr irq = false := by
  simp only [getIrq] at h
  split at h
  · cases h
  · rename_i h8
    split at h
    · simp only [Option.some.injEq] at h
      subst h
      simp only [priorityOf] at h8 ⊢
      cases hf : (List.range 8).find? fun p =>
          has (c.irr &&& ~~~c.imr) (rotated p c.priorityAdd) with
      | none => simp [hf] at h8
      | some p =>
        have hp := List.find?_some hf
        simpa [has] using hp
    · cases h

/-! ## The invariant -/

/-- The output shown is the output wanted, and the cascade's request is the slave's. -/
structure Inv (s : I8259) : Prop where
  line : s.intLine = (getIrq .master s.master).isSome
  cascade : has s.master.irr cascade = true → (getIrq .slave s.slave).isSome = true
  init : s.master.initState ≠ 0 → s.master.isr = 0

theorem driveCascade_irr {high : Bool} {m : Chip}
    (h : has (driveCascade high m).irr cascade = true) : high = true := by
  cases high with
  | true => rfl
  | false => simp [driveCascade, has_and_not_bit] at h

@[simp] theorem driveCascade_initState (high : Bool) (m : Chip) :
    (driveCascade high m).initState = m.initState := by
  unfold driveCascade; split
  · split
    · rfl
    · split <;> rfl
  · rfl

@[simp] theorem driveCascade_isr (high : Bool) (m : Chip) :
    (driveCascade high m).isr = m.isr := by
  unfold driveCascade; split
  · split
    · rfl
    · split <;> rfl
  · rfl

/-- A change of registers followed by its refresh keeps the invariant, as long as a change of the
master's adds no cascade request and keeps nothing in service during an initialisation. -/
theorem inv_refresh {s : I8259} (h : Inv s) {index : Index} {c : Chip}
    (hm : index = .master → (has c.irr Isa.cascade = true → has s.master.irr Isa.cascade = true) ∧
      (c.initState ≠ 0 → c.isr = 0)) : Inv (s.refresh index c) := by
  cases index with
  | master =>
    obtain ⟨hirr, hinit⟩ := hm rfl
    exact ⟨rfl, fun hc => h.cascade (hirr hc), hinit⟩
  | slave =>
    refine ⟨rfl, fun hc => driveCascade_irr hc, fun hi => ?_⟩
    simp only [refresh, setChip, updateOutput, driveCascade_initState, driveCascade_isr] at hi ⊢
    exact h.init hi

/-- Registers with the same request, the output not refreshed. -/
theorem inv_setChip {s : I8259} (h : Inv s) {index : Index} {c : Chip}
    (hq : getIrq index c = getIrq index (s.chip index)) (hirr : c.irr = (s.chip index).irr)
    (hinit : index = .master → c.initState ≠ 0 → c.isr = 0) : Inv (s.setChip c index) := by
  cases index with
  | master =>
    refine ⟨h.line.trans (by rw [← show _ = getIrq .master s.master from hq]; rfl), fun hc => ?_,
      hinit rfl⟩
    exact h.cascade (by rw [← show _ = s.master.irr from hirr]; exact hc)
  | slave =>
    refine ⟨h.line, fun hc => ?_, h.init⟩
    rw [show getIrq .slave (s.setChip c .slave).slave = getIrq .slave s.slave from hq]
    exact h.cascade hc

/-- The master's part of `inv_refresh` for a change that only drops requests. -/
theorem inv_refresh_sub {s : I8259} (h : Inv s) {index : Index} {c : Chip}
    (hirr : has c.irr Isa.cascade = true → has (s.chip index).irr Isa.cascade = true)
    (hst : c.initState = (s.chip index).initState)
    (hisr : (s.chip index).isr = 0 → c.isr = 0) : Inv (s.refresh index c) := by
  refine inv_refresh h fun hm => ?_
  subst hm
  exact ⟨hirr, fun hi => hisr (h.init (by rwa [hst] at hi))⟩

/-! ## The operations -/

theorem intack_irr {c : Chip} {irq m : Fin 8} (h : has (c.intack irq).irr m = true) :
    has c.irr m = true := by
  have hirr : (c.intack irq).irr = c.irr ∨ (c.intack irq).irr = c.irr &&& ~~~bit irq := by
    unfold Chip.intack
    split
    · split <;> simp only <;> split <;> simp
    · simp only; split <;> simp
  rcases hirr with hirr | hirr <;> rw [hirr] at h
  · exact h
  · rw [has_and_not_bit, Bool.and_eq_true] at h
    exact h.1

theorem intack_initState (c : Chip) (irq : Fin 8) : (c.intack irq).initState = c.initState := by
  unfold Chip.intack
  split
  · split <;> simp only <;> split <;> rfl
  · simp only; split <;> rfl

theorem intack_irqBase (c : Chip) (irq : Fin 8) : (c.intack irq).irqBase = c.irqBase := by
  unfold Chip.intack
  split
  · split <;> simp only <;> split <;> rfl
  · simp only; split <;> rfl

theorem inv_intack {s : I8259} (h : Inv s) {index : Index} {irq : Fin 8}
    (hi : s.master.initState = 0) : Inv (s.intack index irq) := by
  refine inv_refresh h fun hm => ?_
  subst hm
  exact ⟨intack_irr, fun hn => absurd ((intack_initState _ _).trans hi) hn⟩

theorem inv_initReset {s : I8259} (h : Inv s) {index : Index} : Inv (s.initReset index) := by
  refine inv_refresh h fun hm => ?_
  subst hm
  refine ⟨fun hc => ?_, fun _ => rfl⟩
  simp only [Chip.initReset, has, BitVec.getLsbD_and, Bool.and_eq_true] at hc
  exact hc.1

theorem inv_read {s : I8259} (h : Inv s) {index : Index} {address : Nat}
    (hi : Op.Acks s (.read index address) → s.master.initState = 0) :
    Inv (s.read index address).1 := by
  -- the poll answered, its flag is cleared
  have poll_clear : ∀ t : I8259, Inv t →
      Inv (t.setChip { t.chip index with poll := false } index) := fun t ht =>
    inv_setChip ht (getIrq_congr rfl rfl rfl rfl rfl rfl) rfl fun hm hn => by
      subst hm; exact ht.init hn
  unfold I8259.read
  simp only
  split
  · rename_i hp
    split
    · rename_i irq hirq
      exact poll_clear (s.intack index irq) (inv_intack h (hi ⟨hp, by rw [hirq]; rfl⟩))
    · exact poll_clear s h
  · split <;> exact h

theorem inv_readVector {s : I8259} (h : Inv s)
    (hi : Op.Acks s .readVector → s.master.initState = 0) : Inv s.readVector.1 := by
  unfold I8259.readVector
  split
  · rename_i irq hirq
    have hi := hi (by simp [Op.Acks, hirq])
    split
    · split <;> dsimp only
      · refine inv_intack (inv_intack h hi) ?_
        simpa [I8259.intack, refresh, setChip, updateOutput] using hi
      · exact inv_intack h hi
    · show Inv (s.intack .master irq)
      exact inv_intack h hi
  · exact h

theorem inv_writeIcw1 {s : I8259} (h : Inv s) {index : Index} {data : BitVec 8} :
    Inv (s.writeIcw1 index data) := by
  refine inv_setChip (inv_initReset h) (getIrq_congr rfl rfl rfl rfl rfl rfl) rfl fun hm _ => ?_
  subst hm
  rfl

theorem inv_writeOcw3 {s : I8259} (h : Inv s) {index : Index} {data : BitVec 8} :
    Inv (s.writeOcw3 index data) := by
  unfold I8259.writeOcw3
  dsimp only
  split
  · exact inv_refresh_sub h id rfl id
  · refine inv_setChip h (getIrq_congr rfl rfl rfl rfl rfl rfl) rfl fun hm hn => ?_
    subst hm
    exact h.init hn

/-- Dropping an in-service level leaves an empty in-service register empty. -/
theorem and_eq_zero_of_left {x y : BitVec 8} (h : x = 0) : x &&& y = 0 := by simp [h]

theorem inv_writeOcw2 {s : I8259} (h : Inv s) {index : Index} {data : BitVec 8} :
    Inv (s.writeOcw2 index data) := by
  have rot : ∀ b, Inv (s.setChip { s.chip index with rotateOnAeoi := b } index) := fun b =>
    inv_setChip h (getIrq_congr rfl rfl rfl rfl rfl rfl) rfl fun hm hn => by
      subst hm; exact h.init hn
  unfold I8259.writeOcw2
  dsimp only
  split
  · exact rot false
  · exact rot true
  · split
    · exact h
    · exact inv_refresh_sub h id rfl and_eq_zero_of_left
  · split
    · exact h
    · exact inv_refresh_sub h id rfl and_eq_zero_of_left
  · exact inv_refresh_sub h id rfl and_eq_zero_of_left
  · exact inv_refresh_sub h id rfl id
  · exact inv_refresh_sub h id rfl and_eq_zero_of_left
  · exact h

theorem inv_writeData {s : I8259} (h : Inv s) {index : Index} {data : BitVec 8} :
    Inv (s.writeData index data) := by
  unfold I8259.writeData
  dsimp only
  split
  · exact inv_refresh_sub h id rfl id
  · rename_i hst
    refine inv_setChip h (getIrq_congr rfl rfl rfl rfl rfl rfl) rfl fun hm _ => ?_
    subst hm
    exact h.init (by rw [show s.master.initState = 1 from hst]; decide)
  · rename_i hst
    refine inv_setChip h (getIrq_congr rfl rfl rfl rfl rfl rfl) rfl fun hm _ => ?_
    subst hm
    exact h.init (by rw [show s.master.initState = 2 from hst]; decide)
  · -- ICW4: the fully nested mode changes with nothing in service on the master
    rename_i hst
    cases index with
    | master =>
      have hz := h.init (by rw [show s.master.initState = 3 from hst]; decide)
      exact inv_setChip h (getIrq_specialFnm rfl rfl rfl rfl hz) rfl fun _ hn => absurd rfl hn
    | slave =>
      refine inv_setChip h ?_ rfl fun hm => by cases hm
      simp [getIrq, isrMask, chip]

theorem inv_write {s : I8259} (h : Inv s) {index : Index} {address : Nat} {data : BitVec 8} :
    Inv (s.write index address data) := by
  unfold I8259.write
  split
  · split
    · exact inv_writeIcw1 h
    · split
      · exact inv_writeOcw3 h
      · exact inv_writeOcw2 h
  · exact inv_writeData h

/-! ## The device lines -/

theorem or_bit_sub {r : BitVec 8} {n : Fin 8} (hn : n ≠ Isa.cascade)
    (h : has (r ||| bit n) Isa.cascade = true) : has r Isa.cascade = true := by
  rw [has_or_bit, Bool.or_eq_true, decide_eq_true_eq] at h
  exact h.resolve_right fun he => hn he.symm

theorem and_not_bit_sub {r : BitVec 8} {n m : Fin 8} (h : has (r &&& ~~~bit n) m = true) :
    has r m = true := by
  rw [has_and_not_bit, Bool.and_eq_true] at h
  exact h.1

/-- A change of the request and edge registers that adds no cascade request to the master's. -/
theorem inv_refresh_line {s : I8259} (h : Inv s) {index : Index} {irr lastIrr : BitVec 8}
    (hirr : index = .master → has irr Isa.cascade = true → has s.master.irr Isa.cascade = true) :
    Inv (s.refresh index { s.chip index with irr, lastIrr }) := by
  refine inv_refresh h fun hm => ?_
  subst hm
  exact ⟨hirr rfl, h.init⟩

theorem inv_interrupt {s : I8259} (h : Inv s) {index : Index} {n : Fin 8}
    (hn : index = .master → n ≠ Isa.cascade) : Inv (s.interrupt index n) := by
  refine inv_refresh_line h fun hm => ?_
  subst hm
  exact or_bit_sub (hn rfl)

theorem inv_deassert {s : I8259} (h : Inv s) {index : Index} {n : Fin 8} :
    Inv (s.deassert index n) := by
  refine inv_refresh_line h fun hm => ?_
  subst hm
  split
  · exact and_not_bit_sub
  · exact id

theorem inv_setLine {s : I8259} (h : Inv s) {index : Index} {n : Fin 8} {active : Bool}
    (hn : index = .master → n ≠ Isa.cascade) : Inv (s.setLine index n active) := by
  have up : Inv (s.refresh index { s.chip index with
      irr := (s.chip index).irr ||| bit n, lastIrr := (s.chip index).lastIrr ||| bit n }) :=
    inv_refresh_line h fun hm => by subst hm; exact or_bit_sub (hn rfl)
  have down : Inv (s.refresh index { s.chip index with
      irr := (s.chip index).irr &&& ~~~bit n, lastIrr := (s.chip index).lastIrr &&& ~~~bit n }) :=
    inv_refresh_line h fun hm => by subst hm; exact and_not_bit_sub
  unfold I8259.setLine
  dsimp only
  split
  · split
    · exact up
    · exact down
  · split
    · split
      · exact inv_refresh_sub h id rfl id
      · exact up
    · exact down

/-! ## Every run -/

/-- The cascade input is the slave's alone, and no acknowledge falls between an ICW1 and the last
ICW of that initialisation. -/
def Op.Allowed (s : I8259) (op : Op) : Prop :=
  ¬op.DrivesCascade ∧ (op.Acks s → s.master.initState = 0 ∧ s.slave.initState = 0)

/-- The states a pair reaches from its power-on reset. -/
def Reachable : I8259 → Prop :=
  Lib.Reach (fun s => ∃ s0 : I8259, s = s0.reset) Op.Allowed fun s op => (op.exec s).1

theorem inv_reset (s : I8259) : Inv s.reset := by
  unfold I8259.reset
  dsimp only [initReset]
  refine inv_refresh ?_ fun hm => by cases hm
  refine ⟨rfl, fun hc => ?_, fun hn => absurd rfl hn⟩
  simp [refresh, setChip, updateOutput, chip, Chip.initReset, has] at hc

theorem inv_exec {s : I8259} {op : Op} (h : Inv s) (ha : op.Allowed s) : Inv (op.exec s).1 := by
  obtain ⟨hd, hi⟩ := ha
  cases op with
  | read index address => exact inv_read h fun hk => (hi hk).1
  | write index address data => exact inv_write h
  | readElcr index => exact h
  | writeElcr index data => exact inv_refresh_sub h id rfl id
  | readVector => exact inv_readVector h fun hk => (hi hk).1
  | interrupt index n => exact inv_interrupt h fun hm => by subst hm; exact hd
  | deassert index n => exact inv_deassert h
  | setLine index n active => exact inv_setLine h fun hm => by subst hm; exact hd

theorem Reachable.inv {s : I8259} (h : Reachable s) : Inv s := by
  refine Lib.Reach.inv ?_ ?_ h
  · rintro _ ⟨s0, rfl⟩
    exact inv_reset s0
  · exact fun s op hs ha => inv_exec hs ha

/-- **No phantom interrupt.** After every operation the level last given to `int_line` is the
master's output and the master's request 2 is the slave's; so an acknowledge of the cascade
returns the vector of a request pending and unmasked on the slave, never the spurious one. -/
theorem cascade_no_phantom {s : I8259} (h : Reachable s) :
    s.intLine = (getIrq .master s.master).isSome ∧
      (has s.master.irr Isa.cascade = true → (getIrq .slave s.slave).isSome = true) ∧
      (getIrq .master s.master = some Isa.cascade →
        ∃ irq2 : Fin 8, has s.slave.irr irq2 = true ∧ has s.slave.imr irq2 = false ∧
          s.readVector.2 = s.slave.irqBase + BitVec.ofNat 8 irq2.val) := by
  have hv := h.inv
  refine ⟨hv.line, hv.cascade, fun hm => ?_⟩
  obtain ⟨irq2, hs⟩ := Option.isSome_iff_exists.mp (hv.cascade (getIrq_pending hm).1)
  refine ⟨irq2, (getIrq_pending hs).1, (getIrq_pending hs).2, ?_⟩
  simp only [I8259.readVector, hm, hs, ↓reduceIte]
  rw [show (s.intack .slave irq2).slave.irqBase = _ from intack_irqBase s.slave irq2]

/-- The pair at power-on. -/
def powerOn : I8259 :=
  let chip : Chip := ⟨0, 0, 0, 0, 0, 0, false, false, false, 0, false, false, false, false, false, 0,
    false⟩
  (⟨chip, chip, false⟩ : I8259).reset

theorem cascade_no_phantom_irq14 :
    ((Op.interrupt .slave 6).exec powerOn).1.intLine = true ∧
      ∃ irq2 : Fin 8, has ((Op.interrupt .slave 6).exec powerOn).1.slave.irr irq2 = true ∧
        has ((Op.interrupt .slave 6).exec powerOn).1.slave.imr irq2 = false ∧
        ((Op.interrupt .slave 6).exec powerOn).1.readVector.2 =
          ((Op.interrupt .slave 6).exec powerOn).1.slave.irqBase + BitVec.ofNat 8 irq2.val := by
  have hr : Reachable ((Op.interrupt .slave 6).exec powerOn).1 :=
    Lib.Reach.next (.start ⟨_, rfl⟩) ⟨id, fun hk => nomatch hk⟩
  obtain ⟨hl, -, hv⟩ := cascade_no_phantom hr
  exact ⟨hl.trans (by decide), hv (by decide)⟩

end Alphabox.Isa
