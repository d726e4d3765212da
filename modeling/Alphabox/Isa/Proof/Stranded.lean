import Alphabox.Isa.Proof.Cascade

/-!
# No slave request is stranded behind the cascade

`Latched`: the edge that the master remembers on its input 2 is a request of the slave's that it
has latched. Every operation keeps it but an acknowledge that `Strands` a request: the master's
acknowledge of the cascade clears the request that a slave in AEOI mode still holds up, and no new
edge follows. `Kept` adds that an output of the slave is always remembered: a refresh of the slave
makes it so (`kept_refresh_slave`), an ICW1 of the master forgets it.
-/

namespace Alphabox.Isa

open I8259

variable {s s' : I8259} {index : Index} {c m : Chip} {irq n : Fin 8} {data : BitVec 8}

/-- The slave's output. -/
def slaveOut (s : I8259) : Bool := (getIrq .slave s.slave).isSome

/-- The master's request 2 and its edge history. -/
def latch (s : I8259) : Bool := has s.master.irr cascade

def edgeSeen (s : I8259) : Bool := has s.master.lastIrr cascade

/-- The edge remembered is a request latched (module doc). -/
def Latched (s : I8259) : Prop := edgeSeen s = true → slaveOut s = true ∧ latch s = true

/-- And no output of the slave is forgotten. -/
def Kept (s : I8259) : Prop := Latched s ∧ (slaveOut s = true → edgeSeen s = true)

theorem Kept.latch (h : Kept s) (ho : slaveOut s = true) : latch s = true := (h.1 (h.2 ho)).2

/-! ## Priorities -/

theorem priorityOf_le {mask : BitVec 8} {add : Fin 8} {p : Nat} (hp : p < 8)
    (h : has mask (rotated p add) = true) : priorityOf mask add ≤ p := by
  unfold priorityOf
  cases hf : (List.range 8).find? fun p => has mask (rotated p add) with
  | none => exact absurd h (List.find?_eq_none.1 hf p (List.mem_range.2 hp))
  | some q =>
    obtain ⟨-, -, hlt⟩ := List.find?_range_eq_some.1 hf
    change q ≤ p
    by_contra hc
    have hno := hlt p (by omega)
    rw [h] at hno
    cases hno

theorem priorityOf_spec {mask : BitVec 8} {add : Fin 8} (h : priorityOf mask add ≠ 8) :
    priorityOf mask add < 8 ∧ has mask (rotated (priorityOf mask add) add) = true := by
  unfold priorityOf at h ⊢
  cases hf : (List.range 8).find? fun p => has mask (rotated p add) with
  | none =>
    rw [hf] at h
    exact absurd rfl h
  | some q =>
    obtain ⟨hq, hmem, -⟩ := List.find?_range_eq_some.1 hf
    exact ⟨List.mem_range.1 hmem, hq⟩

/-- Fewer requests, a lower priority. -/
theorem priorityOf_anti {mask mask' : BitVec 8} {add : Fin 8}
    (h : ∀ n, has mask n = true → has mask' n = true) :
    priorityOf mask' add ≤ priorityOf mask add := by
  by_cases h8 : priorityOf mask add = 8
  · rw [h8]
    by_cases h8' : priorityOf mask' add = 8
    · exact Nat.le_of_eq h8'
    · exact Nat.le_of_lt (priorityOf_spec h8').1
  · obtain ⟨hlt, hhas⟩ := priorityOf_spec h8
    exact priorityOf_le hlt (h _ hhas)

/-- The request delivered outranks what is in service. -/
theorem getIrq_some (h : getIrq index c = some irq) :
    let p := priorityOf (c.irr &&& ~~~c.imr) c.priorityAdd
    p < 8 ∧ irq = rotated p c.priorityAdd ∧ p < priorityOf (isrMask index c) c.priorityAdd := by
  unfold getIrq at h
  dsimp only at h ⊢
  split at h
  · cases h
  · rename_i h8
    split at h
    · rename_i hlt
      exact ⟨(priorityOf_spec h8).1, (Option.some.inj h).symm, hlt⟩
    · cases h

theorem getIrq_eq_none (h : priorityOf (isrMask index c) c.priorityAdd ≤
    priorityOf (c.irr &&& ~~~c.imr) c.priorityAdd) : getIrq index c = none := by
  unfold getIrq
  dsimp only
  split
  · rfl
  · rw [if_neg (Nat.not_lt.2 h)]

/-- Outside AEOI mode an acknowledge blocks whatever else is pending. -/
theorem intack_blocks (ha : c.autoEoi = false) (h : getIrq .slave c = some irq) :
    getIrq .slave (c.intack irq) = none := by
  obtain ⟨hp, hirq, -⟩ := getIrq_some h
  obtain ⟨hreq, hunmasked⟩ := getIrq_pending h
  have himr : (c.intack irq).imr = c.imr ∧ (c.intack irq).priorityAdd = c.priorityAdd ∧
      (c.intack irq).isr = c.isr ||| bit irq ∧ (c.intack irq).specialMask = c.specialMask := by
    simp only [Chip.intack, ha, Bool.false_eq_true, if_false]
    split <;> exact ⟨rfl, rfl, rfl, rfl⟩
  obtain ⟨himr, hadd, hisr, hsm⟩ := himr
  refine getIrq_eq_none ?_
  rw [hadd, himr]
  -- the level acknowledged is in service, and nothing pending outranks it
  have hserved : has (isrMask .slave (c.intack irq)) irq = true := by
    simp only [isrMask, hsm, himr, hisr, reduceCtorEq, and_false, if_false]
    have hbit : has (c.isr ||| bit irq) irq = true := by simp [has_or_bit]
    split
    · unfold has at hbit hunmasked ⊢
      rw [BitVec.getLsbD_and, BitVec.getLsbD_not, hbit, hunmasked]
      simp
    · exact hbit
  have hle : priorityOf (isrMask .slave (c.intack irq)) c.priorityAdd ≤
      priorityOf (c.irr &&& ~~~c.imr) c.priorityAdd := by
    refine priorityOf_le hp ?_
    rw [← hirq]
    exact hserved
  refine Nat.le_trans hle (priorityOf_anti fun n hn => ?_)
  have hand : ∀ x y : BitVec 8, has (x &&& y) n = (has x n && has y n) := fun x y => by
    simp only [has, BitVec.getLsbD_and]
  rw [hand, Bool.and_eq_true] at hn ⊢
  exact ⟨intack_irr hn.1, hn.2⟩

/-! ## The two kinds of change -/

/-- What an operation keeps of the two. -/
def Carries (s s' : I8259) : Prop := (Latched s → Latched s') ∧ (Kept s → Kept s')

theorem Carries.refl : Carries s s := ⟨id, id⟩

theorem Carries.trans {s'' : I8259} (h : Carries s s') (h' : Carries s' s'') : Carries s s'' :=
  ⟨h'.1 ∘ h.1, h'.2 ∘ h.2⟩

theorem carries_same (ho : slaveOut s' = slaveOut s) (he : edgeSeen s' = edgeSeen s)
    (hl : latch s = true → latch s' = true) : Carries s s' := by
  have hlatched : Latched s → Latched s' := fun h hs => by
    obtain ⟨h1, h2⟩ := h (he ▸ hs)
    exact ⟨ho.trans h1, hl h2⟩
  refine ⟨hlatched, fun h => ⟨hlatched h.1, fun hs => ?_⟩⟩
  rw [he]
  exact h.2 (ho ▸ hs)

/-- A refresh of the slave gives the master its output. -/
theorem kept_refresh_slave (h : Latched s) : Kept (s.refresh .slave c) := by
  have hout : slaveOut (s.refresh .slave c) = (getIrq .slave c).isSome := rfl
  have hm : (s.refresh .slave c).master = driveCascade (getIrq .slave c).isSome s.master := rfl
  unfold Kept Latched edgeSeen latch
  rw [hout, hm]
  cases (getIrq .slave c).isSome with
  | false => simp [driveCascade, has_and_not_bit]
  | true =>
    simp only [driveCascade, if_true, true_and, forall_const]
    split
    · simp [has_or_bit]
    · split
      · rename_i hlast
        exact ⟨fun _ => (h hlast).2, by simp [has_or_bit]⟩
      · simp [has_or_bit]

theorem carries_slave : Carries s (s.refresh .slave c) :=
  ⟨fun h => (kept_refresh_slave h).1, fun h => kept_refresh_slave h.1⟩

theorem carries_refresh (hm : index = .master → has c.lastIrr cascade = edgeSeen s ∧
    (latch s = true → has c.irr cascade = true)) : Carries s (s.refresh index c) := by
  cases index with
  | slave => exact carries_slave
  | master =>
    obtain ⟨hlast, hirr⟩ := hm rfl
    exact carries_same rfl hlast hirr

/-- Registers that keep the request and edge registers. -/
theorem carries_refresh_keep (hirr : c.irr = (s.chip index).irr)
    (hlast : c.lastIrr = (s.chip index).lastIrr) : Carries s (s.refresh index c) := by
  refine carries_refresh fun hm => ?_
  subst hm
  exact ⟨congrArg (has · cascade) hlast, fun h => (congrArg (has · cascade) hirr).trans h⟩

theorem carries_setChip (hq : index = .slave → getIrq .slave c = getIrq .slave s.slave)
    (hirr : c.irr = (s.chip index).irr) (hlast : c.lastIrr = (s.chip index).lastIrr) :
    Carries s (s.setChip c index) := by
  cases index with
  | slave => exact carries_same (congrArg Option.isSome (hq rfl)) rfl id
  | master =>
    exact carries_same rfl (congrArg (has · cascade) hlast)
      fun h => (congrArg (has · cascade) hirr).trans h

/-! ## The acknowledge -/

theorem intack_lastIrr : (c.intack irq).lastIrr = c.lastIrr := by
  unfold Chip.intack
  split
  · split <;> simp only <;> split <;> rfl
  · simp only
    split <;> rfl

/-- An edge's request is consumed by its acknowledge, a level's stays. -/
theorem intack_irr_has : has (c.intack irq).irr n =
    (has c.irr n && (!decide (n = irq) || (has c.elcr irq || c.ltim))) := by
  have hirr : (c.intack irq).irr =
      if has c.elcr irq ∨ c.ltim then c.irr else c.irr &&& ~~~bit irq := by
    unfold Chip.intack
    split
    · split <;> simp only <;> split <;> rfl
    · simp only
      split <;> rfl
  rw [hirr]
  split
  · rename_i h
    have hlevel : (has c.elcr irq || c.ltim) = true := by simpa using h
    rw [hlevel]
    simp
  · rename_i h
    have hedge : (has c.elcr irq || c.ltim) = false := by simpa using h
    rw [hedge, has_and_not_bit]
    simp

theorem driveCascade_trigger {high : Bool} : (driveCascade high m).elcr = m.elcr ∧
    (driveCascade high m).ltim = m.ltim := by
  unfold driveCascade
  split
  · split
    · exact ⟨rfl, rfl⟩
    · split <;> exact ⟨rfl, rfl⟩
  · exact ⟨rfl, rfl⟩

/-- An operation that strands a request: the acknowledge of an edge-triggered cascade, when the
slave, in AEOI mode, wants another interrupt once it has acknowledged. -/
def Op.Strands (s : I8259) : Op → Prop
  | .readVector => getIrq .master s.master = some cascade ∧
      ¬ (has s.master.elcr cascade = true ∨ s.master.ltim = true) ∧ s.slave.autoEoi = true ∧
      ∃ irq2, getIrq .slave s.slave = some irq2 ∧
        (getIrq .slave (s.slave.intack irq2)).isSome = true
  | _ => False

/-- The master's acknowledge keeps a level's request only. -/
theorem acks_latch {irq2 : Fin 8} : latch ((s.intack .slave irq2).intack .master cascade) =
    (latch (s.intack .slave irq2) && (has s.master.elcr cascade || s.master.ltim)) := by
  obtain ⟨helcr, hltim⟩ := @driveCascade_trigger s.master
    (getIrq .slave (s.slave.intack irq2)).isSome
  rw [← helcr, ← hltim]
  exact intack_irr_has.trans (by simp; rfl)

/-- The acknowledges of the slave and then of the master's input 2. -/
theorem carries_acks {irq2 : Fin 8} (hs : getIrq .slave s.slave = some irq2)
    (hm : getIrq .master s.master = some cascade) (hst : ¬ Op.Strands s .readVector) :
    Carries s ((s.intack .slave irq2).intack .master cascade) := by
  have hslave : Carries s (s.intack .slave irq2) := carries_slave
  refine hslave.trans ?_
  have hlast : edgeSeen ((s.intack .slave irq2).intack .master cascade) =
      edgeSeen (s.intack .slave irq2) := congrArg (has · cascade) intack_lastIrr
  by_cases hlevel : has s.master.elcr cascade = true ∨ s.master.ltim = true
  · refine carries_same rfl hlast fun hl => ?_
    rw [acks_latch, hl]
    simpa using hlevel
  · have hlow : slaveOut (s.intack .slave irq2) = false := by
      change (getIrq .slave (s.slave.intack irq2)).isSome = false
      cases haeoi : s.slave.autoEoi with
      | false => rw [intack_blocks haeoi hs, Option.isSome_none]
      | true =>
        by_contra hc
        exact hst ⟨hm, hlevel, haeoi, irq2, hs, (Bool.not_eq_false _).mp hc⟩
    have hlow' : slaveOut ((s.intack .slave irq2).intack .master cascade) = false := hlow
    have hlatched : Latched (s.intack .slave irq2) →
        Latched ((s.intack .slave irq2).intack .master cascade) := fun h he => by
      rw [hlast] at he
      rw [(h he).1] at hlow
      cases hlow
    refine ⟨hlatched, fun h => ⟨hlatched h.1, fun ho => ?_⟩⟩
    rw [hlow'] at ho
    cases ho

theorem carries_readVector (hst : ¬ Op.Strands s .readVector) :
    Carries s s.readVector.1 := by
  unfold I8259.readVector
  split
  · rename_i irq hirq
    split
    · rename_i heq
      subst heq
      split
      · rename_i irq2 hirq2
        exact carries_acks hirq2 hirq hst
      · rename_i hnone
        -- the slave wants nothing, so there is no edge to keep
        have hlast : edgeSeen (s.intack .master cascade) = edgeSeen s :=
          congrArg (has · cascade) intack_lastIrr
        have hout : slaveOut s = false := by
          rw [slaveOut, hnone, Option.isSome_none]
        have hout' : slaveOut (s.intack .master cascade) = false := hout
        have hlatched : Latched s → Latched (s.intack .master cascade) := fun h he => by
          rw [hlast] at he
          rw [(h he).1] at hout
          cases hout
        refine ⟨hlatched, fun h => ⟨hlatched h.1, fun ho => ?_⟩⟩
        rw [hout'] at ho
        cases ho
    · rename_i hne
      refine carries_refresh fun _ => ⟨congrArg (has · cascade) intack_lastIrr, fun hl => ?_⟩
      rw [intack_irr_has, show has (s.chip .master).irr cascade = true from hl]
      simp [Ne.symm hne]
  · exact .refl

/-- What the operation strands it has taken away. -/
theorem strands_readVector (hst : Op.Strands s .readVector) :
    slaveOut s.readVector.1 = true ∧ latch s.readVector.1 = false := by
  obtain ⟨hm, hedge, -, irq2, hs, hout⟩ := hst
  have heq : s.readVector.1 = (s.intack .slave irq2).intack .master cascade := by
    simp only [I8259.readVector, hm, hs, if_true]
  rw [heq]
  refine ⟨hout, ?_⟩
  have hclear : (has s.master.elcr cascade || s.master.ltim) = false := by
    simpa using hedge
  rw [acks_latch, hclear, Bool.and_false]

/-! ## The operations -/

theorem carries_read {address : Nat} (hp : ¬ (index = .master ∧ s.master.poll = true)) :
    Carries s (s.read index address).1 := by
  unfold I8259.read
  dsimp only
  split
  · rename_i hpoll
    cases index with
    | master => exact absurd ⟨rfl, hpoll⟩ hp
    | slave =>
      have hclear : ∀ t : I8259, Carries t (t.setChip { t.chip .slave with poll := false } .slave) :=
        fun _ => carries_setChip (fun _ => getIrq_congr rfl rfl rfl rfl rfl rfl) rfl rfl
      split
      · rename_i irq hirq
        exact carries_slave.trans (hclear (s.intack .slave irq))
      · exact hclear s
  · split <;> exact .refl

/-- An ICW1 of the slave refreshes it. -/
theorem kept_writeIcw1_slave (h : Latched s) : Kept (s.writeIcw1 .slave data) := by
  have hreset : Kept (s.initReset .slave) := kept_refresh_slave h
  have hset : ∀ t : I8259, Carries t (t.setChip { t.chip .slave with
      initState := 1, init4 := data.getLsbD 0, singleMode := data.getLsbD 1,
      ltim := data.getLsbD 3 } .slave) :=
    fun t => carries_setChip (fun _ => getIrq_congr rfl rfl rfl rfl rfl rfl) rfl rfl
  exact (hset (s.initReset .slave)).2 hreset

/-- An ICW1 of the master forgets the edge. -/
theorem edgeSeen_writeIcw1_master : edgeSeen (s.writeIcw1 .master data) = false := by
  simp [edgeSeen, writeIcw1, initReset, refresh, setChip, updateOutput, chip, Chip.initReset, has]

theorem carries_writeOcw3 : Carries s (s.writeOcw3 index data) := by
  unfold I8259.writeOcw3
  dsimp only
  split
  · exact carries_refresh_keep rfl rfl
  · refine carries_setChip (fun hi => ?_) rfl rfl
    subst hi
    exact getIrq_congr rfl rfl rfl rfl rfl rfl

theorem carries_writeOcw2 : Carries s (s.writeOcw2 index data) := by
  have hrot : ∀ b, Carries s (s.setChip { s.chip index with rotateOnAeoi := b } index) := fun b =>
    carries_setChip (fun hi => by subst hi; exact getIrq_congr rfl rfl rfl rfl rfl rfl) rfl rfl
  unfold I8259.writeOcw2
  dsimp only
  split
  · exact hrot false
  · exact hrot true
  · split
    · exact .refl
    · exact carries_refresh_keep rfl rfl
  · split
    · exact .refl
    · exact carries_refresh_keep rfl rfl
  · exact carries_refresh_keep rfl rfl
  · exact carries_refresh_keep rfl rfl
  · exact carries_refresh_keep rfl rfl
  · exact .refl

theorem carries_writeData : Carries s (s.writeData index data) := by
  have hkeep : ∀ c : Chip, (index = .slave → getIrq .slave c = getIrq .slave s.slave) →
      c.irr = (s.chip index).irr → c.lastIrr = (s.chip index).lastIrr →
      Carries s (s.setChip c index) := fun c hq hirr hlast => carries_setChip hq hirr hlast
  unfold I8259.writeData
  dsimp only
  split
  · exact carries_refresh_keep rfl rfl
  · refine hkeep _ (fun hi => ?_) rfl rfl
    subst hi
    exact getIrq_congr rfl rfl rfl rfl rfl rfl
  · refine hkeep _ (fun hi => ?_) rfl rfl
    subst hi
    exact getIrq_congr rfl rfl rfl rfl rfl rfl
  · -- ICW4 gives the slave a fully nested mode, which only a master heeds
    refine hkeep _ (fun hi => ?_) rfl rfl
    subst hi
    simp only [getIrq, isrMask, chip, reduceCtorEq, and_false, if_false]
    rfl

/-- An ICW1. -/
def Op.Icw1 (op : Op) (index : Index) : Prop :=
  ∃ data : BitVec 8, data.getLsbD 4 = true ∧ op = .write index 0 data

theorem carries_write {address : Nat} (hi : ¬ (Op.write index address data).Icw1 .master) :
    Carries s (s.write index address data) := by
  unfold I8259.write
  split
  · rename_i ha
    split
    · rename_i hd
      cases index with
      | master => exact absurd ⟨data, hd, by rw [ha]⟩ hi
      | slave => exact ⟨fun h => (kept_writeIcw1_slave h).1, fun h => kept_writeIcw1_slave h.1⟩
    · split
      · exact carries_writeOcw3
      · exact carries_writeOcw2
  · exact carries_writeData

/-- A change of other inputs' request and edge bits. -/
theorem carries_line {irr lastIrr : BitVec 8}
    (hirr : index = .master → has irr cascade = has s.master.irr cascade)
    (hlast : index = .master → has lastIrr cascade = has s.master.lastIrr cascade) :
    Carries s (s.refresh index { s.chip index with irr, lastIrr }) := by
  refine carries_refresh fun hm => ⟨hlast hm, fun hl => ?_⟩
  exact (hirr hm).trans hl

theorem has_or_other {r : BitVec 8} (hn : n ≠ cascade) :
    has (r ||| bit n) cascade = has r cascade := by
  rw [has_or_bit, decide_eq_false (Ne.symm hn), Bool.or_false]

theorem has_and_not_other {r : BitVec 8} (hn : n ≠ cascade) :
    has (r &&& ~~~bit n) cascade = has r cascade := by
  rw [has_and_not_bit, decide_eq_false (Ne.symm hn), Bool.not_false, Bool.and_true]

theorem carries_interrupt (hn : index = .master → n ≠ cascade) :
    Carries s (s.interrupt index n) := by
  refine carries_line (fun hm => ?_) fun hm => ?_
  · subst hm
    exact has_or_other (hn rfl)
  · subst hm
    rw [has_or_other (hn rfl), has_and_not_other (hn rfl)]
    rfl

theorem carries_deassert (hn : index = .master → n ≠ cascade) :
    Carries s (s.deassert index n) := by
  refine carries_line (fun hm => ?_) fun hm => ?_
  · subst hm
    split
    · exact has_and_not_other (hn rfl)
    · rfl
  · subst hm
    exact has_and_not_other (hn rfl)

theorem carries_setLine {active : Bool} (hn : index = .master → n ≠ cascade) :
    Carries s (s.setLine index n active) := by
  have hup : Carries s (s.refresh index { s.chip index with
      irr := (s.chip index).irr ||| bit n, lastIrr := (s.chip index).lastIrr ||| bit n }) :=
    carries_line (fun hm => by subst hm; exact has_or_other (hn rfl))
      fun hm => by subst hm; exact has_or_other (hn rfl)
  have hdown : Carries s (s.refresh index { s.chip index with
      irr := (s.chip index).irr &&& ~~~bit n, lastIrr := (s.chip index).lastIrr &&& ~~~bit n }) :=
    carries_line (fun hm => by subst hm; exact has_and_not_other (hn rfl))
      fun hm => by subst hm; exact has_and_not_other (hn rfl)
  unfold I8259.setLine
  dsimp only
  split
  · split
    · exact hup
    · exact hdown
  · split
    · split
      · refine carries_refresh fun hm => ?_
        subst hm
        exact ⟨has_or_other (hn rfl), id⟩
      · exact hup
    · exact hdown

/-! ## Every run -/

/-- No poll answers for the master, and its input 2 is the slave's alone. -/
def Op.Calm (s : I8259) (op : Op) : Prop :=
  ¬ op.DrivesCascade ∧ ∀ address, op = .read .master address → s.master.poll = false

theorem carries_exec {op : Op} (hc : op.Calm s) (hi : ¬ op.Icw1 .master) (hst : ¬ op.Strands s) :
    Carries s (op.exec s).1 := by
  obtain ⟨hd, hp⟩ := hc
  cases op with
  | read index address =>
    refine carries_read fun h => ?_
    obtain ⟨rfl, hpoll⟩ := h
    rw [hp address rfl] at hpoll
    cases hpoll
  | write index address data => exact carries_write hi
  | readElcr index => exact .refl
  | writeElcr index data => exact carries_refresh_keep rfl rfl
  | readVector => exact carries_readVector hst
  | interrupt index n =>
    refine carries_interrupt fun hm => ?_
    subst hm
    exact hd
  | deassert index n =>
    refine carries_deassert fun hm => ?_
    subst hm
    exact hd
  | setLine index n active =>
    refine carries_setLine fun hm => ?_
    subst hm
    exact hd

/-- The states of the initial set-up: from power-on, the ICWs of both controllers among any
operations. -/
def SettingUp : I8259 → Prop :=
  Lib.Reach (fun s => ∃ s0 : I8259, s = s0.reset) (fun s (op : Op) => op.Calm s ∧ ¬ op.Strands s)
    fun s op => (op.exec s).1

/-- The set-up ends with the slave's ICW1, or with the master's while the slave wants no interrupt;
or there is none. -/
inductive SetUp : I8259 → Prop
  | powerOn (s : I8259) : SetUp s.reset
  | slaveLast {s : I8259} {data : BitVec 8} : SettingUp s → SetUp (s.writeIcw1 .slave data)
  | masterLast {s : I8259} {data : BitVec 8} : SettingUp s → getIrq .slave s.slave = none →
    SetUp (s.writeIcw1 .master data)

/-- The states after the set-up, no further ICW1 to the master and no request stranded on the
way. -/
def Running : I8259 → Prop :=
  Lib.Reach SetUp (fun s (op : Op) => op.Calm s ∧ ¬ op.Icw1 .master ∧ ¬ op.Strands s)
    fun s op => (op.exec s).1

theorem kept_reset : Kept s.reset := by
  unfold I8259.reset
  dsimp only [initReset]
  refine kept_refresh_slave fun he => ?_
  simp [edgeSeen, refresh, setChip, updateOutput, chip, Chip.initReset, has] at he

theorem SettingUp.latched (h : SettingUp s) : Latched s := by
  refine Lib.Reach.inv (P := Latched) ?_ (fun s op hs hok => ?_) h
  · intro s hs
    obtain ⟨s0, rfl⟩ := hs
    exact kept_reset.1
  · by_cases hi : op.Icw1 .master
    · obtain ⟨data, hd, rfl⟩ := hi
      intro he
      have heq : ((Op.write .master 0 data).exec s).1 = s.writeIcw1 .master data := by
        simp [Op.exec, I8259.write, hd]
      rw [heq, edgeSeen_writeIcw1_master] at he
      cases he
    · exact (carries_exec hok.1 hi hok.2).1 hs

theorem SetUp.kept (h : SetUp s) : Kept s := by
  cases h with
  | powerOn s0 => exact kept_reset
  | slaveLast hs => exact kept_writeIcw1_slave hs.latched
  | @masterLast s data hs hnone =>
    have hout : slaveOut (s.writeIcw1 .master data) = false := congrArg Option.isSome hnone
    refine ⟨fun he => ?_, fun ho => ?_⟩
    · rw [edgeSeen_writeIcw1_master] at he
      cases he
    · rw [hout] at ho
      cases ho

theorem Running.kept (h : Running s) : Kept s :=
  Lib.Reach.inv (P := Kept) (fun _ hs => hs.kept)
    (fun _ _ hs hok => (carries_exec hok.1 hok.2.1 hok.2.2).2 hs) h

/-! ## The delivery -/

/-- The state after some operations. -/
def after (s : I8259) (ops : List Op) : I8259 := ops.foldl (fun s op => (op.exec s).1) s

/-- A specific EOI for the master. -/
def eoi (n : Fin 8) : Op := .write .master 0 (0x60#8 + BitVec.ofNat 8 n.val)

/-- OCW1 that leaves only the master's input 2 unmasked. -/
def unmask : Op := .write .master 1 (~~~bit cascade)

/-- The operations on the master alone after which it delivers the slave's request. -/
def clearMaster : List Op := unmask :: (List.finRange 8).map eoi

theorem eoi_exec : ((eoi n).exec s).1 =
    s.refresh .master { s.master with isr := s.master.isr &&& ~~~bit n } := by
  match n with
  | 0 | 1 | 2 | 3 | 4 | 5 | 6 | 7 => rfl

theorem eois_spec (ns : List (Fin 8)) : ∃ m line,
    after s (ns.map eoi) = ⟨m, s.slave, line⟩ ∧
    m.irr = s.master.irr ∧ m.imr = s.master.imr ∧
    ∀ n, has m.isr n = true → has s.master.isr n = true ∧ n ∉ ns := by
  induction ns generalizing s with
  | nil => exact ⟨s.master, s.intLine, rfl, rfl, rfl, fun n hn => ⟨hn, List.not_mem_nil⟩⟩
  | cons k ns ih =>
    rw [List.map_cons, after, List.foldl_cons, eoi_exec]
    obtain ⟨m, line, heq, hirr, himr, hisr⟩ :=
      ih (s := s.refresh .master { s.master with isr := s.master.isr &&& ~~~bit k })
    refine ⟨m, line, heq, hirr, himr, fun n hn => ?_⟩
    obtain ⟨hin, hns⟩ := hisr n hn
    have hin' : has (s.master.isr &&& ~~~bit k) n = true := hin
    rw [has_and_not_bit, Bool.and_eq_true, Bool.not_eq_true', decide_eq_false_iff_not] at hin'
    refine ⟨hin'.1, ?_⟩
    rw [List.mem_cons, not_or]
    exact ⟨hin'.2, hns⟩

theorem rotated_surjective (add n : Fin 8) : ∃ p, p < 8 ∧ rotated p add = n := by
  refine ⟨(n.val + 8 - add.val) % 8, Nat.mod_lt _ (by omega), Fin.ext ?_⟩
  have h1 := n.isLt
  have h2 := add.isLt
  change ((n.val + 8 - add.val) % 8 + add.val) % 8 = n.val
  omega

/-- The only request, with nothing in service, is delivered. -/
theorem getIrq_only (hreq : ∀ k, has (c.irr &&& ~~~c.imr) k = decide (k = n))
    (hisr : ∀ k, has (isrMask index c) k = false) : getIrq index c = some n := by
  have hidle : priorityOf (isrMask index c) c.priorityAdd = 8 := by
    by_contra hc
    have hset := (priorityOf_spec hc).2
    rw [hisr] at hset
    cases hset
  obtain ⟨p, hp, hrot⟩ := rotated_surjective c.priorityAdd n
  have hle := priorityOf_le hp (by rw [hreq, hrot, decide_eq_true rfl] :
    has (c.irr &&& ~~~c.imr) (rotated p c.priorityAdd) = true)
  have hne : priorityOf (c.irr &&& ~~~c.imr) c.priorityAdd ≠ 8 := by omega
  obtain ⟨hlt, hset⟩ := priorityOf_spec hne
  rw [hreq, decide_eq_true_eq] at hset
  unfold getIrq
  dsimp only
  rw [if_neg hne, hidle, if_pos hlt, hset]

/-- Operations on the master alone deliver the slave's request: the vector is the slave's. -/
theorem delivers {irq2 : Fin 8} (hl : latch s = true) (hi : s.master.initState = 0)
    (hs : getIrq .slave s.slave = some irq2) :
    let t := after s clearMaster
    t.slave = s.slave ∧ t.readVector.2 = s.slave.irqBase + BitVec.ofNat 8 irq2.val := by
  have hunmask : (unmask.exec s).1 = s.refresh .master { s.master with imr := ~~~bit cascade } := by
    simp [unmask, Op.exec, I8259.write, writeData, chip, hi]
  obtain ⟨m, line, heq, hirr, himr, hisr⟩ := eois_spec (List.finRange 8)
    (s := s.refresh .master { s.master with imr := ~~~bit cascade })
  have hreq : ∀ k, has (m.irr &&& ~~~m.imr) k = decide (k = cascade) := fun k => by
    have hbits : has (s.master.irr &&& bit cascade) k = decide (k = cascade) := by
      have hl' : has s.master.irr cascade = true := hl
      have hand : has (s.master.irr &&& bit cascade) k =
          (has s.master.irr k && has (bit cascade) k) := by simp only [has, BitVec.getLsbD_and]
      rw [hand, has_bit]
      by_cases hk : k = cascade
      · rw [hk, hl', Bool.true_and]
      · rw [decide_eq_false hk, Bool.and_false]
    rw [hirr, himr]
    change has (s.master.irr &&& ~~~~~~bit cascade) k = _
    rw [BitVec.not_not, hbits]
  have hnone : ∀ k, has m.isr k = false := fun k => by
    by_contra hc
    exact (hisr k ((Bool.not_eq_false _).mp hc)).2 (List.mem_finRange k)
  have hzero : m.isr = 0#8 := BitVec.eq_of_getLsbD_eq fun i hi => by
    rw [BitVec.getLsbD_zero]
    exact hnone ⟨i, hi⟩
  have hmaster : getIrq .master m = some cascade :=
    getIrq_only hreq fun k => by simp [isrMask, hzero, has]
  have hfold : after s clearMaster = ⟨m, s.slave, line⟩ := by
    rw [clearMaster, after, List.foldl_cons, hunmask]
    exact heq
  dsimp only
  rw [hfold]
  refine ⟨rfl, ?_⟩
  simp only [I8259.readVector, hmaster, hs, if_true]
  exact congrArg (· + _) (intack_irqBase s.slave irq2)

/-- **No request is stranded.** While the slave wants an interrupt the master's request 2 is set,
after each operation that does not strand one and after no other; and operations on the master
alone then deliver it. -/
theorem cascade_request_kept (h : Running s) :
    ((getIrq .slave s.slave).isSome = true → has s.master.irr cascade = true) ∧
    (∀ op : Op, op.Calm s → ¬ op.Icw1 .master →
      (((getIrq .slave (op.exec s).1.slave).isSome = true →
        has (op.exec s).1.master.irr cascade = true) ↔ ¬ op.Strands s)) ∧
    ∀ irq2, getIrq .slave s.slave = some irq2 → s.master.initState = 0 →
      (after s clearMaster).readVector.2 = s.slave.irqBase + BitVec.ofNat 8 irq2.val := by
  have hk := h.kept
  refine ⟨hk.latch, fun op hc hi => ⟨fun hkept hst => ?_, fun hst => ?_⟩, fun irq2 hs hi => ?_⟩
  · cases op with
    | readVector =>
      obtain ⟨hout, hgone⟩ := strands_readVector hst
      have hset := hkept hout
      rw [show has (Op.exec s .readVector).1.master.irr cascade = false from hgone] at hset
      cases hset
    | _ => exact hst
  · exact ((carries_exec hc hi hst).2 hk).latch
  · refine (delivers (hk.latch ?_) hi hs).2
    rw [slaveOut, hs, Option.isSome_some]

theorem cascade_request_kept_irq14 :
    has (after powerOn [.interrupt .slave 6]).master.irr cascade = true ∧
    (after (after powerOn [.interrupt .slave 6]) clearMaster).readVector.2 = 6#8 := by
  have hr : Running (after powerOn [.interrupt .slave 6]) :=
    Lib.Reach.next (.start (.powerOn _)) ⟨⟨id, fun _ h => nomatch h⟩, fun ⟨_, _, h⟩ => (nomatch h), id⟩
  obtain ⟨hkept, -, hdel⟩ := cascade_request_kept hr
  exact ⟨hkept (by decide), hdel 6 (by decide) rfl⟩

/-- The master initialised, and then the slave in AEOI mode, with requests on two of its inputs. -/
def masterIcws : List Op :=
  [.write .master 0 0x11, .write .master 1 0x20, .write .master 1 4, .write .master 1 1]

def aeoiRequests : List Op :=
  [.write .slave 1 0x28, .write .slave 1 2, .write .slave 1 3, .interrupt .slave 0,
    .interrupt .slave 1]

/-- The acknowledge of the first leaves the second without the master's request. -/
theorem cascade_request_stranded :
    let s := after ((after powerOn masterIcws).writeIcw1 .slave 0x11) aeoiRequests
    Running s ∧ Op.Calm s .readVector ∧ ¬ Op.Icw1 .readVector .master ∧
      (getIrq .slave (Op.exec s .readVector).1.slave).isSome = true ∧
      has (Op.exec s .readVector).1.master.irr cascade = false := by
  have hup : SettingUp (after powerOn masterIcws) := by
    have h0 : SettingUp powerOn := .start ⟨_, rfl⟩
    refine Lib.Reach.foldl h0 masterIcws fun op hop s => ?_
    simp only [masterIcws, List.mem_cons, List.not_mem_nil, or_false] at hop
    obtain rfl | rfl | rfl | rfl := hop <;> exact ⟨⟨id, fun _ h => nomatch h⟩, id⟩
  have hrun : Running (after ((after powerOn masterIcws).writeIcw1 .slave 0x11) aeoiRequests) := by
    have h0 : Running ((after powerOn masterIcws).writeIcw1 .slave 0x11) :=
      .start (.slaveLast hup)
    refine Lib.Reach.foldl h0 aeoiRequests fun op hop s => ?_
    simp only [aeoiRequests, List.mem_cons, List.not_mem_nil, or_false] at hop
    obtain rfl | rfl | rfl | rfl | rfl := hop <;>
      exact ⟨⟨id, fun _ h => nomatch h⟩, fun ⟨_, _, h⟩ => (nomatch h), id⟩
  refine ⟨hrun, ⟨id, fun _ h => nomatch h⟩, fun ⟨_, _, h⟩ => (nomatch h), ?_, ?_⟩ <;>
    decide +kernel

end Alphabox.Isa
