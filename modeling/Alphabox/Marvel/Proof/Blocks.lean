import Mathlib.Data.Nat.Bitwise
import Alphabox.Marvel.Messages

/-!
# What the operations of a register block and of an IO7 change

`Csr.write_intq` and `Csr.write_resend` say what a write does to the queue, `Csr.Ok` is the
invariant of a block in 21464 mode, and `Io7.Touches` says which LSIs an operation of an IO7 can
make ready.
-/

namespace Alphabox.Marvel

variable {σ : Type} {M : Management σ} {b : Board}

namespace Csr

variable {pid off off' dsize t : Nat} {c : Csr} {w : World σ} {v data iid : BitVec 64}

/-! ## Registers -/

@[simp] theorem reg_setReg : (c.setReg off v).reg off' = if off' = off then v else c.reg off' := by
  unfold reg setReg Function.update
  by_cases h : off' = off
  · subst h
    simp
  · simp [h]

@[simp] theorem setReg_intq : (c.setReg off v).intq = c.intq := rfl

@[simp] theorem updateIrq_intq : (c.updateIrq b pid).intq = c.intq := by
  unfold updateIrq updateIrq21464
  split
  · rfl
  · split <;> rfl

@[simp] theorem updateIrq_reg : (c.updateIrq b pid).reg off = c.reg off := by
  unfold updateIrq updateIrq21464
  split
  · rfl
  · split <;> rfl

@[simp] theorem writeInt_intq : (c.writeInt b pid data).intq = c.intq := by
  simp [writeInt]

@[simp] theorem writeIreq_intq : (c.writeIreq b pid data).intq = c.intq := by
  simp [writeIreq]

@[simp] theorem writeIreq21464_intq : (c.writeIreq21464 b pid data).intq = c.intq := by
  simp [writeIreq21464]

@[simp] theorem writeScratch_intq : (c.writeScratch pid w v).1.intq = c.intq := by
  simp only [writeScratch]
  split_ifs <;> rfl

theorem read_intq : (c.read M b pid w off dsize).2.1.intq = c.intq := by
  simp only [read]
  split_ifs <;> rfl

theorem read_regs : (c.read M b pid w off dsize).2.1.regs = c.regs := by
  simp only [read]
  split_ifs <;> rfl

/-! ## The queue -/

theorem queueIid_of_full (h : c.Full b) : c.queueIid b iid = none := if_pos h

theorem queueIid_of_room (h : ¬ c.Full b) : c.queueIid b iid =
    some ({ c with intq := c.intq ++ [iid &&& (INTQ_VALID - 1)] }.setReg RBOX_INT
      (c.reg RBOX_INT ||| INT_QUEUE)) := if_neg h

theorem postIid_eq_none : c.postIid b pid iid = none ↔ c.Full b := by
  by_cases h : c.Full b
  · simp [postIid, queueIid_of_full h, h]
  · simp [postIid, queueIid_of_room h, h]

theorem postIid_spec {c' : Csr} (h : c.postIid b pid iid = some c') : ¬ c.Full b ∧
    c'.intq = c.intq ++ [iid &&& (INTQ_VALID - 1)] ∧
    c'.reg RBOX_INT = c.reg RBOX_INT ||| INT_QUEUE := by
  have hf : ¬ c.Full b := by
    intro hf
    rw [postIid_eq_none.2 hf] at h
    cases h
  rw [postIid, queueIid_of_room hf] at h
  cases h
  exact ⟨hf, by simp, by simp⟩

@[simp] theorem writePlain_intq : (c.writePlain off dsize data).intq = c.intq := by
  unfold writePlain
  split
  · rfl
  · split
    · rfl
    · split <;> rfl

theorem writeCommon_intq (h : off ≠ RBOX_INTQ) :
    (c.writeCommon M b pid w off dsize data).1.intq = c.intq := by
  simp only [writeCommon, h, if_false]
  split_ifs <;> simp

/-! ## `R_INT_STAT<12>` -/

theorem queued_congr {c' : Csr} (h : c'.regs = c.regs) : c'.queued = c.queued := by
  simp only [queued, reg, h]

@[simp] theorem queued_setReg : (c.setReg off v).queued =
    if off = RBOX_INT then v.getLsbD 12 else c.queued := by
  unfold queued
  rw [reg_setReg]
  by_cases h : off = RBOX_INT
  · simp [h]
  · simp [h, Ne.symm h]

@[simp] theorem queued_updateIrq : (c.updateIrq b pid).queued = c.queued := by simp [queued]

theorem queued_setReg_ne (h : off ≠ RBOX_INT) : (c.setReg off v).queued = c.queued :=
  queued_setReg.trans (if_neg h)

theorem queued_of_regs {c' : Csr} (hr : c'.regs = (c.setReg off v).regs) (h : off ≠ RBOX_INT) :
    c'.queued = c.queued :=
  (queued_congr hr).trans (queued_setReg_ne h)

theorem queueBit_12 : INT_QUEUE.getLsbD 12 = true := by decide

theorem isMaskReg_ne (h : isMaskReg off = true) : off ≠ RBOX_INT ∧ off ≠ RBOX_INTA := by
  constructor
  · rintro rfl
    exact absurd h (by decide)
  · rintro rfl
    exact absurd h (by decide)

/-- `R_INT_QUEADD`. -/
theorem write21464_add : c.write21464 b pid RBOX_INTA data =
    some ((((c.setReg RBOX_INTA data).queueIid b data).getD (c.setReg RBOX_INTA data)).updateIrq b
      pid) := by
  have h1 : RBOX_INTA ≠ R_INT_MASK_TPU := by decide
  have h2 : isMaskReg RBOX_INTA = false := by decide
  have h3 : RBOX_INTA ≠ GIO_LOCK := by decide
  have h4 : RBOX_INTA ≠ RBOX_INT := by decide
  simp [write21464, h1, h2, h3, h4]

/-- The other registers leave the queue and its bit as they are. -/
theorem write21464_other {c' : Csr} (ho : off ≠ RBOX_INTA)
    (h : c.write21464 b pid off data = some c') : c'.intq = c.intq ∧ c'.queued = c.queued := by
  simp only [write21464] at h
  have ho' : (if off = R_INT_MASK_TPU then RBOX_IMASK else off) ≠ RBOX_INTA := by
    split
    · decide
    · exact ho
  generalize (if off = R_INT_MASK_TPU then RBOX_IMASK else off) = r at h ho'
  split_ifs at h with hm hg hi
  · cases h
    simp [(isMaskReg_ne hm).1]
  · cases h
    exact ⟨rfl, rfl⟩
  · cases h
    simp [queueBit_12, queued]

theorem write21464_none (h : c.write21464 b pid off data = none) : off ≠ RBOX_INT := by
  rintro rfl
  have h1 : RBOX_INT ≠ R_INT_MASK_TPU := by decide
  simp only [write21464, h1, if_false] at h
  split_ifs at h

theorem writeScratch_queued : (c.writeScratch pid w v).1.queued = c.queued := by
  have h : RBOX_SCRATCH1 ≠ RBOX_INT := by decide
  simp only [writeScratch]
  split_ifs
  · exact queued_setReg_ne h
  · rw [queued_setReg_ne h]
    exact queued_of_regs rfl h
  · exact queued_of_regs rfl h
  · exact queued_setReg_ne h

theorem writePlain_queued (h : off ≠ RBOX_INT) :
    (c.writePlain off dsize data).queued = c.queued := by
  unfold writePlain
  split
  · rfl
  · split
    · exact queued_setReg_ne (by decide)
    · split
      · rfl
      · exact queued_setReg_ne h

theorem writeCommon_queued (h : off ≠ RBOX_INT) :
    (c.writeCommon M b pid w off dsize data).1.queued = c.queued := by
  simp only [writeCommon, h, if_false]
  split_ifs
  · exact queued_congr rfl
  · exact queued_of_regs (c := c) rfl (by decide)
  · rw [queued_updateIrq]
    exact queued_setReg_ne (by decide)
  · exact writeScratch_queued
  · exact writePlain_queued h

/-! ## Writes -/

/-- A pop. -/
theorem write_pop : (c.write M b pid w RBOX_INTQ dsize data).1.intq = c.intq.drop 1 ∧
    (c.write M b pid w RBOX_INTQ dsize data).2.2 = (b.m21464 && !c.intq.isEmpty) := by
  have h1 : RBOX_INTQ ∉ [GIO_CFG, GIO_DAT, GIO_CTL, GIO_LOCK] := by decide
  have h2 : RBOX_INTQ ≠ RBOX_INT := by decide
  have h3 : RBOX_INTQ ≠ RBOX_IREQ := by decide
  cases hm : b.m21464 with
  | true =>
    simp only [write, hm, writeIntq21464]
    refine ⟨?_, by simp⟩
    simp only [true_and, if_true, updateIrq_intq]
    split <;> simp
  | false => simp [write, hm, h3, writeCommon, h1, h2]

theorem write_pop_queued (hm : b.m21464 = true) :
    (c.write M b pid w RBOX_INTQ dsize data).1.queued =
      if (c.intq.drop 1).isEmpty then false else c.queued := by
  have h : RBOX_INTQ ≠ RBOX_INT := by decide
  simp only [write, hm, writeIntq21464, true_and, if_true, queued_updateIrq]
  by_cases he : (c.intq.drop 1).isEmpty
  · rw [if_pos he, if_pos he, queued_setReg]
    simp [queueBit_12]
  · rw [if_neg he, if_neg he]
    exact queued_of_regs rfl h

/-- `R_INT_QUEADD`. -/
theorem write_add (hm : b.m21464 = true) :
    (c.write M b pid w RBOX_INTA dsize data).1.intq =
        (if c.Full b then c.intq else c.intq ++ [data &&& (INTQ_VALID - 1)]) ∧
      (c.write M b pid w RBOX_INTA dsize data).1.queued = (if c.Full b then c.queued else true) ∧
      (c.write M b pid w RBOX_INTA dsize data).2.2 = false := by
  have h1 : RBOX_INTA ≠ RBOX_INTQ := by decide
  have h2 : RBOX_INTA ≠ RBOX_IREQ := by decide
  have h3 : RBOX_INTA ≠ RBOX_INT := by decide
  simp only [write, hm, h1, h2, and_false, if_false, if_true, write21464_add]
  have hfull : (c.setReg RBOX_INTA data).Full b ↔ c.Full b := Iff.rfl
  by_cases hf : c.Full b
  · rw [queueIid_of_full (hfull.2 hf)]
    simp [hf, h3]
  · rw [queueIid_of_room (mt hfull.1 hf)]
    simp [hf, queueBit_12]

/-- Every other write leaves the queue, and in 21464 mode its bit, as they are. -/
theorem write_other (h1 : off ≠ RBOX_INTQ) (h2 : b.m21464 = true → off ≠ RBOX_INTA) :
    (c.write M b pid w off dsize data).1.intq = c.intq ∧
      (c.write M b pid w off dsize data).2.2 = false ∧
      (b.m21464 = true → (c.write M b pid w off dsize data).1.queued = c.queued) := by
  have h3 : RBOX_IREQ ≠ RBOX_INT := by decide
  simp only [write, h1, and_false, if_false]
  split
  · rename_i hr
    cases hm : b.m21464 with
    | true => simp [writeIreq21464, INT8_REQUESTABLE, queued, h3.symm]
    | false => simp
  · cases hm : b.m21464 with
    | true =>
      simp only [if_true]
      cases hw : c.write21464 b pid off data with
      | none =>
        refine ⟨writeCommon_intq h1, rfl, fun _ => ?_⟩
        exact writeCommon_queued (write21464_none hw)
      | some c' =>
        obtain ⟨hq, hb⟩ := write21464_other (h2 hm) hw
        exact ⟨hq, rfl, fun _ => hb⟩
    | false => exact ⟨writeCommon_intq h1, rfl, fun h => nomatch h⟩

end Csr

/-! ## IIDs -/

section Iid

variable {x y n k : Nat}

theorem toNat_iidOf (hx : x < kMaxPids) (hn : n < kLsis) : (iidOf x n).toNat = x * 2 ^ 14 + n := by
  unfold kMaxPids at hx
  unfold kLsis at hn
  have h1 : (x % 2 ^ 64) <<< 14 % 2 ^ 64 = x <<< 14 := by
    rw [Nat.shiftLeft_eq, Nat.shiftLeft_eq]
    omega
  have h2 : n % 2 ^ 64 = n := by omega
  rw [iidOf, BitVec.toNat_or, BitVec.toNat_shiftLeft, BitVec.toNat_ofNat, BitVec.toNat_ofNat, h1, h2,
    ← Nat.shiftLeft_add_eq_or_of_lt (by omega : n < 2 ^ 14), Nat.shiftLeft_eq]

theorem iidOf_lsi (hx : x < kMaxPids) (hn : n < kLsis) : (iidOf x n &&& 0xff#64).toNat = n := by
  have h : (0xff#64).toNat = 2 ^ 8 - 1 := rfl
  rw [BitVec.toNat_and, h, Nat.and_two_pow_sub_one_eq_mod, toNat_iidOf hx hn]
  unfold kLsis at hn
  omega

theorem iidOf_pe (hx : x < kMaxPids) (hn : n < kLsis) : iidPe (iidOf x n) = x := by
  have h : (0x3ff#64).toNat = 2 ^ 10 - 1 := rfl
  rw [iidPe, BitVec.toNat_and, h, Nat.and_two_pow_sub_one_eq_mod, BitVec.toNat_ushiftRight,
    toNat_iidOf hx hn, Nat.shiftRight_eq_div_pow]
  unfold kMaxPids at hx
  unfold kLsis at hn
  omega

theorem iidOf_queued (hx : x < kMaxPids) (hn : n < kLsis) :
    iidOf x n &&& (INTQ_VALID - 1) = iidOf x n := by
  have h : (INTQ_VALID - 1).toNat = 2 ^ 24 - 1 := rfl
  apply BitVec.eq_of_toNat_eq
  rw [BitVec.toNat_and, h, Nat.and_two_pow_sub_one_eq_mod, toNat_iidOf hx hn]
  unfold kMaxPids at hx
  unfold kLsis at hn
  omega

theorem iidOf_msi (hx : x < kMaxPids) (hn : n < kLsis) : iidOf x n &&& 1#64 <<< 13 = 0 := by
  have h : (1#64 <<< 13).toNat = 2 ^ 13 := rfl
  have hb : (x * 2 ^ 14 + n).testBit 13 = false := by
    rw [Nat.testBit_eq_decide_div_mod_eq]
    unfold kLsis at hn
    simp
    omega
  apply BitVec.eq_of_toNat_eq
  rw [BitVec.toNat_and, h, toNat_iidOf hx hn, Nat.and_two_pow, hb]
  rfl

theorem iidOf_names (hx : b.io7 x) (hn : n < kLsis) : Names b (iidOf x n) x n :=
  have hlt := b.io7_lt x hx
  ⟨iidOf_msi hlt hn, iidOf_lsi hlt hn, hn, iidOf_pe hlt hn, hx⟩

theorem Names.unique {iid : BitVec 64} (h : Names b iid x n) (h' : Names b iid y k) :
    x = y ∧ n = k :=
  ⟨h.2.2.2.1.symm.trans h'.2.2.2.1, h.2.1.symm.trans h'.2.1⟩

end Iid

namespace Io7

variable {io io' : Io7} {n k port off dsize r : Nat} {data iid : BitVec 64}

theorem ready_congr (hl : io'.level n = io.level n) (hs : io'.inService n = io.inService n)
    (hc : io'.ctl n = io.ctl n) : io'.ready n = io.ready n := by
  simp only [ready, hl, hs, hc]

/-- An operation leaves every LSI that it does not deliver as it is, or lowers its line. -/
structure Touches (io : Io7) (r : Io7 × List Nat) : Prop where
  ready : ∀ n < kLsis, n ∉ r.2 → r.1.ready n = io.ready n ∨ r.1.ready n = none
  refused : r.1.refused = io.refused
  lt : ∀ n ∈ r.2, n < kLsis

theorem Touches.refl : Touches io (io, []) := ⟨fun _ _ _ => .inl rfl, rfl, by simp⟩

theorem lsi_touches {assert : Bool} : Touches io (io.lsi n assert) := by
  unfold lsi
  split
  · exact .refl
  · rename_i hn
    refine ⟨fun k _ hk => ?_, rfl, ?_⟩
    · by_cases hkn : k = n
      · subst hkn
        cases assert with
        | true => simp at hk
        | false => exact .inr (by simp [ready])
      · exact .inl (ready_congr (by simp [hkn]) rfl rfl)
    · cases assert with
      | true => simpa using hn
      | false => simp

theorem endOfInterrupt_touches : Touches io (io.endOfInterrupt iid) := by
  unfold endOfInterrupt
  dsimp only
  split
  · exact .refl
  · split
    · exact .refl
    · rename_i hn
      refine ⟨fun k _ hk => ?_, rfl, by simpa using hn⟩
      exact .inl (ready_congr rfl (by simp_all) rfl)

theorem setReg_ctl (h : port = 7 → off ≠ LSI_CTL + n * 0x40) :
    (io.setReg port off dsize data).ctl n = io.ctl n := by
  unfold ctl setReg
  by_cases hp : port = 7
  · subst hp
    simp [Ne.symm (h rfl)]
  · simp [Ne.symm hp]

theorem hpWrite_same (hp : port < kPorts) (h : io.hpWrite port r data = some io') :
    io'.level = io.level ∧ io'.inService = io.inService ∧ io'.refused = io.refused ∧
      ∀ n, io'.ctl n = io.ctl n := by
  have hp7 : port ≠ 7 := by
    unfold kPorts at hp
    omega
  simp only [hpWrite] at h
  split_ifs at h <;> cases h <;>
    exact ⟨rfl, rfl, rfl, fun n => by first | rfl | exact setReg_ctl fun h => absurd h hp7⟩

theorem Touches.of_same (hl : io'.level = io.level) (hs : io'.inService = io.inService)
    (hr : io'.refused = io.refused) {ns : List Nat} (hns : ∀ n ∈ ns, n < kLsis)
    (hc : ∀ n < kLsis, n ∉ ns → io'.ctl n = io.ctl n) : Touches io (io', ns) :=
  ⟨fun n hn hnn => .inl (ready_congr (congrFun hl n) (congrFun hs n) (hc n hn hnn)), hr, hns⟩

theorem Touches.trans {r : Io7 × List Nat} (h : Touches io (io', [])) (h' : Touches io' r) :
    Touches io r := by
  refine ⟨fun n hn hnn => ?_, h'.refused.trans h.refused, h'.lt⟩
  rcases h'.ready n hn hnn with he | he
  · rw [he]
    exact h.ready n hn (by simp)
  · exact .inr he

theorem writePort_touches (hp : port < kPorts) : Touches io (io.writePort port r dsize data) := by
  have hp7 : port ≠ 7 := by
    unfold kPorts at hp
    omega
  have hset : Touches io (io.setReg port r dsize data, []) := by
    refine .of_same ?_ ?_ ?_ ?_ fun n _ _ => ?_
    · rfl
    · rfl
    · rfl
    · simp
    · exact setReg_ctl fun h => absurd h hp7
  unfold writePort
  split
  · rename_i io' h
    split at h
    · obtain ⟨hl, hs, hr, hc⟩ := hpWrite_same hp h
      exact .of_same hl hs hr (by simp) fun n _ _ => hc n
    · cases h
  · split
    · exact .refl
    · split
      · exact hset.trans endOfInterrupt_touches
      · exact hset

theorem writePort7_touches : Touches io (io.writePort7 r dsize data) := by
  unfold writePort7
  split
  · exact .refl
  · refine .of_same ?_ ?_ ?_ ?_ fun n hn hnn => ?_
    · rfl
    · rfl
    · rfl
    · split
      · simp
        omega
      · simp
    · apply setReg_ctl
      rintro - rfl
      unfold kLsis at hn
      have hr : LSI_CTL ≤ LSI_CTL + n * 0x40 ∧ LSI_CTL + n * 0x40 < LSI_CTL + kLsis * 0x40 := by
        unfold kLsis
        omega
      rw [if_pos hr, Nat.add_sub_cancel_left, Nat.mul_div_cancel n (by omega)] at hnn
      exact hnn List.mem_cons_self

theorem write_touches : Touches io (io.write port off dsize data) := by
  unfold write
  split
  · exact .refl
  · split
    · rename_i hp
      exact writePort_touches hp
    · split
      · exact writePort7_touches
      · exact .refl

/-! ## In service -/

theorem lsi_inService {assert : Bool} : (io.lsi n assert).1.inService = io.inService := by
  unfold lsi
  split <;> rfl

theorem writePort_inService (hp : port < kPorts) (hr : r ≠ EOI_DAT) :
    (io.writePort port r dsize data).1.inService = io.inService := by
  unfold writePort
  split
  · rename_i io' hw
    split at hw
    · exact (hpWrite_same hp hw).2.1
    · cases hw
  · rw [if_neg hr]
    split <;> rfl

theorem writePort7_inService : (io.writePort7 r dsize data).1.inService = io.inService := by
  unfold writePort7
  split <;> rfl

theorem write_inService (h : isEoi port off = false) :
    (io.write port off dsize data).1.inService = io.inService := by
  unfold write
  split
  · rfl
  · split
    · rename_i hoff hp
      refine writePort_inService hp fun hr => ?_
      have ho : off = kCsrOff + EOI_DAT := by omega
      subst ho
      simp [isEoi, hp] at h
    · split
      · exact writePort7_inService
      · rfl

theorem write_eoi (h : isEoi port off = true) :
    (io.write port off dsize data).1.inService = (io.endOfInterrupt data).1.inService := by
  simp only [isEoi, Bool.and_eq_true, decide_eq_true_eq] at h
  obtain ⟨hp, rfl⟩ := h
  have h1 : ¬ kCsrOff + EOI_DAT < kCsrOff := by omega
  have h2 : ¬ (HP_MISC ≤ EOI_DAT ∧ EOI_DAT ≤ HP_EVNT) := by decide
  have h3 : EOI_DAT ∉ [POx_ERR_SUM, 0x20c0, 0x2100, 0x2140] := by decide
  rw [write, if_neg h1, if_pos hp, Nat.add_sub_cancel_left, writePort, if_neg h2]
  simp only [h3, if_false, if_true]
  simp only [endOfInterrupt]
  split_ifs <;> rfl

end Io7

end Alphabox.Marvel
