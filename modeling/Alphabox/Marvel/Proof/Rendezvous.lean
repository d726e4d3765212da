import Alphabox.Lib.Reach
import Alphabox.Marvel.Rendezvous
import Alphabox.Marvel.Proof.Blocks

/-!
# The clock rendezvous

`Rendezvous.Inv` relates `RBOX_INT<23>`, `syncWaiting` and `syncHeld` to the two processors'
histories: before the first wait the flags count the broadcasts up to two, and from then on
`syncWaiting` says that the secondary spins and `syncHeld` that a broadcast waits for it.
`rendezvous_serves` reads off what each wait gets.
-/

namespace Alphabox.Marvel

variable {b : Board} {pid : Nat} {c : Csr} {data : BitVec 64}

/-! ## The two registers -/

theorem isSync_eq : isSync data = data.getLsbD 23 := by
  have h : data &&& INT_SYNC = if data.getLsbD 23 then INT_SYNC else 0 := by
    have := BitVec.and_twoPow data 23
    rwa [show BitVec.twoPow 64 23 = INT_SYNC from rfl] at this
  rw [isSync, h]
  cases data.getLsbD 23 <;> decide

theorem sync_bit : INT_SYNC.getLsbD 23 = true := by decide

namespace Csr

@[simp] theorem updateIrq_flags : (c.updateIrq b pid).syncWaiting = c.syncWaiting ∧
    (c.updateIrq b pid).syncHeld = c.syncHeld := by
  unfold updateIrq updateIrq21464
  split
  · exact ⟨rfl, rfl⟩
  · split <;> exact ⟨rfl, rfl⟩

theorem writeIreq_int : (c.writeIreq b pid data).reg RBOX_INT = c.reg RBOX_INT |||
    (if isSync data && !c.syncWaiting then data &&& ~~~INT_SYNC else data) := by
  have hne : RBOX_INT ≠ RBOX_IREQ := by decide
  have hreg : (c.setReg RBOX_IREQ data).reg RBOX_INT = c.reg RBOX_INT :=
    reg_setReg.trans (if_neg hne)
  simp only [writeIreq, updateIrq_reg, reg_setReg, if_true]
  exact congrArg (· ||| _) hreg

/-- A request sets the bit where the processor waits for it, and is held where it does not. -/
theorem writeIreq_sync : (c.writeIreq b pid data).synced =
      (c.synced || (isSync data && c.syncWaiting)) ∧
    (c.writeIreq b pid data).syncWaiting = (c.syncWaiting && !isSync data) ∧
    (c.writeIreq b pid data).syncHeld = (c.syncHeld || (isSync data && !c.syncWaiting)) := by
  refine ⟨?_, by simp [writeIreq, isSync, setReg], by simp [writeIreq, isSync, setReg]⟩
  rw [synced, writeIreq_int, BitVec.getLsbD_or, ← synced]
  split
  · rename_i h
    obtain ⟨-, hw⟩ : _ ∧ c.syncWaiting = false := by simpa using h
    rw [BitVec.getLsbD_and, BitVec.getLsbD_not, sync_bit, hw]
    simp
  · rename_i h
    rw [← isSync_eq]
    cases hs : isSync data with
    | false => simp
    | true =>
      have hw : c.syncWaiting = true := by simpa [hs] using h
      simp [hw]

theorem writeInt_int : (c.writeInt b pid data).reg RBOX_INT =
    let stat := if isSync data && c.syncHeld then (c.reg RBOX_INT &&& ~~~data) ||| INT_SYNC
      else c.reg RBOX_INT &&& ~~~data
    if c.intq.isEmpty then stat else stat ||| INT_QUEUE := by
  simp only [writeInt, updateIrq_reg, reg_setReg, if_true]
  rfl

/-- A clear begins a wait: what was held sets the bit at once. -/
theorem writeInt_sync : (c.writeInt b pid data).synced =
      (if isSync data then c.syncHeld else c.synced) ∧
    (c.writeInt b pid data).syncWaiting = (if isSync data then !c.syncHeld else c.syncWaiting) ∧
    (c.writeInt b pid data).syncHeld = (c.syncHeld && !isSync data) := by
  refine ⟨?_, by simp [writeInt, isSync, setReg], by simp [writeInt, isSync, setReg]⟩
  have hq : INT_QUEUE.getLsbD 23 = false := by decide
  have hqueue : ∀ v : BitVec 64, (if c.intq.isEmpty then v else v ||| INT_QUEUE).getLsbD 23 =
      v.getLsbD 23 := by
    intro v
    split
    · rfl
    · rw [BitVec.getLsbD_or, hq, Bool.or_false]
  have hclear : (c.reg RBOX_INT &&& ~~~data).getLsbD 23 = (c.synced && !isSync data) := by
    rw [isSync_eq, synced, BitVec.getLsbD_and, BitVec.getLsbD_not]
    rfl
  rw [synced, writeInt_int]
  dsimp only
  rw [hqueue]
  split
  · rename_i h
    obtain ⟨hs, hh⟩ := (Bool.and_eq_true _ _).mp h
    rw [BitVec.getLsbD_or, sync_bit, Bool.or_true, hs, if_pos rfl, hh]
  · rename_i h
    rw [hclear]
    cases hs : isSync data with
    | false => simp
    | true =>
      have hh : c.syncHeld = false := by simpa [hs] using h
      simp [hh]

theorem reset_sync : (reset b pid).synced = false ∧ (reset b pid).syncWaiting = true ∧
    (reset b pid).syncHeld = false := by
  refine ⟨?_, rfl, rfl⟩
  simp [synced, reg, reset]

end Csr

namespace Rendezvous

variable {r : Rendezvous}

/-! ## The invariant -/

/-- What the flags say of the history (module doc). -/
structure Inv (r : Rendezvous) : Prop where
  first : r.waits = 0 → r.waiting = false ∧ (r.csr.synced = true ↔ 1 ≤ r.issued) ∧
    (r.csr.syncWaiting = true ↔ r.issued = 0) ∧ (r.csr.syncHeld = true ↔ 2 ≤ r.issued)
  later : 0 < r.waits → (r.csr.syncWaiting = true ↔ r.Spinning) ∧
    (r.csr.syncHeld = true ↔ 1 ≤ r.issued ∧ ¬ r.Spinning)
  spins : r.Spinning → r.issued = 1 → r.waits = 1
  account : r.waits = r.consumed + if r.Spinning then 1 else 0

theorem Inv.reset : Inv (init b pid) := by
  obtain ⟨hs, hw, hh⟩ := @Csr.reset_sync b pid
  refine ⟨fun _ => ⟨rfl, ?_, ?_, ?_⟩, fun h => absurd h (Nat.lt_irrefl 0), fun h => ?_, ?_⟩
  · simp [init, hs]
  · simp [init, hw]
  · simp [init, hh]
  · exact absurd h.1 (by simp [init])
  · simp [init, Spinning]

theorem Inv.not_first (h : Inv r) (hw : r.waiting = true) : 0 < r.waits := by
  rcases Nat.eq_zero_or_pos r.waits with h0 | hp
  · rw [(h.first h0).1] at hw
    cases hw
  · exact hp

/-- A write without `INT_SYNC` leaves the bit and the flags as they are. -/
theorem Inv.same (h : Inv r) (hs : c.synced = r.csr.synced)
    (hw : c.syncWaiting = r.csr.syncWaiting) (hh : c.syncHeld = r.csr.syncHeld) :
    Inv { r with csr := c } := by
  obtain ⟨h1, h2, h3, h4⟩ := h
  have hspin : Spinning { r with csr := c } ↔ r.Spinning := by
    simp only [Spinning, hs]
  refine ⟨?_, ?_, ?_, ?_⟩
  · simpa only [hs, hw, hh] using h1
  · simpa only [hspin, hw, hh] using h2
  · simpa only [hspin] using h3
  · simpa only [hspin] using h4

/-- A broadcast for a secondary that spins sets the bit. -/
theorem ireq_spinning (h : Inv r) (hsp : r.Spinning) (hd : isSync data = true) :
    (r.ireq b pid data).csr.synced = true ∧ (r.ireq b pid data).csr.syncHeld = false ∧
    r.ireq b pid data = { r with
      csr := r.csr.writeIreq b pid data
      issued := 0
      consumed := r.consumed + 1 } := by
  obtain ⟨hs, hw, hh⟩ := @Csr.writeIreq_sync b pid r.csr data
  obtain ⟨hwait, hheld⟩ := h.later (h.not_first hsp.1)
  have hset : (r.csr.writeIreq b pid data).synced = true := by
    rw [hs, hd, hwait.2 hsp]
    simp
  have hnone : (r.csr.writeIreq b pid data).syncHeld = false := by
    have h0 : r.csr.syncHeld = false := by
      cases hc : r.csr.syncHeld with
      | false => rfl
      | true => exact absurd hsp (hheld.1 hc).2
    rw [hh, h0, hwait.2 hsp]
    simp
  have heq : r.ireq b pid data = { r with
      csr := r.csr.writeIreq b pid data
      issued := 0
      consumed := r.consumed + 1 } := by
    simp only [ireq, hd, hset, hsp.1, hsp.2]
    rfl
  rw [heq]
  exact ⟨hset, hnone, rfl⟩

/-- Any other broadcast is counted. -/
theorem ireq_early (hsp : ¬ r.Spinning) (hd : isSync data = true) :
    r.ireq b pid data =
      { r with csr := r.csr.writeIreq b pid data, issued := r.issued + 1 } := by
  have hnot : (r.waiting && !r.csr.synced) = false := by
    cases hw : r.waiting with
    | false => rfl
    | true =>
      cases hc : r.csr.synced with
      | true => rfl
      | false => exact absurd ⟨hw, hc⟩ hsp
  simp only [ireq, hd, hnot]
  rfl

theorem Inv.ireq (h : Inv r) (data : BitVec 64) : Inv (r.ireq b pid data) := by
  obtain ⟨hs, hw, hh⟩ := @Csr.writeIreq_sync b pid r.csr data
  cases hd : isSync data with
  | false =>
    have heq : r.ireq b pid data = { r with csr := r.csr.writeIreq b pid data } := by
      simp [Rendezvous.ireq, hd]
    rw [heq]
    exact h.same (by simp [hs, hd]) (by simp [hw, hd]) (by simp [hh, hd])
  | true =>
    rw [hd] at hs hw hh
    by_cases hsp : r.Spinning
    · obtain ⟨hset, hnone, heq⟩ := @ireq_spinning b pid _ _ h hsp hd
      have hpos := h.not_first hsp.1
      have hacc := h.account
      rw [if_pos hsp] at hacc
      rw [heq] at hset hnone ⊢
      have hsp' : ¬ Spinning { r with
          csr := r.csr.writeIreq b pid data
          issued := 0
          consumed := r.consumed + 1 } := fun hc => by
        rw [hc.2] at hset
        cases hset
      refine ⟨fun h0 => absurd h0 (Nat.ne_of_gt hpos), fun _ => ⟨?_, ?_⟩, fun hc => absurd hc hsp', ?_⟩
      · simp [hw, hsp']
      · simpa using hnone
      · rw [if_neg hsp']
        simpa using hacc
    · rw [ireq_early hsp hd]
      have hsp' : ¬ Spinning { r with
          csr := r.csr.writeIreq b pid data, issued := r.issued + 1 } := fun hc => by
        have := hc.2
        rw [hs] at this
        exact hsp ⟨hc.1, (Bool.or_eq_false_iff.1 this).1⟩
      refine ⟨fun h0 => ?_, fun hpos => ⟨?_, ?_⟩, fun hc => absurd hc hsp', ?_⟩
      · -- Before the first wait the first broadcast sets the bit, the later ones are held.
        obtain ⟨hrest, hbit, hwait, hheld⟩ := h.first h0
        refine ⟨hrest, ?_, by simp [hw], ?_⟩
        · rw [hs]
          cases hc : r.csr.syncWaiting with
          | true => simp
          | false =>
            have hne : r.issued ≠ 0 := fun h => by simp [hwait.2 h] at hc
            simp [hbit.2 (Nat.pos_of_ne_zero hne)]
        · rw [hh]
          cases hc : r.csr.syncWaiting with
          | true =>
            have h0 : r.issued = 0 := hwait.1 hc
            have hn : r.csr.syncHeld = false := by
              cases hc : r.csr.syncHeld with
              | false => rfl
              | true => exact absurd (hheld.1 hc) (by omega)
            simp [hn, h0]
          | false =>
            have hne : r.issued ≠ 0 := fun h => by simp [hwait.2 h] at hc
            simp only [Bool.not_false, Bool.and_self, Bool.or_true, true_iff]
            omega
      · simp [hw, hsp']
      · have hwait : r.csr.syncWaiting = false := by
          cases hc : r.csr.syncWaiting with
          | false => rfl
          | true => exact absurd ((h.later hpos).1.1 hc) hsp
        rw [hh, hwait]
        simp [hsp']
      · have hacc := h.account
        rw [if_neg hsp] at hacc
        rw [if_neg hsp']
        exact hacc

/-! ## The secondary's steps -/

/-- A wait that finds a held broadcast ends at once. -/
theorem int_held (hd : isSync data = true) (hh : r.csr.syncHeld = true) :
    (r.int b pid data).csr.synced = true ∧ r.int b pid data = { r with
      csr := r.csr.writeInt b pid data
      waiting := true
      issued := 0
      waits := r.waits + 1
      consumed := r.consumed + 1 } := by
  obtain ⟨hs, -, -⟩ := @Csr.writeInt_sync b pid r.csr data
  rw [if_pos hd, hh] at hs
  have heq : r.int b pid data = { r with
      csr := r.csr.writeInt b pid data
      waiting := true
      issued := 0
      waits := r.waits + 1
      consumed := r.consumed + 1 } := by
    simp only [int, hd, hs]
    rfl
  rw [heq]
  exact ⟨hs, rfl⟩

theorem int_unheld (hd : isSync data = true) (hh : r.csr.syncHeld = false) :
    (r.int b pid data).Spinning ∧ r.int b pid data = { r with
      csr := r.csr.writeInt b pid data
      waiting := true
      waits := r.waits + 1 } := by
  obtain ⟨hs, -, -⟩ := @Csr.writeInt_sync b pid r.csr data
  rw [if_pos hd, hh] at hs
  have heq : r.int b pid data = { r with
      csr := r.csr.writeInt b pid data
      waiting := true
      waits := r.waits + 1 } := by
    simp only [int, hd, hs]
    rfl
  rw [heq]
  exact ⟨⟨rfl, hs⟩, rfl⟩

/-- When a wait begins, a broadcast is held unless none has come or the only one is lost. -/
theorem Inv.held_iff (h : Inv r) (hw : r.waiting = false) :
    r.csr.syncHeld = true ↔ 1 ≤ r.issued ∧ ¬ r.Lost := by
  have hsp : ¬ r.Spinning := fun hc => by
    rw [hc.1] at hw
    cases hw
  unfold Lost
  rcases Nat.eq_zero_or_pos r.waits with h0 | hp
  · rw [(h.first h0).2.2.2]
    omega
  · rw [(h.later hp).2]
    simp only [hsp, not_false_iff, and_true]
    omega

theorem Inv.int (h : Inv r) (hok : isSync data → r.waiting = false) : Inv (r.int b pid data) := by
  obtain ⟨hs, hw, hh⟩ := @Csr.writeInt_sync b pid r.csr data
  cases hd : isSync data with
  | false =>
    have heq : r.int b pid data = { r with csr := r.csr.writeInt b pid data } := by
      simp [Rendezvous.int, hd]
    rw [heq]
    exact h.same (by simp [hs, hd]) (by simp [hw, hd]) (by simp [hh, hd])
  | true =>
    have hidle := hok hd
    have hacc := h.account
    rw [if_neg fun hc => by simp [hc.1] at hidle] at hacc
    rw [hd] at hw hh
    cases hheld : r.csr.syncHeld with
    | true =>
      obtain ⟨hset, heq⟩ := @int_held b pid _ _ hd hheld
      rw [heq] at hset ⊢
      have hsp' : ¬ Spinning { r with
          csr := r.csr.writeInt b pid data
          waiting := true
          issued := 0
          waits := r.waits + 1
          consumed := r.consumed + 1 } := fun hc => by
        rw [hc.2] at hset
        cases hset
      refine ⟨fun h0 => absurd h0 (Nat.succ_ne_zero _), fun _ => ⟨?_, ?_⟩,
        fun hc => absurd hc hsp', ?_⟩
      · simp [hw, hheld, hsp']
      · simp [hh]
      · rw [if_neg hsp']
        simpa using hacc
    | false =>
      obtain ⟨hspin, heq⟩ := @int_unheld b pid _ _ hd hheld
      rw [heq] at hspin ⊢
      refine ⟨fun h0 => absurd h0 (Nat.succ_ne_zero _), fun _ => ⟨?_, ?_⟩, fun _ hi => ?_, ?_⟩
      · simp [hw, hheld, hspin]
      · simp [hh, hspin]
      · have hnot : ¬ (1 ≤ r.issued ∧ ¬ r.Lost) := fun hc => by
          rw [(h.held_iff hidle).2 hc] at hheld
          cases hheld
        have hlost : r.Lost := by
          by_contra hc
          exact hnot ⟨Nat.le_of_eq hi.symm, hc⟩
        change r.waits + 1 = 1
        rw [hlost.1]
      · rw [if_pos hspin]
        simpa using hacc

theorem readReg_int : (c.readReg b pid RBOX_INT).getLsbD 23 = c.synced := by
  have h1 : RBOX_INT ≠ GIO_CFG := by decide
  have h2 : RBOX_INT ≠ GIO_CTL := by decide
  have h3 : RBOX_INT ≠ RBOX_INTQ := by decide
  have h4 : RBOX_INT ≠ RBOX_IO_CFG := by decide
  have h5 : RBOX_INT ≠ 0x28020 := by decide
  simp [Csr.readReg, Csr.synced, h1, h2, h3, h4, h5]

theorem poll_eq : r.poll b pid = { r with waiting := !r.csr.synced } := by
  rw [poll, readReg_int]

theorem Inv.poll (h : Inv r) (hw : r.waiting = true) : Inv (r.poll b pid) := by
  have hpos := h.not_first hw
  obtain ⟨-, h2, h3, h4⟩ := h
  rw [poll_eq]
  have hspin : Spinning { r with waiting := !r.csr.synced } ↔ r.Spinning := by
    simp [Spinning, hw]
  refine ⟨fun h0 => absurd h0 (Nat.ne_of_gt hpos), ?_, ?_, ?_⟩
  · simpa only [hspin] using h2
  · simpa only [hspin] using h3
  · simpa only [hspin] using h4

theorem Inv.kept (h : Inv r) (op : SyncOp) (hok : r.allowed op) : Inv (r.step b pid op) := by
  cases op with
  | ireq data => exact h.ireq data
  | int data => exact h.int hok
  | poll => exact h.poll hok

/-! ## What each wait gets -/

theorem Inv.begins (h : Inv r) (hd : isSync data = true) (hw : r.waiting = false) :
    ((1 ≤ r.issued → ((r.int b pid data).poll b pid).waiting = false) ↔ ¬ r.Lost) ∧
    (r.issued = 0 → (r.int b pid data).Spinning) ∧
    (¬ r.Lost → (r.int b pid data).issued = 0) ∧
    (r.int b pid data).csr.syncHeld = false := by
  obtain ⟨-, -, hgone⟩ := @Csr.writeInt_sync b pid r.csr data
  rw [hd, Bool.not_true, Bool.and_false] at hgone
  have hiff := h.held_iff hw
  rw [poll_eq]
  cases hheld : r.csr.syncHeld with
  | true =>
    obtain ⟨hone, hlost⟩ := hiff.1 hheld
    obtain ⟨hset, heq⟩ := @int_held b pid _ _ hd hheld
    rw [heq] at hset ⊢
    refine ⟨?_, fun h0 => absurd h0 (Nat.ne_of_gt hone), fun _ => rfl, hgone⟩
    simp only [hset, Bool.not_true, implies_true, true_iff]
    exact hlost
  | false =>
    obtain ⟨hspin, heq⟩ := @int_unheld b pid _ _ hd hheld
    have hnone : ¬ r.Lost → r.issued = 0 := fun hl => by
      by_contra hc
      rw [hiff.2 ⟨Nat.pos_of_ne_zero hc, hl⟩] at hheld
      cases hheld
    rw [heq] at hspin ⊢
    refine ⟨?_, fun _ => hspin, hnone, hgone⟩
    rw [hspin.2]
    constructor
    · intro hends hl
      exact absurd (hends (Nat.le_of_eq hl.2.symm)) Bool.noConfusion
    · intro hl hone
      exact absurd (hnone hl) (Nat.ne_of_gt hone)

/-- A set bit stays for the secondary that spins. -/
theorem stays (hw : r.waiting = true) (hs : r.csr.synced = true) {op : SyncOp}
    (hok : r.allowed op) (hne : op ≠ .poll) :
    (r.step b pid op).waiting = true ∧ (r.step b pid op).csr.synced = true := by
  have hsp : ¬ r.Spinning := fun hc => by
    rw [hc.2] at hs
    cases hs
  cases op with
  | poll => exact absurd rfl hne
  | ireq data =>
    obtain ⟨hbit, -⟩ := @Csr.writeIreq_sync b pid r.csr data
    rw [hs, Bool.true_or] at hbit
    cases hd : isSync data with
    | false => simpa [step, Rendezvous.ireq, hd] using ⟨hw, hbit⟩
    | true =>
      rw [step, ireq_early hsp hd]
      exact ⟨hw, hbit⟩
  | int data =>
    have hd : isSync data = false := by
      by_contra hc
      rw [hok (by simpa using hc)] at hw
      cases hw
    obtain ⟨hbit, -⟩ := @Csr.writeInt_sync b pid r.csr data
    rw [hd] at hbit
    simpa [step, Rendezvous.int, hd] using ⟨hw, hbit.trans hs⟩

/-- In any run from the reset: the two flags are never both set, and every wait consumes one
broadcast. A wait that begins after a broadcast ends at once unless it is the lost one, a wait that
begins with none spins until the very next, and what it finds is not held for another. -/
theorem rendezvous_serves (hr : Lib.Reach (· = init b pid) allowed (step b pid) r) :
    ¬ (r.csr.syncWaiting = true ∧ r.csr.syncHeld = true) ∧
    r.waits = r.consumed + (if r.Spinning then 1 else 0) ∧
    (∀ data, isSync data = true → r.waiting = false →
      ((1 ≤ r.issued → ((r.int b pid data).poll b pid).waiting = false) ↔ ¬ r.Lost) ∧
      (r.issued = 0 → (r.int b pid data).Spinning) ∧
      (¬ r.Lost → (r.int b pid data).issued = 0) ∧
      (r.int b pid data).csr.syncHeld = false) ∧
    (r.Spinning → ∀ data, isSync data = true →
      ((r.ireq b pid data).poll b pid).waiting = false ∧ (r.ireq b pid data).issued = 0 ∧
      (r.ireq b pid data).csr.syncHeld = false) ∧
    (r.waiting = true → r.csr.synced = true → (r.poll b pid).waiting = false ∧
      ∀ op, r.allowed op → op ≠ .poll →
        (r.step b pid op).waiting = true ∧ (r.step b pid op).csr.synced = true) := by
  have h : Inv r := Lib.Reach.inv (P := Inv) (fun _ hi => by rw [hi]; exact .reset)
    (fun _ op hs hok => hs.kept op hok) hr
  refine ⟨?_, h.account, fun data hd hw => h.begins hd hw, fun hsp data hd => ?_, fun hw hs => ?_⟩
  · intro hc
    rcases Nat.eq_zero_or_pos r.waits with h0 | hp
    · obtain ⟨-, -, hwait, hheld⟩ := h.first h0
      have h1 := hwait.1 hc.1
      have h2 := hheld.1 hc.2
      omega
    · exact ((h.later hp).2.1 hc.2).2 ((h.later hp).1.1 hc.1)
  · obtain ⟨hset, hnone, heq⟩ := @ireq_spinning b pid _ _ h hsp hd
    refine ⟨?_, by rw [heq], hnone⟩
    rw [poll_eq, hset]
    rfl
  · refine ⟨?_, fun op hok hne => stays hw hs hok hne⟩
    rw [poll_eq, hs]
    rfl

/-- Two processors in the EV7 mode. -/
def pair : Board where
  m21464 := false
  csr pid := pid < 2
  io7 _ := false
  tpus := 1
  cpu pid := pid < 2
  tpuCpu _ _ := false
  named _ _ := none
  ioClock _ := 0
  ioSysRev _ := 0
  csr_lt pid h := by
    have : pid < 2 := by simpa using h
    unfold kMaxPids
    omega
  io7_lt _ h := by cases h

/-- The secondary's first wait comes first, and then two broadcasts before its second. -/
def firstThenTwo : List SyncOp :=
  [.int INT_SYNC, .ireq INT_SYNC, .poll, .ireq INT_SYNC, .ireq INT_SYNC]

theorem rendezvous_serves_second :
    let r := firstThenTwo.foldl (step pair 1) (init pair 1)
    r.issued = 2 ∧ ((r.int pair 1 INT_SYNC).poll pair 1).waiting = false ∧
      (r.int pair 1 INT_SYNC).issued = 0 := by
  have hr : Lib.Reach (· = init pair 1) allowed (step pair 1) (init pair 1) := .start rfl
  have hpoll : (((init pair 1).int pair 1 INT_SYNC).ireq pair 1 INT_SYNC).waiting = true := by
    decide +kernel
  have hrun := hr.run firstThenTwo ⟨fun _ => rfl, trivial, hpoll, trivial, trivial, trivial⟩
  have hwaits : (firstThenTwo.foldl (step pair 1) (init pair 1)).waits = 1 := by decide +kernel
  have hlost : ¬ (firstThenTwo.foldl (step pair 1) (init pair 1)).Lost := fun hc => by
    rw [hc.1] at hwaits
    cases hwaits
  obtain ⟨hends, -, hnone, -⟩ :=
    (rendezvous_serves hrun).2.2.1 INT_SYNC (by decide) (by decide +kernel)
  exact ⟨by decide +kernel, hends.2 hlost (by decide +kernel), hnone hlost⟩

/-- One broadcast after the reset sets the bit, and the clear of the secondary's first wait erases
it: the wait begins with one broadcast issued and spins. -/
theorem rendezvous_strands :
    let r := init pair 1
    let r' := r.step pair 1 (.ireq INT_SYNC)
    r.allowed (.ireq INT_SYNC) ∧ r'.allowed (.int INT_SYNC) ∧ r'.issued = 1 ∧
      ((r'.int pair 1 INT_SYNC).poll pair 1).waiting = true := by
  refine ⟨trivial, fun _ => ?_, ?_, ?_⟩ <;> decide +kernel

end Rendezvous

end Alphabox.Marvel
