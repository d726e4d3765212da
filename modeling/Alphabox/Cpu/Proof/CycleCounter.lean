import Alphabox.Cpu.CycleCounter
import Alphabox.Cpu.Proof.TickSchedule
import Mathlib.Data.List.Pairwise

/-!
# The cycle counter's account and its bound

The account: a sync bills a second at most, so no product wraps, and what the floor of a read lends
is in `borrow` until later syncs have withheld it; the counter less what is lent is the cycles
billed.

The bound: read right after a tick the counter stands between the tick's due instant and a quarter
period past it, and before the next tick it does not pass that one's due instant by more.
-/

namespace Alphabox.Cpu

namespace CycleCounter

variable {c : CycleCounter} {cpuHz now : Nat}

/-! ## One sync -/

theorem billed_le : c.billed now ≤ c.tickHz := by
  unfold billed
  dsimp only
  split <;> omega

/-- A second's cycles leave room for the remainder. -/
theorem second_lt (hspeed : cpuHz < 2 ^ 32) (hz : 0 < c.tickHz)
    (hq : c.cyclesPerTickQ32 = cyclesPerTick cpuHz c.tickHz) :
    c.tickHz * c.cyclesPerTickQ32 ≤ 2 ^ 64 - 2 ^ 32 := by
  have hdiv : c.tickHz * c.cyclesPerTickQ32 ≤ cpuHz * 2 ^ 32 := by
    rw [hq, cyclesPerTick, if_neg (by omega)]
    exact Nat.mul_div_le _ _
  omega

/-- The cycles a sync bills do not wrap. -/
structure Billable (c : CycleCounter) (now : Nat) : Prop where
  prod : c.billed now * c.cyclesPerTickQ32 ≤ 2 ^ 64 - 2 ^ 32
  rem : c.wallRemainder < 2 ^ 32

theorem Billable.scaled_eq (h : Billable c now) : c.scaled (c.billed now) =
    c.billed now * c.cyclesPerTickQ32 + c.wallRemainder := by
  have h1 := h.prod
  have h2 := h.rem
  unfold scaled
  rw [Nat.mod_eq_of_lt (show _ < 2 ^ 64 by omega), Nat.mod_eq_of_lt (by omega)]

/-- A sync of an enabled counter that is not about to wrap. -/
theorem sync_spec (hena : c.ccEna = true) (h : Billable c now) (hroom : c.cc + 2 ^ 32 < 2 ^ 64) :
    (c.sync now).wallRemainder =
      (c.billed now * c.cyclesPerTickQ32 + c.wallRemainder) % 2 ^ 32 ∧
    c.cc ≤ (c.sync now).cc ∧ (c.sync now).cc < c.cc + 2 ^ 32 ∧
    (c.sync now).cc + c.borrow = c.cc + (c.sync now).borrow +
      (c.billed now * c.cyclesPerTickQ32 + c.wallRemainder) / 2 ^ 32 ∧
    (c.sync now).cc = c.cc + (c.billed now * c.cyclesPerTickQ32 + c.wallRemainder) / 2 ^ 32 -
      (c.borrow - (c.sync now).borrow) ∧ (c.sync now).borrow ≤ c.borrow := by
  have h1 := h.prod
  have h2 := h.rem
  unfold sync
  rw [h.scaled_eq]
  dsimp only
  rw [if_pos hena]
  have hn : c.billed now * c.cyclesPerTickQ32 + c.wallRemainder < 2 ^ 64 := by omega
  generalize c.billed now * c.cyclesPerTickQ32 + c.wallRemainder = n at *
  dsimp only
  split <;> omega

@[simp] theorem sync_lastSync : (c.sync now).lastSync = c.billTo now := by
  unfold sync
  dsimp only
  split <;> rfl

/-- What a sync leaves as it was. -/
theorem sync_frame : (c.sync now).cyclesPerTickQ32 = c.cyclesPerTickQ32 ∧
    (c.sync now).tickHz = c.tickHz ∧ (c.sync now).ccEna = c.ccEna ∧
    (c.sync now).lastRead = c.lastRead ∧ (c.sync now).lag = c.lag ∧ (c.sync now).lim = c.lim := by
  unfold sync
  dsimp only
  split <;> exact ⟨rfl, rfl, rfl, rfl, rfl, rfl⟩

/-- The floor of a read of an enabled counter. -/
theorem floorRead_spec (hena : c.ccEna = true) (hread : c.lastRead ≤ c.cc)
    (hcc : c.cc + 1 < 2 ^ 64) (hborrow : c.borrow ≤ c.cc) :
    c.lastRead < c.floorRead.cc ∧ c.cc ≤ c.floorRead.cc ∧ c.floorRead.lastRead = c.floorRead.cc ∧
    c.floorRead.cc + c.borrow = c.cc + c.floorRead.borrow ∧
    c.floorRead.cc < 2 ^ 64 := by
  unfold floorRead
  by_cases h : c.cc ≤ c.lastRead
  · rw [if_pos ⟨hena, h⟩]
    dsimp only
    refine ⟨?_, ?_, ?_, ?_, ?_⟩ <;> omega
  · rw [if_neg (fun hc => h hc.2)]
    dsimp only
    refine ⟨?_, ?_, ?_, ?_, ?_⟩ <;> omega

theorem floorRead_frame : c.floorRead.cyclesPerTickQ32 = c.cyclesPerTickQ32 ∧
    c.floorRead.tickHz = c.tickHz ∧ c.floorRead.ccEna = c.ccEna ∧
    c.floorRead.wallRemainder = c.wallRemainder := by
  unfold floorRead
  dsimp only
  split <;> exact ⟨rfl, rfl, rfl, rfl⟩

end CycleCounter

/-! ## The account -/

namespace CcRun

open CycleCounter

variable {cpuHz : Nat} {s0 s : CcRun}

/-- The counter is more than a second's cycles away from wrapping (at 1 GHz, 584 years). -/
def Room (s : CcRun) (_ : CcOp) : Prop := s.counter.cc + 2 ^ 32 < 2 ^ 64

instance (s : CcRun) (op : CcOp) : Decidable (Room s op) := inferInstanceAs (Decidable (_ < _))

/-- The account of a run from `s0`. -/
structure Inv (cpuHz : Nat) (s0 s : CcRun) : Prop where
  speed : cpuHz < 2 ^ 32
  tickHz : 0 < s.counter.tickHz
  cycles : s.counter.cyclesPerTickQ32 = cyclesPerTick cpuHz s.counter.tickHz
  ena : s.counter.ccEna = true
  rem : s.counter.wallRemainder = s.billedQ32 % 2 ^ 32
  cc : s.counter.cc = s0.counter.cc + s.billedQ32 / 2 ^ 32 + s.counter.borrow
  lt : s.counter.cc < 2 ^ 64
  lastRead : s.counter.lastRead ≤ s.counter.cc
  reads : s.reads.Pairwise (· > ·)
  last : ∀ n ∈ s.reads, n ≤ s.counter.lastRead

theorem Start.inv (h : Start cpuHz s0) : Inv cpuHz s0 s0 where
  speed := h.speed
  tickHz := h.tickHz
  cycles := h.cycles
  ena := h.ena
  rem := by rw [h.remainder, h.billed, Nat.zero_mod]
  cc := by rw [h.billed, h.borrow]; rfl
  lt := h.cc
  lastRead := h.lastRead
  reads := by rw [h.reads]; exact .nil
  last := by rw [h.reads]; exact fun _ hn => absurd hn List.not_mem_nil

theorem Inv.billable (h : Inv cpuHz s0 s) (now : Nat) : Billable s.counter now where
  prod := le_trans (Nat.mul_le_mul_right _ billed_le) (second_lt h.speed h.tickHz h.cycles)
  rem := by rw [h.rem]; exact Nat.mod_lt _ (by decide)

/-- What a sync does to the account. -/
theorem Inv.sync (h : Inv cpuHz s0 s) (hroom : s.counter.cc + 2 ^ 32 < 2 ^ 64) (now : Nat) :
    Inv cpuHz s0 { s with counter := s.counter.sync now, billedQ32 := s.bill now } ∧
      s.counter.cc ≤ (s.counter.sync now).cc ∧ (s.counter.sync now).cc + 1 < 2 ^ 64 := by
  obtain ⟨hr, hle, hlt, hcons, -, -⟩ := sync_spec h.ena (h.billable now) hroom
  obtain ⟨f1, f2, f3, f4, -, -⟩ := @sync_frame s.counter now
  have hcc := h.cc
  have hread := h.lastRead
  have hrem := h.rem
  refine ⟨⟨h.speed, ?_, ?_, ?_, ?_, ?_, ?_, ?_, h.reads, ?_⟩, hle, by omega⟩
  · exact f2 ▸ h.tickHz
  · dsimp only
    rw [f1, f2, h.cycles]
  · exact f3.trans h.ena
  · dsimp only
    rw [hr, bill, hrem]
    omega
  · dsimp only
    rw [bill]
    rw [hrem] at hcons
    omega
  · dsimp only
    omega
  · dsimp only
    omega
  · dsimp only
    rw [f4]
    exact h.last

theorem Inv.kept (h : Inv cpuHz s0 s) (op : CcOp) (hroom : Room s op) :
    Inv cpuHz s0 (s.step op) ∧ s.counter.cc ≤ (s.step op).counter.cc := by
  cases op with
  | sync now =>
    obtain ⟨hi, hle, -⟩ := h.sync hroom now
    exact ⟨hi, hle⟩
  | bound lag lim => exact ⟨⟨h.speed, h.tickHz, h.cycles, h.ena, h.rem, h.cc, h.lt, h.lastRead,
      h.reads, h.last⟩, le_refl _⟩
  | read now =>
    obtain ⟨hi, hle, hroom1⟩ := h.sync hroom now
    have hcc := hi.cc
    have hread := hi.lastRead
    dsimp only at hcc hread
    have hborrow : (s.counter.sync now).borrow ≤ (s.counter.sync now).cc := by omega
    obtain ⟨hgt, hle2, hlast, hcons, hlt⟩ := floorRead_spec hi.ena hread hroom1 hborrow
    obtain ⟨f1, f2, f3, f4⟩ := floorRead_frame (c := s.counter.sync now)
    have hmem := hi.last
    dsimp only at hmem hgt hle2 hlast hcons hlt
    refine ⟨⟨hi.speed, ?_, ?_, f3.trans hi.ena, f4.trans hi.rem, ?_, hlt, ?_, ?_, ?_⟩,
      le_trans hle hle2⟩
    · exact f2 ▸ hi.tickHz
    · exact f1.trans (hi.cycles.trans (by rw [← f2]; rfl))
    · simp only [CcRun.step, rpccRead]
      omega
    · exact hlast.le
    · refine List.Pairwise.cons (fun n hn => ?_) h.reads
      have := hmem n hn
      exact lt_of_le_of_lt this hgt
    · intro n hn
      obtain rfl | hn := List.mem_cons.1 hn
      · exact hlast.ge
      · have := hmem n hn
        exact le_trans this (le_trans hgt.le hlast.ge)

theorem Inv.reach (h0 : Start cpuHz s0) (h : Lib.Reach (· = s0) Room step s) : Inv cpuHz s0 s := by
  refine Lib.Reach.inv ?_ (fun s op hs hok => (hs.kept op hok).1) h
  rintro s rfl
  exact h0.inv

/-- Until the counter comes within a second's cycles of `2 ^ 64`, whatever the host's clock and the
bound do: it never decreases, every read leaves it strictly larger than the read before, a sync
bills a second at most and nothing wraps, and the counter less what reads were lent is where it
started with the whole cycles billed. -/
theorem rpcc_account (h0 : Start cpuHz s0) (h : Lib.Reach (· = s0) Room step s) :
    (s.counter.cc : Int) - s.counter.borrow = s0.counter.cc + (s.billedQ32 / 2 ^ 32 : Nat) ∧
    s.reads.Pairwise (· > ·) ∧
    (∀ op, Room s op → s.counter.cc ≤ (s.step op).counter.cc) ∧
    ∀ now, s.counter.billed now ≤ s.counter.tickHz ∧
      s.counter.billed now * s.counter.cyclesPerTickQ32 + s.counter.wallRemainder < 2 ^ 64 := by
  have hi := Inv.reach h0 h
  refine ⟨?_, hi.reads, fun op hok => (hi.kept op hok).2, fun now => ⟨billed_le, ?_⟩⟩
  · have hcc := hi.cc
    omega
  · have h1 := (hi.billable now).prod
    have h2 := (hi.billable now).rem
    omega

/-- A counter of 1 GHz after `init`, the host's ticks being nanoseconds. -/
def gigahertz : CcRun where
  counter := ⟨0, 2 ^ 32, 1000000000, 0, 0, 0, 0, unlimited, 0, true, 0⟩
  billedQ32 := 0
  reads := []

theorem gigahertz_start : Start 1000000000 gigahertz :=
  ⟨by decide, by decide, by decide, rfl, rfl, rfl, by decide, by decide, rfl, rfl⟩

/-- Two reads with the host's clock standing still. -/
theorem rpcc_account_still : (((gigahertz.step (.read 5)).step (.read 5)).counter.cc : Int) -
    ((gigahertz.step (.read 5)).step (.read 5)).counter.borrow =
      0 + (((gigahertz.step (.read 5)).step (.read 5)).billedQ32 / 2 ^ 32 : Nat) := by
  have h1 : Room gigahertz (.read 5) := by decide
  have h2 : Room (gigahertz.step (.read 5)) (.read 5) := by decide
  have hr : Lib.Reach (· = gigahertz) Room step gigahertz := .start rfl
  exact (rpcc_account gigahertz_start ((hr.next h1).next h2)).1

/-- The 1 GHz counter at `cc`, its host clock back at 0. -/
def gigahertzAt (cc b : Nat) : CcRun :=
  ⟨⟨0, 2 ^ 32, 1000000000, 0, 0, 0, 0, unlimited, cc, true, 0⟩, b, []⟩

/-- A second, and the clock back. -/
theorem gigahertzAt_second (cc b : Nat) :
    ((gigahertzAt cc b).step (.sync 1000000000)).step (.sync 0) =
      gigahertzAt ((cc + 1000000000) % 2 ^ 64) (b + 1000000000 * 2 ^ 32) := by
  simp only [gigahertzAt, step, bill, CycleCounter.sync, CycleCounter.billed, billTo, billFrom, billable, scaled,
    unlimited]
  norm_num

theorem exists_seconds (k : Nat) : ∃ b, Lib.Reach (· = gigahertz) (fun _ _ => True) step
    (gigahertzAt (k * 1000000000 % 2 ^ 64) b) := by
  induction k with
  | zero => exact ⟨0, .start rfl⟩
  | succ k ih =>
    obtain ⟨b, hb⟩ := ih
    have hn := (hb.next (a := .sync 1000000000) trivial).next (a := .sync 0) trivial
    rw [gigahertzAt_second, Nat.mod_add_mod, ← Nat.succ_mul] at hn
    exact ⟨_, hn⟩

/-- With a clock that keeps going back a second the counter wraps after `2 ^ 64` cycles: 584 years at
1 GHz. -/
theorem rpcc_wraps : ¬∀ s, Lib.Reach (· = gigahertz) (fun _ _ => True) step s →
    ∀ op, s.counter.cc ≤ (s.step op).counter.cc := by
  intro hall
  obtain ⟨b, hb⟩ := exists_seconds 18446744073
  have h1 := hall _ hb (.sync 1000000000)
  have h2 := hall _ (hb.next (a := .sync 1000000000) trivial) (.sync 0)
  have h3 := le_trans h1 h2
  rw [gigahertzAt_second] at h3
  simp [gigahertzAt] at h3

end CcRun

/-! ## The bound -/

namespace CcTickRun

open TickSchedule CycleCounter

variable {p : Nat} {s : CcTickRun}

/-- From the tick before, `old`, to the one after it, `new`: the counter has moved by the distance of
their due instants to a quarter period, so by 3/4 to 5/4 of that distance unless the phase has made
it less than a period. -/
def Moved (p : Nat) (new old : Int × Int) : Prop :=
  4 * |(new.2 - old.2) - (new.1 - old.1)| ≤ p ∧
  (p ≤ new.1 - old.1 → 3 * (new.1 - old.1) ≤ 4 * (new.2 - old.2) ∧
    4 * (new.2 - old.2) ≤ 5 * (new.1 - old.1))

/-- The counter between two ticks. -/
structure Inv (p : Nat) (s : CcTickRun) : Prop where
  clock : 0 ≤ s.now
  next : 0 ≤ s.sched.next
  dropped : s.sched.dropped = 0
  tickHz : s.counter.tickHz = 1000000000
  past : (s.counter.lastSync : Int) ≤ s.now
  limit : (s.counter.lastSync : Int) ≤ s.sched.next + (p / 4 : Nat)
  /-- The bound the last tick has set. -/
  bound : ∀ e l, s.log = e :: l → 0 ≤ e.1 ∧ e.1 ≤ s.sched.next ∧ e.1 + s.counter.lag ≤ s.now ∧
    (s.counter.lim : Int) = s.sched.next + (p / 4 : Nat)
  read : ∀ e ∈ s.log, e.1 ≤ e.2 ∧ e.2 ≤ e.1 + (p / 4 : Nat)
  moved : s.log.IsChain (Moved p)

/-- Where a sync that the bound allows leaves the counter. -/
theorem billTo_eq {c : CycleCounter} {now lag lim : Nat} (hlag : lag ≤ now) (h1 : c.lag = lag)
    (h2 : c.lim = lim) (hpast : c.lastSync ≤ now) :
    c.billTo now = max c.lastSync (min (now - lag) lim) := by
  subst h1 h2
  unfold billTo billFrom billable
  dsimp only
  rw [if_pos hlag, if_neg (Nat.not_lt.2 hpast)]
  split <;> split <;> omega

theorem Inv.sync (h : Inv p s) {now : Int} (hok : Ok p s (.sync now)) :
    Inv p (s.step p (.sync now)) := by
  obtain ⟨hnow, hne⟩ := hok
  obtain ⟨e, l, hl⟩ := List.exists_cons_of_ne_nil hne
  obtain ⟨he0, he1, hlag, hlim⟩ := h.bound e l hl
  obtain ⟨-, f2, -, -, f5, f6⟩ := @sync_frame s.counter now.toNat
  have hpast := h.past
  have hlimit := h.limit
  have hclock := h.clock
  have hto := @billTo_eq s.counter now.toNat _ _ (by omega) rfl rfl (by omega)
  refine ⟨?_, h.next, h.dropped, f2.trans h.tickHz, ?_, ?_, ?_, h.read, h.moved⟩
  · exact le_trans hclock hnow
  · simp only [step, sync_lastSync, hto]
    omega
  · simp only [step, sync_lastSync, hto]
    omega
  · intro e' l' hl'
    obtain ⟨h1, h2, h3, h4⟩ := h.bound e' l' hl'
    simp only [step, f5, f6]
    exact ⟨h1, h2, by omega, h4⟩

/-- The bound a tick sets when no backlog is dropped. -/
theorem setBound_spec (hp : p ≠ 0) {c : CycleCounter} {sched : TickSchedule} {now : Int}
    (hz : c.tickHz = 1000000000) (hnow : 0 ≤ now) (hnext : 0 ≤ sched.next)
    (hd : sched.dropped = 0) :
    ∃ c', c.setBound (ccBoundAfterTick sched now p false) now now.toNat = c' ∧
      c'.lastSync = c.lastSync ∧ c'.tickHz = 1000000000 ∧
      (c'.lag : Int) = max 0 (now - sched.firedDue - (p / 4 : Nat)) ∧
      (c'.lim : Int) = sched.next + (p / 4 : Nat) := by
  refine ⟨_, rfl, ?_⟩
  unfold CycleCounter.setBound ccBoundAfterTick
  simp only [if_neg hp, hz, hd, nsToHostTicks, if_true, Bool.true_eq_false, if_false, and_true,
    lt_irrefl]
  refine ⟨trivial, trivial, ?_, ?_⟩
  · split <;> omega
  · split <;> omega

/-- What the schedule does at a tick that drops nothing. -/
theorem fire_spec (hp : p ≠ 0) {sched : TickSchedule} {now phase : Int} (hdue : sched.due ≤ now)
    (hd : (sched.fire now p phase).dropped = 0) : sched.next ≤ now ∧
    (sched.fire now p phase).firedDue = sched.next ∧
    2 * sched.next + p < 2 * (sched.fire now p phase).next := by
  have hnext : sched.next ≤ now := by
    unfold TickSchedule.due at hdue
    dsimp only at hdue
    split at hdue <;> omega
  have hf := @fire_next sched now p phase
  rw [hd, add_zero] at hf
  obtain ⟨hlo, -, -⟩ := @phaseMove_spec p phase hp (sched.next + p)
  refine ⟨hnext, rfl, ?_⟩
  split at hf <;> omega

theorem moved_of {D D' P P' : Int} (h1 : D ≤ P) (h2 : P ≤ D + (p / 4 : Nat)) (h3 : D' ≤ P')
    (h4 : P' ≤ D' + (p / 4 : Nat)) : Moved p (D', P') (D, P) := by
  refine ⟨?_, fun hle => ?_⟩
  · have : |(P' - P) - (D' - D)| ≤ (p / 4 : Nat) := abs_le.2 ⟨by omega, by omega⟩
    dsimp only
    omega
  · dsimp only at hle ⊢
    constructor <;> omega

theorem Inv.tick (hp : p ≠ 0) (h : Inv p s) {now phase : Int} (hnow : s.now ≤ now)
    (hdue : s.sched.due ≤ now) (hd : (s.sched.fire now p phase).dropped = 0) :
    Inv p (s.tick (s.sched.fire now p phase) now p) := by
  obtain ⟨hle, hfired, hadv⟩ := fire_spec hp hdue hd
  have hclock := h.clock
  have hnext := h.next
  have hpast := h.past
  have hlimit := h.limit
  obtain ⟨c', hc, hsync, hz, hlag, hlim⟩ := @setBound_spec p hp s.counter
    (s.sched.fire now p phase) now h.tickHz (le_trans hclock hnow) (by omega) hd
  have hto := @billTo_eq c' now.toNat _ _ (by omega) rfl rfl (by omega)
  have hread : s.sched.next ≤ (c'.billTo now.toNat : Int) ∧
      (c'.billTo now.toNat : Int) ≤ s.sched.next + (p / 4 : Nat) := by
    rw [hto]
    omega
  unfold CcTickRun.tick
  rw [hc]
  simp only [sync_lastSync, hfired]
  refine ⟨le_trans hclock hnow, by dsimp only; omega, hd, hz, by dsimp only; omega,
    by dsimp only; omega, ?_, ?_, ?_⟩
  · intro e l hel
    obtain ⟨rfl, -⟩ := List.cons_eq_cons.1 hel
    dsimp only
    exact ⟨hnext, by omega, by omega, hlim⟩
  · intro e he
    obtain rfl | he := List.mem_cons.1 he
    · exact hread
    · exact h.read e he
  · cases hl : s.log with
    | nil => exact .singleton _
    | cons e l =>
      obtain ⟨h1, h2⟩ := h.read e (by rw [hl]; exact List.mem_cons_self)
      have hm := h.moved
      rw [hl] at hm
      exact List.isChain_cons_cons.2 ⟨moved_of h1 h2 hread.1 hread.2, hm⟩

theorem step_poll (hp : p ≠ 0) (now phase : Int) : s.step p (.poll now phase) =
    if s.sched.due ≤ now then s.tick (s.sched.fire now p phase) now p else { s with now := now } := by
  unfold step
  simp only [poll_eq hp]
  by_cases hdue : s.sched.due ≤ now
  · simp only [if_pos hdue]
  · simp only [if_neg hdue]

theorem Inv.kept (hp : p ≠ 0) (h : Inv p s) (op : CcTickOp) (hok : Ok p s op) :
    Inv p (s.step p op) := by
  cases op with
  | sync now => exact h.sync hok
  | poll now phase =>
    obtain ⟨hnow, hd⟩ := hok
    rw [poll_eq hp] at hd
    rw [step_poll hp]
    split
    · rename_i hdue
      rw [if_pos hdue] at hd
      exact h.tick hp hnow hdue hd
    · refine ⟨le_trans h.clock hnow, h.next, h.dropped, h.tickHz, le_trans h.past hnow, h.limit,
        fun e l hl => ?_, h.read, h.moved⟩
      obtain ⟨h1, h2, h3, h4⟩ := h.bound e l hl
      exact ⟨h1, h2, le_trans h3 hnow, h4⟩

theorem Start.inv (h : Start s) : Inv p s := by
  have hclock := h.clock
  have hlast := h.lastSync
  have hnext : s.sched.next = s.now := by rw [h.sched]; rfl
  refine ⟨hclock, by omega, by rw [h.sched]; rfl, h.tickHz, by omega, by omega, ?_, ?_, ?_⟩
  · intro e l hl
    rw [h.log] at hl
    cases hl
  · intro e he
    rw [h.log] at he
    cases he
  · rw [h.log]
    exact .nil

/-- In every run of a schedule with a period, whatever the lateness and the phases, as long as no
backlog is dropped: right after each tick the counter stands between its due instant and a quarter
period past it, it is never more than a quarter period past the next due instant, and from a tick to
the next it moves by the distance of their due instants to a quarter period. -/
theorem cc_keeps_to_timer (hp : p ≠ 0) (h : Lib.Reach Start (Ok p) (step p) s) :
    (s.counter.lastSync : Int) ≤ s.sched.next + (p / 4 : Nat) ∧
    (∀ e ∈ s.log, e.1 ≤ e.2 ∧ e.2 ≤ e.1 + (p / 4 : Nat)) ∧ s.log.IsChain (Moved p) := by
  have hi : Inv p s :=
    Lib.Reach.inv (P := Inv p) (fun _ hs => hs.inv) (fun _ op hs => hs.kept hp op) h
  exact ⟨hi.limit, hi.read, hi.moved⟩

/-- A processor of 1 GHz started at 0. -/
def started : CcTickRun :=
  ⟨TickSchedule.new.start 0, ⟨0, 2 ^ 32, 1000000000, 0, 0, 0, 0, unlimited, 0, true, 0⟩, 0, []⟩

theorem started_start : Start started := ⟨by decide, rfl, rfl, rfl, rfl⟩

/-- The first tick of an ES40 a quarter period late, its phase 476562 ns back; then the next tick,
60 us late. -/
def phased : CcTickRun :=
  (started.step TickRun.periodEs40 (.poll 244140 500000)).step TickRun.periodEs40 (.poll 560000 0)

theorem phased_reach : Lib.Reach Start (Ok TickRun.periodEs40) (step TickRun.periodEs40) phased := by
  have h0 : Lib.Reach Start (Ok TickRun.periodEs40) (step TickRun.periodEs40) started :=
    .start started_start
  have h1 : Ok TickRun.periodEs40 started (.poll 244140 500000) := ⟨by decide, by decide⟩
  have h2 : Ok TickRun.periodEs40 (started.step TickRun.periodEs40 (.poll 244140 500000))
    (.poll 560000 0) := ⟨by decide, by decide⟩
  exact (h0.next h1).next h2

theorem cc_keeps_to_timer_phased :
    phased.log.all (fun e => e.1 ≤ e.2 ∧ e.2 ≤ e.1 + (TickRun.periodEs40 / 4 : Nat)) = true :=
  List.all_eq_true.2 fun e he => decide_eq_true
    ((cc_keeps_to_timer (by decide : TickRun.periodEs40 ≠ 0) phased_reach).2.1 e he)

/-- When the phase brings the next due instant nearer than a period, a quarter period is more than a
quarter of the distance: the counter moves 315860 ns for 500000. -/
theorem cc_phased_less : ¬∀ s, Lib.Reach Start (Ok TickRun.periodEs40) (step TickRun.periodEs40) s →
    s.log.IsChain fun new old => 3 * (new.1 - old.1) ≤ 4 * (new.2 - old.2) ∧
      4 * (new.2 - old.2) ≤ 5 * (new.1 - old.1) := by
  intro hall
  have hlog : phased.log = [(500000, 560000), (0, 244140)] := by decide
  have h := hall phased phased_reach
  rw [hlog, List.isChain_cons_cons] at h
  exact absurd h.1 (by decide)

end CcTickRun

end Alphabox.Cpu
