import Alphabox.Cpu.TickSchedule
import Alphabox.Lib.Reach
import Mathlib.Algebra.Order.Ring.Abs
import Mathlib.Tactic.Linarith
import Mathlib.Tactic.Ring

/-!
# The interval timer's count and pacing

The count: with no phase the next tick is due a period after each tick and a backlog dropped is
reported, so the due instant is the start plus the ticks, the drops and the shifts; a phase moves it
by half a period at most, onto the phase; and a tick fires exactly from `due` on.

The pacing: a tick fired more than half a period late is spaced from when it fired. One fired less
late is spaced from its due instant, and relies on the next due instant being a period on: a phase
that moves that back can bring the two ticks together (`tick_spaced_iff`).
-/

namespace Alphabox.Cpu

namespace TickSchedule

variable {s : TickSchedule} {now : Int} {p unset : Nat} {phase : Int}

/-! ## One poll -/

/-- A poll fires exactly from `due` on, and else changes nothing. -/
theorem poll_eq (hp : p ≠ 0) : s.poll now p unset phase =
    if s.due ≤ now then (s.fire now p phase, true) else (s, false) := by
  unfold poll due
  dsimp only
  by_cases h1 : now < s.next
  · rw [if_pos h1, if_neg]
    split <;> omega
  · rw [if_neg h1, if_neg hp]
    by_cases h2 : now - s.last < s.gapNs
    · rw [if_pos h2, if_neg]
      split <;> omega
    · rw [if_neg h2, if_pos]
      split <;> omega

theorem half_le_nextGap : p / 2 ≤ s.nextGap p := by
  unfold nextGap
  dsimp only
  omega

/-- The gap is less than a period. -/
theorem nextGap_le : s.nextGap p ≤ p := by
  unfold nextGap
  dsimp only
  generalize hph : (s.idx + 1).toNat % 277 = ph
  have hnoise : ((s.nextLcg >>> 24) &&& 0x3f).toNat ≤ 63 := by
    rw [BitVec.toNat_and]
    exact Nat.and_le_right
  generalize ((s.nextLcg >>> 24) &&& 0x3f).toNat = noise at hnoise ⊢
  have htri : (if ph ≤ 138 then ph else 277 - ph) ≤ 138 := by
    split <;> omega
  generalize (if ph ≤ 138 then ph else 277 - ph) = tri at htri ⊢
  have h1 : p * tri ≤ p * 138 := Nat.mul_le_mul_left p htri
  have h2 : p * noise ≤ p * 63 := Nat.mul_le_mul_left p hnoise
  omega

/-- The phase's instant is at most half a period away, and on the phase. -/
theorem phaseMove_spec (hp : p ≠ 0) (t : Int) :
    -(p : Int) < 2 * phaseMove t p phase ∧ 2 * phaseMove t p phase ≤ p ∧
      (p : Int) ∣ phase - (t + phaseMove t p phase) := by
  have hpos : (0 : Int) < p := by omega
  have hlt := Int.tmod_lt_of_pos (phase - t) hpos
  have hgt : -(p : Int) < (phase - t).tmod p := by
    have := Int.lt_tmod_of_pos (phase - t) hpos
    omega
  have hdvd : (p : Int) ∣ phase - t - (phase - t).tmod p := Int.dvd_self_sub_tmod
  unfold phaseMove
  dsimp only
  generalize (phase - t).tmod (p : Int) = r at hlt hgt hdvd ⊢
  obtain ⟨c, hc⟩ := hdvd
  split
  · split
    · refine ⟨by omega, by omega, c, ?_⟩
      linarith
    · refine ⟨by omega, by omega, c - 1, ?_⟩
      rw [mul_sub, mul_one]
      linarith
  · split
    · refine ⟨by omega, by omega, c + 1, ?_⟩
      rw [mul_add, mul_one]
      linarith
    · refine ⟨by omega, by omega, c, ?_⟩
      linarith

/-- Where a tick leaves the next due instant: a period on, past a backlog over a second, which it
reports, and on the phase. -/
theorem fire_next : (s.fire now p phase).next =
    s.next + p + (s.fire now p phase).dropped +
      (if phase ≠ 0 then phaseMove (s.next + p + (s.fire now p phase).dropped) p phase else 0) := by
  unfold fire nearest
  dsimp only
  by_cases hd : now - (s.next + p) > second
  · have hnow : s.next + (p : Int) + (now - (s.next + p)) = now := by omega
    rw [if_pos hd, if_pos hd, hnow]
    split <;> simp
  · rw [if_neg hd, if_neg hd, add_zero]
    split <;> simp

theorem fire_dropped : (s.fire now p phase).dropped = 0 ∨ second < (s.fire now p phase).dropped := by
  unfold fire
  dsimp only
  split
  · rename_i hd
    exact .inr hd
  · exact .inl rfl

/-- What a poll with a period does to the count. -/
structure PollCounts (s : TickSchedule) (now : Int) (p : Nat) (phase : Int) : Prop where
  /-- It fires exactly from `due` on. -/
  fires : ∀ unset, (s.poll now p unset phase).2 = true ↔ s.due ≤ now
  /-- A backlog reported is over a second. -/
  drops : s.due ≤ now → (s.fire now p phase).dropped = 0 ∨ second < (s.fire now p phase).dropped
  /-- With a phase the next tick is on it, moved by half a period at most. -/
  phased : s.due ≤ now → phase ≠ 0 →
    (p : Int) ∣ phase - (s.fire now p phase).next ∧
      2 * |(s.fire now p phase).next - (s.next + p + (s.fire now p phase).dropped)| ≤ p

theorem poll_counts (hp : p ≠ 0) : PollCounts s now p phase where
  fires unset := by
    rw [poll_eq hp]
    split
    · rename_i h
      simp [h]
    · rename_i h
      simp [h]
  drops _ := fire_dropped
  phased _ hne := by
    rw [fire_next, if_pos hne]
    generalize s.next + (p : Int) + (s.fire now p phase).dropped = t
    obtain ⟨hlo, hhi, hdvd⟩ := @phaseMove_spec p phase hp t
    refine ⟨hdvd, ?_⟩
    rw [add_sub_cancel_left]
    have := abs_le.mpr (show -(p : Int) ≤ 2 * phaseMove t p phase ∧ 2 * phaseMove t p phase ≤ p from
      ⟨hlo.le, hhi⟩)
    rwa [abs_mul, abs_two] at this

end TickSchedule

namespace TickRun

open TickSchedule

variable {p : Nat} {s : TickRun}

/-! ## The count -/

/-- The due instant is the start, the ticks, the drops and the shifts. -/
structure CountInv (p : Nat) (s : TickRun) : Prop where
  next : s.sched.next = s.t0 + s.ticks * p + s.drops + s.shifts
  fired : s.sched.fired = BitVec.ofNat 32 s.ticks

theorem countInv_begin (t0 : Int) : CountInv p (begin t0) := by
  refine ⟨?_, rfl⟩
  simp [begin, TickSchedule.start]

theorem step_poll (hp : p ≠ 0) (now : Int) (unset : Nat) (phase : Int) :
    s.step p (.poll now unset phase) =
      if s.sched.due ≤ now then
        { s with
          sched := s.sched.fire now p phase
          now := now
          ticks := s.ticks + 1
          drops := s.drops + (s.sched.fire now p phase).dropped }
      else { s with now := now } := by
  simp only [step, poll_eq hp]
  by_cases h : s.sched.due ≤ now
  · simp only [if_pos h]
  · simp only [if_neg h]

theorem countInv_step (hp : p ≠ 0) (op : TickOp) (h : CountInv p s) (hok : s.Unphased op) :
    CountInv p (s.step p op) := by
  cases op with
  | shift d =>
    refine ⟨?_, h.fired⟩
    have hn := h.next
    simp only [step, TickSchedule.shift]
    omega
  | poll now unset phase =>
    obtain ⟨-, rfl⟩ := hok
    rw [step_poll hp]
    split
    · refine ⟨?_, ?_⟩
      · dsimp only
        rw [fire_next, if_neg (by simp), h.next]
        push_cast
        ring
      · show s.sched.fired + 1 = BitVec.ofNat 32 (s.ticks + 1)
        rw [h.fired, BitVec.ofNat_add]
        rfl
    · exact ⟨h.next, h.fired⟩

theorem countInv_reach (hp : p ≠ 0) {t0 : Int} (h : Lib.Reach (· = begin t0) Unphased (step p) s) :
    CountInv p s ∧ s.t0 = t0 := by
  refine Lib.Reach.inv (P := fun s => CountInv p s ∧ s.t0 = t0) ?_ ?_ h
  · rintro s rfl
    exact ⟨countInv_begin t0, rfl⟩
  · rintro s op ⟨hc, ht⟩ hok
    refine ⟨countInv_step hp op hc hok, ?_⟩
    cases op with
    | shift d => exact ht
    | poll now unset phase =>
      rw [step_poll hp]
      split <;> exact ht

theorem unphased_forward (s : TickRun) (op : TickOp) (h : s.Unphased op) : s.Forward op := by
  cases op with
  | poll now unset phase => exact h.1
  | shift d => trivial

/-- From a start, with a period and no phase, the due instant counts the ticks fired (`fired` being
their number in 32 bits), the backlogs reported dropped and the shifts. In every run each poll fires
exactly from `due` on, reports no drop of a second or less, and with a phase leaves the next tick on
it, moved by half a period at most. -/
theorem tick_count (hp : p ≠ 0) (t0 : Int) :
    (∀ s, Lib.Reach (· = begin t0) Unphased (step p) s →
      s.sched.next = t0 + s.ticks * p + s.drops + s.shifts ∧
        s.sched.fired = BitVec.ofNat 32 s.ticks) ∧
      ∀ s, Lib.Reach (· = begin t0) Forward (step p) s →
        ∀ now phase, s.now ≤ now → PollCounts s.sched now p phase := by
  refine ⟨fun s h => ?_, fun s _ now phase _ => poll_counts hp⟩
  obtain ⟨hc, rfl⟩ := countInv_reach hp h
  exact ⟨hc.next, hc.fired⟩

/-- The ES40's period: 1024 Hz. -/
def periodEs40 : Nat := 976562

/-- Two ticks on time, one after two and a half seconds without a poll, and a shift. -/
def polledLate : List TickOp :=
  [.poll 0 0 0, .poll 976562 0 0, .poll 2500000000 0 0, .shift 500]

theorem polledLate_allowed : Lib.Allowed Unphased (step periodEs40) (begin 0) polledLate :=
  ⟨⟨by decide, rfl⟩, ⟨by decide, rfl⟩, ⟨by decide, rfl⟩, trivial, trivial⟩

/-- On an ES40 the late poll reports the backlog dropped, and the count has it and the shift; the
next tick, on a phase of a microsecond, is counted from there. -/
theorem tick_count_es40 :
    let s := polledLate.foldl (step periodEs40) (begin 0)
    (s.ticks = 3 ∧ s.drops = 2497070314 ∧ s.shifts = 500 ∧
      s.sched.next = 0 + (3 : Nat) * periodEs40 + 2497070314 + 500 ∧ s.sched.fired = 3) ∧
      s.sched.due ≤ 2501000000 ∧ PollCounts s.sched 2501000000 periodEs40 1000 ∧
      (s.sched.fire 2501000000 periodEs40 1000).next = 1000 + 2561 * periodEs40 := by
  have hp : periodEs40 ≠ 0 := by decide
  have hstart : Lib.Reach (· = begin 0) Unphased (step periodEs40) (begin 0) := .start rfl
  have hcount := (tick_count hp 0).1 _ (hstart.run polledLate polledLate_allowed)
  have hstart' : Lib.Reach (· = begin 0) Forward (step periodEs40) (begin 0) := .start rfl
  have hforward := hstart'.run polledLate (polledLate_allowed.mono unphased_forward)
  exact ⟨⟨rfl, by decide, rfl, hcount⟩, by decide,
    (tick_count hp 0).2 _ hforward 2501000000 1000 (by decide), by decide⟩

/-- A schedule whose ticks are all on time. -/
structure OnTime (p : Nat) (t0 : Int) (k : Nat) (s : TickRun) : Prop where
  reach : Lib.Reach (· = begin t0) Unphased (step p) s
  next : s.sched.next = t0 + k * p
  due : s.sched.due = s.sched.next
  now : s.now ≤ s.sched.next
  ticks : s.ticks = k
  drops : s.drops = 0
  shifts : s.shifts = 0

/-- A tick on time leaves the next one due a period on. -/
theorem OnTime.tick (hp : p ≠ 0) {t0 : Int} {k : Nat} (h : OnTime p t0 k s) :
    OnTime p t0 (k + 1) (s.step p (.poll s.sched.next 0 0)) := by
  have hgap : s.sched.nextGap p ≤ p := nextGap_le
  have hearly : ¬s.sched.next - (s.sched.next + (p : Int)) > second := by
    unfold second
    omega
  have hbehind : ¬s.sched.next - (s.sched.next + (p : Int)) > 32 * p := by omega
  have hlast : s.sched.next - s.sched.next ≤ (p / 2 : Nat) := by omega
  have hstep := step_poll (s := s) hp s.sched.next 0 0
  rw [if_pos h.due.le] at hstep
  have hok : s.Unphased (.poll s.sched.next 0 0) := ⟨h.now, rfl⟩
  have hreach := h.reach.next hok
  rw [hstep] at hreach ⊢
  have hfire : s.sched.fire s.sched.next p 0 =
      { next := s.sched.next + p, last := s.sched.next, firedDue := s.sched.next, dropped := 0,
        gapNs := s.sched.nextGap p, lcg := s.sched.nextLcg, idx := s.sched.idx + 1,
        fired := s.sched.fired + 1 } := by
    simp only [fire, if_neg hearly, if_neg hbehind, if_pos hlast, ne_eq, not_true_eq_false, if_false]
  rw [hfire] at hreach ⊢
  exact {
    reach := hreach
    next := by
      dsimp only
      rw [h.next]
      push_cast
      ring
    due := by
      unfold TickSchedule.due
      dsimp only
      rw [if_neg (by omega)]
    now := by
      dsimp only
      omega
    ticks := by
      dsimp only
      rw [h.ticks]
    drops := by
      dsimp only
      rw [h.drops]
      rfl
    shifts := h.shifts }

theorem exists_onTime (hp : p ≠ 0) (t0 : Int) (k : Nat) : ∃ s, OnTime p t0 k s := by
  induction k with
  | zero =>
    refine ⟨begin t0, .start rfl, ?_, ?_, le_rfl, rfl, rfl, rfl⟩
    · simp [begin, TickSchedule.start]
    · simp [begin, TickSchedule.start, TickSchedule.due]
  | succ k ih =>
    obtain ⟨s, hs⟩ := ih
    exact ⟨_, hs.tick hp⟩

/-- After `2 ^ 32` ticks (48 days at 1024 Hz) `fired` is 0 again. -/
theorem tick_count_wraps : ¬∀ s, Lib.Reach (· = begin 0) Unphased (step periodEs40) s →
    s.sched.next = 0 + s.sched.fired.toNat * periodEs40 + s.drops + s.shifts := by
  intro hall
  have hp : periodEs40 ≠ 0 := by decide
  obtain ⟨s, hs⟩ := exists_onTime hp 0 (2 ^ 32)
  have hfired := (countInv_reach hp hs.reach).1.fired
  have hzero : s.sched.fired.toNat = 0 := by
    rw [hfired, hs.ticks]
    rfl
  have hnext := hall s hs.reach
  rw [hzero, hs.drops, hs.shifts, hs.next] at hnext
  simp [periodEs40] at hnext

end TickRun

/-! ## The pacing -/

namespace TickSchedule

variable {s : TickSchedule} {now : Int} {p : Nat} {phase : Int}

/-- A poll without a tick changes nothing, so a run of them does not. -/
def Quiet (p : Nat) (s : TickSchedule) : Int → List (Int × Nat × Int) → Prop
  | _, [] => True
  | now, (t, unset, phase) :: l => now ≤ t ∧ s.poll t p unset phase = (s, false) ∧ Quiet p s t l

/-- The time of the last poll. -/
def lastPoll (now : Int) (l : List (Int × Nat × Int)) : Int := l.foldl (fun _ q => q.1) now

/-- The spacing after a tick: half a period, an eighth of that when the schedule was more than 32
periods behind. -/
def spacing (s : TickSchedule) (now : Int) (p : Nat) : Int :=
  if now - (s.next + p) ≤ 32 * p then (p / 2 : Nat) else (p / 2 / 8 : Nat)

/-- Whatever polls follow the tick at `now`, the next tick is spaced from it. -/
def NextSpaced (s : TickSchedule) (now : Int) (p : Nat) (phase : Int) : Prop :=
  ∀ l, Quiet p (s.fire now p phase) now l → ∀ t unset phase', lastPoll now l ≤ t →
    ((s.fire now p phase).poll t p unset phase').2 = true → s.spacing now p ≤ t - now

/-- The tick was over half a period late, or half a period after it is still within its gap, or not
past the next due instant, which the phase may have moved. -/
def KeepsApart (s : TickSchedule) (now : Int) (p : Nat) (phase : Int) : Prop :=
  now - s.next ≤ (p / 2 : Nat) →
    now - s.next + (p / 2 : Nat) ≤ s.nextGap p ∨
    now - s.next + (p / 2 : Nat) ≤ p + (if phase ≠ 0 then phaseMove (s.next + p) p phase else 0)

/-- The next tick is spaced exactly when the schedule is not due before. -/
theorem nextSpaced_iff (hp : p ≠ 0) (hpos : 0 < s.spacing now p) :
    s.NextSpaced now p phase ↔ now + s.spacing now p ≤ (s.fire now p phase).due := by
  constructor
  · intro h
    have hmax := h [] trivial (max now (s.fire now p phase).due) 0 0 (le_max_left _ _)
    rw [poll_eq hp, if_pos (le_max_right _ _)] at hmax
    have hle := hmax rfl
    omega
  · intro hdue l hl t unset phase' ht hfires
    rw [poll_eq hp] at hfires
    split at hfires
    · rename_i hd
      omega
    · cases hfires

/-- After a tick at `now` the schedule is due a spacing later, unless the tick was less than half a
period late and neither the gap nor the next due instant is that far. -/
theorem fire_due_iff (hp : 16 ≤ p) (hdue : s.due ≤ now) :
    now + s.spacing now p ≤ (s.fire now p phase).due ↔ s.KeepsApart now p phase := by
  have hgap : p / 2 ≤ s.nextGap p := half_le_nextGap
  have hnext : s.next ≤ now := by
    unfold due at hdue
    dsimp only at hdue
    split at hdue <;> omega
  have hlate : ((p / 2 : Nat) : Int) ≤ (p : Int) := by omega
  by_cases hl : now - s.next ≤ (p / 2 : Nat)
  · -- spaced from its due instant
    have hstarved : now - (s.next + p) ≤ 32 * p := by omega
    have hnodrop : ¬now - (s.next + p) > second := by
      unfold second
      omega
    have hfire : (s.fire now p phase).due =
        max (s.next + s.nextGap p)
          (s.next + p + (if phase ≠ 0 then phaseMove (s.next + p) p phase else 0)) := by
      unfold due fire nearest
      simp only [if_neg hnodrop, if_pos hl, if_neg (by omega : ¬now - (s.next + p) > 32 * (p : Int))]
      split <;> split <;> omega
    unfold KeepsApart spacing
    rw [hfire, if_pos hstarved]
    generalize (if phase ≠ 0 then phaseMove (s.next + p) p phase else 0) = r
    constructor
    · intro h _
      omega
    · intro h
      have := h hl
      omega
  · -- spaced from when it fired
    refine ⟨fun _ h => absurd h hl, fun _ => ?_⟩
    have hlast : (s.fire now p phase).last = now := if_neg hl
    have hge : now + (s.fire now p phase).gapNs ≤ (s.fire now p phase).due := by
      unfold due
      dsimp only
      rw [hlast]
      split <;> omega
    refine le_trans ?_ hge
    unfold spacing fire
    dsimp only
    split
    · rw [if_neg (by omega)]
      omega
    · rw [if_pos (by omega)]
      omega

theorem spacing_pos (hp : 16 ≤ p) : 0 < s.spacing now p := by
  unfold spacing
  split <;> omega

/-- A tick is followed by the next at a distance, whatever polls come, exactly when it keeps the two
apart. -/
theorem tick_spaced_iff (hp : 16 ≤ p) (hfires : s.due ≤ now) :
    s.NextSpaced now p phase ↔ s.KeepsApart now p phase :=
  (nextSpaced_iff (by omega) (spacing_pos hp)).trans (fire_due_iff hp hfires)

/-- The first tick of processor 0, a microsecond late. -/
theorem tick_spaced_first : (new.start 0).NextSpaced 1000 976562 0 :=
  (tick_spaced_iff (by decide) (by decide)).mpr fun _ => .inr (by decide)

/-- A tick half a period late, with a phase that moves the next one back to it: the two are 4 us
apart. -/
theorem tick_not_spaced : ¬∀ t0 s, Lib.Reach (· = TickRun.begin t0) TickRun.Forward
    (TickRun.step 976562) s → ∀ now phase, s.now ≤ now → s.sched.due ≤ now →
      s.sched.NextSpaced now 976562 phase := by
  intro hall
  have hspaced := hall 0 (TickRun.begin 0) (.start rfl) 488281 488282 (by decide) (by decide)
  have hle := hspaced [] trivial 492629 0 0 (by decide) (by decide)
  exact absurd hle (by decide)

end TickSchedule

end Alphabox.Cpu
