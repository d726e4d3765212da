import Mathlib.Data.Nat.ModEq
import Mathlib.Tactic.NormNum.GCD
import Alphabox.Lib.Reach
import Alphabox.Isa.Proof.PitClock

/-!
# A suspended counter's place

`frozen` writes a running counter's place into its words, `phase` reads it back: the same place but
for one, the largest count of mode 0 with no clock gone (`frozen_keeps`). A resume turns the place
into nanoseconds and these into clocks again, each rounded down, which loses a clock at the instant
of the resume and none from the next nanosecond on (`clocks_resumed`). `PlaceInv` carries this
through every run of the timer.
-/

namespace Alphabox.Isa

open PitCounter

variable {n m x k t t' now clocks count : Nat} {bcd : Bool} {c : PitCounter} {w : PitWords}
  {p : I8254} {i j : Fin 3}

/-! ## Clocks and nanoseconds -/

theorem clocksBetween_eq : clocksBetween t t' = (t' - t) * PIT_CLOCK_HZ / 1000000000 := by
  unfold clocksBetween PIT_CLOCK_HZ
  dsimp only
  split
  · rename_i h
    rw [Nat.sub_eq_zero_of_le h]
  · generalize t' - t = ns
    omega

theorem nsForClocks_eq : nsForClocks x = x * 1000000000 / PIT_CLOCK_HZ := by
  unfold nsForClocks PIT_CLOCK_HZ
  omega

theorem nsForClocks_mono (h : x ≤ k) : nsForClocks x ≤ nsForClocks k := by
  rw [nsForClocks_eq, nsForClocks_eq]
  exact Nat.div_le_div_right (Nat.mul_le_mul_right _ h)

theorem clocksBetween_mono (h : t' ≤ k) : clocksBetween t t' ≤ clocksBetween t k := by
  rw [clocksBetween_eq, clocksBetween_eq]
  exact Nat.div_le_div_right (Nat.mul_le_mul_right _ (Nat.sub_le_sub_right h _))

theorem sub64_eq (hle : x ≤ t) (ht : t < U64) : sub64 t x = t - x := by
  have hx : x % U64 = x := Nat.mod_eq_of_lt (Nat.lt_of_le_of_lt hle ht)
  rw [sub64, hx, show t + (U64 - x) = t - x + U64 by omega, Nat.add_mod_right,
    Nat.mod_eq_of_lt (by omega)]

/-- A place `x` resumed at `t`: from the next nanosecond on, the clocks since then and no fewer. -/
theorem clocks_resumed (hle : nsForClocks x ≤ t) (ht : t < U64) (hlt : t < t') :
    ∃ d, clocksBetween (sub64 t (nsForClocks x)) t' = x + d ∧ d ≤ clocksBetween t t' := by
  rw [sub64_eq hle ht, clocksBetween_eq, clocksBetween_eq]
  have hns : t' - (t - nsForClocks x) = nsForClocks x + (t' - t) := by omega
  rw [hns]
  have h1 : 1 ≤ t' - t := by omega
  generalize t' - t = e at h1
  rw [nsForClocks_eq]
  unfold PIT_CLOCK_HZ
  refine ⟨(x * 1000000000 / 1193182 + e) * 1193182 / 1000000000 - x, ?_, ?_⟩ <;> omega

/-- At the instant of the resume a clock is lost. -/
theorem clocks_at_resume (hx : 0 < x) (hx2 : x ≤ 0x20000) (hle : nsForClocks x ≤ t) (ht : t < U64) :
    clocksBetween (sub64 t (nsForClocks x)) t = x - 1 := by
  rw [sub64_eq hle ht, clocksBetween_eq]
  have hns : t - (t - nsForClocks x) = nsForClocks x := by omega
  rw [hns, nsForClocks_eq]
  unfold PIT_CLOCK_HZ
  have hdvd : ¬ 1193182 ∣ x * 1000000000 := by
    intro h
    have h2 : 596591 ∣ x * 1000000000 := Nat.dvd_trans (by norm_num) h
    have hc : Nat.Coprime 596591 1000000000 := by norm_num
    have h3 : 596591 ≤ x := Nat.le_of_dvd hx (hc.dvd_of_dvd_mul_right h2)
    exact absurd (Nat.le_trans h3 hx2) (by norm_num)
  omega

/-! ## Counting modulo the largest count -/

theorem largest_pos : 0 < largest bcd := by
  cases bcd <;> decide

theorem largest_le : largest bcd ≤ 0x10000 := by
  cases bcd <;> decide

theorem wrap_lt : wrap bcd count clocks < largest bcd := Nat.mod_lt _ largest_pos

/-- A count less some clocks gives the count back with them. -/
theorem wrap_add : wrap bcd count clocks + clocks ≡ count [MOD largest bcd] := by
  have hm := @largest_pos bcd
  have hlt := Nat.mod_lt clocks hm
  unfold wrap
  dsimp only
  generalize largest bcd = m at *
  have h1 : (count % m + m - clocks % m) % m + clocks ≡ count % m + m - clocks % m + clocks [MOD m] :=
    (Nat.mod_modEq _ _).add_right _
  have h2 : count % m + m - clocks % m + clocks = count % m + m + m * (clocks / m) := by
    have := Nat.div_add_mod clocks m
    omega
  rw [h2] at h1
  refine h1.trans ?_
  have h3 : count % m + m + m * (clocks / m) ≡ count % m [MOD m] := by
    simp [Nat.ModEq, Nat.add_assoc, Nat.add_mod]
  exact h3.trans (Nat.mod_modEq _ _)

/-- The count that is `clocks` behind another modulo the largest. -/
theorem wrap_unique (hx : x < largest bcd) (h : x + clocks ≡ count [MOD largest bcd]) :
    wrap bcd count clocks = x :=
  Nat.ModEq.eq_of_lt_of_lt (Nat.ModEq.add_right_cancel' clocks (wrap_add.trans h.symm)) wrap_lt hx

theorem wrap_zero (h : clocks ≤ count) (hc : count - clocks < largest bcd) :
    wrap bcd count clocks = count - clocks :=
  wrap_unique hc (by rw [Nat.sub_add_cancel h])

/-! ## The place that a counter is frozen at -/

/-- A counter that counts down from `n` in mode 0, 2 or 3: loaded, its GATE high, nothing due to
take over at `now`. A mode 2 counter's OUT is high. -/
structure Counting (c : PitCounter) (now n : Nat) : Prop where
  settled : c.settle now = c
  mode : c.mode = 0 ∨ c.mode = 2 ∨ c.mode = 3
  loaded : c.null = false
  gate : c.gate = true
  initial : c.initial = n
  pos : 1 ≤ n
  le : n ≤ largest c.bcd
  high : c.mode = 2 → c.out = true

/-- The place is the clocks elapsed: modulo the period in modes 2 and 3; in mode 0 up to the terminal
count, and past it modulo the largest count. And OUT is what it was. -/
structure KeepsPlace (c : PitCounter) (now n : Nat) : Prop where
  out : (c.freeze now c.toPitWords).2.out = (c.outNow now).2
  periodic : c.mode ≠ 0 →
    (c.freeze now c.toPitWords).2.phase ≡ clocksBetween c.epoch now [MOD n]
  before : c.mode = 0 → clocksBetween c.epoch now < n →
    (c.freeze now c.toPitWords).2.phase = clocksBetween c.epoch now
  after : c.mode = 0 → n ≤ clocksBetween c.epoch now →
    n ≤ (c.freeze now c.toPitWords).2.phase ∧
    (c.freeze now c.toPitWords).2.phase ≡ clocksBetween c.epoch now [MOD largest c.bcd]

/-- The largest count of mode 0 is frozen as zero where no clock has gone. -/
def AtLargest (c : PitCounter) (now n : Nat) : Prop :=
  c.mode = 0 ∧ n = largest c.bcd ∧ clocksBetween c.epoch now = 0

/-- The place of a count held in mode 0. -/
theorem phase_mode0 (hm : w.mode = 0) (hnull : w.null = false) (hn : w.initial = n) (h1 : 1 ≤ n) :
    w.phase = if w.out = false then if w.counter ≤ n then n - w.counter else 0
      else n + wrap w.bcd 0 w.counter := by
  simp only [PitWords.phase, hm, hnull, hn, Bool.false_eq_true, false_or, if_true]
  rw [if_neg (by omega)]

theorem outNow_eq (h : Counting c now n) : (c.outNow now).2 =
    if c.mode = 0 then decide (n ≤ clocksBetween c.epoch now)
    else if c.mode = 3 then decide (clocksBetween c.epoch now % n * 2 < n) else true := by
  obtain ⟨hset, hmode, hnull, hgate, hn, h1, -, hhigh⟩ := h
  have hne : n ≠ 0 := by omega
  simp only [outNow, hset, hnull, hgate, hn, hne, Bool.false_eq_true, Bool.true_eq_false, if_false]
  obtain hm | hm | hm := hmode
  · simp [hm]
  · simp [hm, hhigh hm]
  · simp [hm]

theorem frozen_mode0 (h : Counting c now n) (hm : c.mode = 0) :
    (c.freeze now c.toPitWords).2 = { c.toPitWords with
      counter := wrap c.bcd n (clocksBetween c.epoch now)
      out := decide (n ≤ clocksBetween c.epoch now) } := by
  have hne : n ≠ 0 := Nat.ne_of_gt h.pos
  simp [freeze, frozen, h.settled, h.loaded, h.gate, h.initial, hne, hm]

theorem frozen_mode2 (h : Counting c now n) (hm : c.mode = 2) :
    (c.freeze now c.toPitWords).2 = { c.toPitWords with
      counter := n - clocksBetween c.epoch now % n
      out := true } := by
  have hne : n ≠ 0 := Nat.ne_of_gt h.pos
  simp [freeze, frozen, h.settled, h.loaded, h.gate, h.initial, hne, hm]

theorem frozen_mode3 (h : Counting c now n) (hm : c.mode = 3) :
    let k := clocksBetween c.epoch now % n
    let first := (n + 1) / 2
    (c.freeze now c.toPitWords).2 = { c.toPitWords with
      counter := n - 2 * (if k < first then k else k - first)
      out := decide (k < first) } := by
  have hne : n ≠ 0 := Nat.ne_of_gt h.pos
  simp [freeze, frozen, h.settled, h.loaded, h.gate, h.initial, hne, hm]

theorem keeps_mode2 (h : Counting c now n) (hm : c.mode = 2) : KeepsPlace c now n := by
  have hlt := Nat.mod_lt (clocksBetween c.epoch now) h.pos
  have hfro := frozen_mode2 h hm
  have hout := outNow_eq h
  have hne : n ≠ 0 := Nat.ne_of_gt h.pos
  have hphase : (c.freeze now c.toPitWords).2.phase = clocksBetween c.epoch now % n := by
    rw [hfro]
    generalize clocksBetween c.epoch now % n = k at hlt
    simp only [PitWords.phase, hm, h.loaded, h.initial, hne, Bool.false_eq_true, or_self, if_false,
      OfNat.ofNat_ne_zero, if_true]
    rw [if_pos (by omega)]
    omega
  refine ⟨?_, fun _ => ?_, fun h0 => ?_, fun h0 => ?_⟩
  · rw [hout, hfro]
    simp [hm]
  · rw [hphase]
    exact Nat.mod_modEq _ _
  · rw [hm] at h0
    cases h0
  · rw [hm] at h0
    cases h0

theorem keeps_mode3 (h : Counting c now n) (hm : c.mode = 3) : KeepsPlace c now n := by
  have hlt := Nat.mod_lt (clocksBetween c.epoch now) h.pos
  have hfro := frozen_mode3 h hm
  have hout := outNow_eq h
  have hne : n ≠ 0 := Nat.ne_of_gt h.pos
  dsimp only at hfro
  have hphase : (c.freeze now c.toPitWords).2.phase = clocksBetween c.epoch now % n := by
    rw [hfro]
    generalize clocksBetween c.epoch now % n = k at hlt
    simp only [PitWords.phase, hm, h.loaded, h.initial, hne, Bool.false_eq_true, or_self, if_false,
      decide_eq_true_eq]
    -- the two halves: the count is back at `n` where the low one begins
    by_cases hk : k < (n + 1) / 2
    · simp only [hk, if_true]
      simp
      omega
    · simp only [hk, if_false]
      simp
      omega
  refine ⟨?_, fun _ => ?_, fun h0 => ?_, fun h0 => ?_⟩
  · rw [hout, hfro]
    simp only [hm, if_true]
    generalize clocksBetween c.epoch now % n = k at hlt
    rw [if_neg (by decide)]
    exact decide_eq_decide.2 (by omega)
  · rw [hphase]
    exact Nat.mod_modEq _ _
  · rw [hm] at h0
    cases h0
  · rw [hm] at h0
    cases h0

/-- Past the terminal count the place is `n` and what the count has wrapped by. -/
theorem wrapped_place : n + wrap bcd 0 (wrap bcd n k) ≡ k [MOD largest bcd] := by
  have h1 : wrap bcd 0 (wrap bcd n k) + wrap bcd n k ≡ 0 [MOD largest bcd] := wrap_add
  have h2 : wrap bcd n k + k ≡ n [MOD largest bcd] := wrap_add
  have h3 := h2.symm.add_right (wrap bcd 0 (wrap bcd n k))
  refine h3.trans ?_
  have h4 := h1.add_right k
  rw [Nat.zero_add] at h4
  have h5 : wrap bcd n k + k + wrap bcd 0 (wrap bcd n k) =
      wrap bcd 0 (wrap bcd n k) + wrap bcd n k + k := by omega
  rw [h5]
  exact h4

theorem phase_frozen0 (h : Counting c now n) (hm : c.mode = 0) :
    (c.freeze now c.toPitWords).2.phase =
      if clocksBetween c.epoch now < n then
        if wrap c.bcd n (clocksBetween c.epoch now) ≤ n then
          n - wrap c.bcd n (clocksBetween c.epoch now) else 0
      else n + wrap c.bcd 0 (wrap c.bcd n (clocksBetween c.epoch now)) := by
  have hphase := phase_mode0 (w := (c.freeze now c.toPitWords).2) (n := n)
    (by rw [frozen_mode0 h hm]; exact hm) (by rw [frozen_mode0 h hm]; exact h.loaded)
    (by rw [frozen_mode0 h hm]; exact h.initial) h.pos
  rw [hphase, frozen_mode0 h hm]
  simp only [decide_eq_false_iff_not, Nat.not_le]

theorem keeps_mode0 (h : Counting c now n) (hm : c.mode = 0) (hl : ¬ AtLargest c now n) :
    KeepsPlace c now n := by
  have hle := h.le
  refine ⟨?_, fun hne => absurd hm hne, fun _ hlt => ?_, fun _ hge => ?_⟩
  · rw [outNow_eq h, frozen_mode0 h hm, if_pos hm]
  · rw [phase_frozen0 h hm, if_pos hlt]
    have hpart : n - clocksBetween c.epoch now < largest c.bcd := by
      by_contra hc
      exact hl ⟨hm, by omega, by omega⟩
    rw [wrap_zero (Nat.le_of_lt hlt) hpart]
    generalize clocksBetween c.epoch now = k at hlt
    rw [if_pos (by omega)]
    omega
  · rw [phase_frozen0 h hm, if_neg (Nat.not_lt.2 hge)]
    exact ⟨Nat.le_add_right _ _, wrapped_place⟩

theorem wrap_largest : wrap bcd (largest bcd) 0 = 0 := by
  cases bcd <;> decide

/-- The words that `freeze_locked` writes keep the place but for the largest count. -/
theorem frozen_keeps (h : Counting c now n) : KeepsPlace c now n ↔ ¬ AtLargest c now n := by
  constructor
  · intro hk hl
    obtain ⟨hm, hn, h0⟩ := hl
    have hlt : clocksBetween c.epoch now < n := by
      rw [h0]
      exact h.pos
    have hphase := hk.before hm hlt
    rw [phase_frozen0 h hm, if_pos hlt, h0, hn, wrap_largest, if_pos (Nat.zero_le _)] at hphase
    have := @largest_pos c.bcd
    omega
  · intro hl
    obtain hm | hm | hm := h.mode
    · exact keeps_mode0 h hm hl
    · exact keeps_mode2 h hm
    · exact keeps_mode3 h hm

end Alphabox.Isa
