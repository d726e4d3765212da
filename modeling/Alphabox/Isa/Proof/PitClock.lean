import Alphabox.Isa.I8254

/-!
# Timer interrupts and the calls of the clock

`InWave c n d`: counter `c`, in mode 3 with the count `n`, is where `d` counts of its square wave
put it (two counts an input clock). A call of `clock` moves it on by the counts that it bills
(`tick_inWave`), so that any calls raise one interrupt for every `n` input clocks.
-/

namespace Alphabox.Isa

variable {n d dec edges now clocks : Nat} {c : PitCounter} {p : I8254}

namespace PitCounter

/-- The square wave of the count `n` after `d` counts. -/
structure InWave (c : PitCounter) (n d : Nat) : Prop where
  mode : c.mode = 3
  loaded : c.null = false
  gate : c.gate = true
  none_next : c.nextN = 0
  initial : c.initial = n
  counter : c.counter = n - d % n
  out : c.out = decide (d / n % 2 = 0)

/-- Freshly loaded. -/
def Loaded (c : PitCounter) (n : Nat) : Prop := c.InWave n 0

/-! ## One call -/

/-- The loop counts on from where the wave is. -/
theorem squareWave_spec (hn : 0 < n) : squareWave n dec (n - d % n) (decide (d / n % 2 = 0)) edges =
    (n - (d + dec) % n, decide ((d + dec) / n % 2 = 0),
      edges + ((d + dec) / n / 2 - d / n / 2)) := by
  induction dec using Nat.strongRecOn generalizing d edges with
  | _ dec ih =>
    have hd := Nat.div_add_mod d n
    have hlt := Nat.mod_lt d hn
    rw [squareWave]
    split
    · -- the half period goes on
      rename_i hdec
      have hsum : d + dec = n * (d / n) + (d % n + dec) := by omega
      have hsmall : d % n + dec < n := by omega
      have hmod : (d + dec) % n = d % n + dec := by
        rw [hsum, Nat.mul_add_mod, Nat.mod_eq_of_lt hsmall]
      have hdiv : (d + dec) / n = d / n := by
        rw [hsum, Nat.mul_add_div hn, Nat.div_eq_of_lt hsmall, Nat.add_zero]
      rw [hmod, hdiv, Nat.sub_self, Nat.add_zero, Nat.sub_sub]
    · rename_i hdec
      rw [if_neg (Nat.ne_of_gt hn)]
      -- the reload starts the next half period
      have hnext : d + (n - d % n) = n * (d / n + 1) := by
        rw [Nat.mul_add, Nat.mul_one]
        omega
      have hmod : (d + (n - d % n)) % n = 0 := by rw [hnext, Nat.mul_mod_right]
      have hdiv : (d + (n - d % n)) / n = d / n + 1 := by rw [hnext, Nat.mul_div_cancel_left _ hn]
      have hall : d + (n - d % n) + (dec - (n - d % n)) = d + dec := by omega
      have hrec := @ih (dec - (n - d % n)) (by omega) (d + (n - d % n))
        (if d / n % 2 = 0 then edges else edges + 1)
      rw [hmod, hdiv, hall, Nat.sub_zero] at hrec
      have hout : (!decide (d / n % 2 = 0)) = decide ((d / n + 1) % 2 = 0) := by
        rw [← decide_not]
        exact decide_eq_decide.2 (by omega)
      have hmono : d / n + 1 ≤ (d + dec) / n := by
        rw [← hdiv]
        exact Nat.div_le_div_right (by omega)
      simp only [decide_eq_true_eq]
      rw [hout, hrec]
      refine Prod.ext rfl (Prod.ext rfl ?_)
      dsimp only
      split <;> omega

theorem settle_none (h : c.nextN = 0) : c.settle now = c := if_pos (.inl h)

theorem tick_inWave (hn : 0 < n) (h : c.InWave n d) :
    (c.tick now clocks).1.InWave n (d + clocks * 2) ∧
    (c.tick now clocks).2 = (d + clocks * 2) / n / 2 - d / n / 2 := by
  obtain ⟨hmode, hnull, hgate, hnext, hinit, hcounter, hout⟩ := h
  have hwave := @squareWave_spec _ d (clocks * 2) 0 hn
  have hfour : (3 : Nat) ≠ 0 := by decide
  simp only [tick, settle_none hnext, hnull, hgate, hmode, hinit, hcounter, hout, hwave,
    Bool.false_eq_true, Bool.true_eq_false, or_self, if_false, if_true, if_neg hfour,
    Nat.zero_add, and_true]
  exact ⟨rfl, rfl, rfl, hnext, rfl, rfl, rfl⟩

end PitCounter

/-! ## Any calls -/

namespace I8254

open PitCounter

theorem clock_counter {i : Fin 3} : (p.clock now).counter i = p.advance i now := by rw [clock]

theorem clock_last : (p.clock now).last = now := by rw [clock]

theorem clock_acc :
    (p.clock now).acc = (p.acc + p.elapsed now * PIT_CLOCK_HZ) % 1000000000 := by rw [clock]

/-- The clocks of a call are those that its time and the carried part make whole. -/
theorem billedClocks_cons {times : List Nat} : p.billedClocks (now :: times) =
    p.wholeClocks now + (p.clock now).billedClocks times := by
  have hsum : p.acc + billedNs p.last (now :: times) * PIT_CLOCK_HZ =
      p.acc + p.elapsed now * PIT_CLOCK_HZ + billedNs now times * PIT_CLOCK_HZ := by
    rw [billedNs, Nat.add_mul, ← Nat.add_assoc, elapsed]
  unfold billedClocks wholeClocks
  rw [hsum, clock_acc, clock_last]
  generalize p.acc + p.elapsed now * PIT_CLOCK_HZ = a
  generalize billedNs now times * PIT_CLOCK_HZ = b
  omega

theorem clock_inWave (hn : 0 < n) (h : (p.counter 0).InWave n d) :
    ((p.clock now).counter 0).InWave n (d + p.wholeClocks now * 2) ∧
    p.irq0 now = (d + p.wholeClocks now * 2) / n / 2 - d / n / 2 := by
  rw [clock_counter, irq0, advance]
  by_cases h0 : p.wholeClocks now = 0
  · rw [if_pos h0, if_pos h0, h0, Nat.zero_mul, Nat.add_zero, Nat.sub_self]
    exact ⟨h, rfl⟩
  · rw [if_neg h0, if_neg h0]
    exact tick_inWave hn h

theorem clockRun_inWave (hn : 0 < n) {times : List Nat} (h : (p.counter 0).InWave n d) :
    ((p.clockRun times).1.counter 0).InWave n (d + p.billedClocks times * 2) ∧
    (p.clockRun times).2 = (d + p.billedClocks times * 2) / n / 2 - d / n / 2 := by
  induction times generalizing p d with
  | nil =>
    have h0 : p.billedClocks [] = 0 := by
      rw [billedClocks, billedNs, Nat.zero_mul, Nat.add_zero]
      exact Nat.div_eq_of_lt p.acc_lt
    rw [h0, Nat.zero_mul, Nat.add_zero, Nat.sub_self]
    exact ⟨h, rfl⟩
  | cons now times ih =>
    obtain ⟨hwave, hedges⟩ := @clock_inWave _ _ now _ hn h
    obtain ⟨hwaves, hrest⟩ := ih hwave
    rw [billedClocks_cons]
    generalize p.wholeClocks now = k at *
    generalize (p.clock now).billedClocks times = l at *
    have hall : d + (k + l) * 2 = d + k * 2 + l * 2 := by omega
    rw [hall]
    refine ⟨hwaves, ?_⟩
    rw [clockRun]
    dsimp only
    rw [hedges, hrest]
    have h1 : d / n / 2 ≤ (d + k * 2) / n / 2 :=
      Nat.div_le_div_right (Nat.div_le_div_right (by omega))
    have h2 : (d + k * 2) / n / 2 ≤ (d + k * 2 + l * 2) / n / 2 :=
      Nat.div_le_div_right (Nat.div_le_div_right (by omega))
    omega

/-- No product of a call is near 64 bits. -/
theorem clock_fits : p.acc + p.elapsed now * PIT_CLOCK_HZ < U64 ∧
    p.wholeClocks now * 2 < U64 := by
  have hacc := p.acc_lt
  have helapsed : p.elapsed now ≤ 30000000 := Nat.min_le_right _ _
  unfold wholeClocks PIT_CLOCK_HZ U64
  omega

/-- A count written after a control word for mode 3 is loaded at once. -/
theorem load_loaded {k : Nat} (hm : c.mode = 3) (hb : c.bcd = false) (hnull : c.null = true)
    (hg : c.gate = true) (hnext : c.nextN = 0) :
    (c.load k now).Loaded (if k = 0 then 65536 else k) := by
  have hfour : (3 : Nat) ≠ 0 := by decide
  simp only [load, settle_none hnext, hm, hb, hnull, hg, Bool.false_eq_true, Bool.true_eq_false,
    if_false, false_and, and_false, largest]
  exact ⟨rfl, rfl, rfl, rfl, rfl, by rw [Nat.zero_mod, Nat.sub_zero], by rw [Nat.zero_div]; rfl⟩

/-- The two bytes of a count. -/
theorem writeCount_lsb {data : BitVec 8} (ha : c.access = 3) (hs : c.seq = 3) :
    c.writeCount data now = { c with lsb := data.toNat, seq := 2 } := by
  simp [writeCount, ha, hs]

theorem writeCount_msb {data : BitVec 8} (ha : c.access = 3) (hs : c.seq = 2) :
    c.writeCount data now =
      { c with lsb := 0, seq := 3 }.load (c.lsb + data.toNat * 256) now := by
  simp [writeCount, ha, hs]

/-- Every count can be loaded: a control word for mode 3 and the two bytes of the count. -/
theorem loaded_program (t0 t1 t2 : Nat) (hg : (p.counter 0).gate = true) (h1 : 1 ≤ n)
    (h2 : n ≤ 65536) :
    ((((p.write 3 0x36 t0).write 0 (BitVec.ofNat 8 n) t1).write 0 (BitVec.ofNat 8 (n / 256))
      t2).counter 0).Loaded n := by
  have hwrite : ∀ (q : I8254) (data : BitVec 8) (t : Nat),
      (q.write 0 data t).counter 0 = (q.counter 0).writeCount data t := fun q data t => by
    simp [write, set]
  have hcontrol : (p.write 3 0x36 t0).counter 0 = (p.counter 0).control 0x36 := by
    simp [write, set]
  rw [hwrite, hwrite, hcontrol]
  generalize p.counter 0 = c at hg
  rw [writeCount_lsb (c := c.control 0x36) rfl rfl, writeCount_msb rfl rfl, BitVec.toNat_ofNat, BitVec.toNat_ofNat]
  have hload : PitCounter.Loaded
      (({ c.control 0x36 with lsb := 0, seq := 3 } : PitCounter).load
        (n % 256 + n / 256 % 256 * 256) t2) _ := load_loaded rfl rfl rfl hg rfl
  have hn : (if n % 256 + n / 256 % 256 * 256 = 0 then 65536
      else n % 256 + n / 256 % 256 * 256) = n := by
    split <;> omega
  rw [hn] at hload
  exact hload

/-- Whatever the calls, a counter 0 loaded with `n` in mode 3 raises an interrupt for every `n`
input clocks billed, and its words depend on the clocks billed alone. -/
theorem interrupts_per_period (h1 : 1 ≤ n) (h : (p.counter 0).Loaded n)
    (times : List Nat) :
    let r := p.clockRun times
    let clocks := p.billedClocks times
    r.2 = clocks / n ∧
    (r.1.counter 0).counter = n - clocks * 2 % n ∧
    (r.1.counter 0).out = decide (clocks * 2 / n % 2 = 0) ∧
    1 ≤ (r.1.counter 0).counter ∧ (r.1.counter 0).counter ≤ n ∧
    (∀ now, r.1.acc + r.1.elapsed now * PIT_CLOCK_HZ < U64 ∧ r.1.wholeClocks now * 2 < U64) ∧
    ∀ times', p.billedClocks times' = clocks →
      (p.clockRun times').2 = r.2 ∧
      ((p.clockRun times').1.counter 0).counter = (r.1.counter 0).counter ∧
      ((p.clockRun times').1.counter 0).out = (r.1.counter 0).out := by
  have hrun : ∀ ts, (p.clockRun ts).2 = p.billedClocks ts / n ∧
      ((p.clockRun ts).1.counter 0).counter = n - p.billedClocks ts * 2 % n ∧
      ((p.clockRun ts).1.counter 0).out = decide (p.billedClocks ts * 2 / n % 2 = 0) := fun ts => by
    obtain ⟨hwave, hedges⟩ := @clockRun_inWave _ _ _ h1 ts h
    rw [Nat.zero_add] at hwave hedges
    refine ⟨?_, hwave.counter, hwave.out⟩
    rw [hedges, Nat.zero_div, Nat.zero_div, Nat.sub_zero, Nat.div_div_eq_div_mul,
      Nat.mul_div_mul_right _ _ (by decide)]
  obtain ⟨htotal, hcounter, hout⟩ := hrun times
  have hlt := Nat.mod_lt (p.billedClocks times * 2) h1
  refine ⟨htotal, hcounter, hout, ?_, ?_, fun now => clock_fits, fun times' heq => ?_⟩
  · rw [hcounter]
    omega
  · rw [hcounter]
    omega
  · obtain ⟨htotal', hcounter', hout'⟩ := hrun times'
    rw [heq] at htotal' hcounter' hout'
    exact ⟨htotal'.trans htotal.symm, hcounter'.trans hcounter.symm, hout'.trans hout.symm⟩

theorem zero_lt_second : 0 < 1000000000 := by decide

/-- A timer at power-on, its first two GATE inputs high. -/
def fresh : I8254 where
  counter i := ⟨⟨0, .none, 0, 0, 0, 0, false, true, false, 0⟩, i.val < 2, 0, 0, 0, 0⟩
  last := 0
  acc := 0
  acc_lt := zero_lt_second

/-- A count of 1000 at once, then two seconds in calls 20 ms apart: 2386364 clocks. -/
theorem interrupts_per_period_1000 :
    (((((fresh.write 3 0x36 0).write 0 0xe8 0).write 0 0x03 0).clockRun
      ((List.range 100).map fun k => 20000000 * (k + 1))).2) = 2386 := by
  have h := (interrupts_per_period (by decide)
    (loaded_program (n := 1000) (p := fresh) 0 0 0 rfl (by decide) (by decide))
    ((List.range 100).map fun k => 20000000 * (k + 1))).1
  exact h.trans (by decide +kernel)

end I8254

end Alphabox.Isa
