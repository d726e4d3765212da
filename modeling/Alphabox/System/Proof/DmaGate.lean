import Alphabox.System.DmaGate
import Alphabox.Lib.Count
import Alphabox.Lib.Reach

/-!
# The DMA gate excludes

The gate is the number of threads in an LL/SC sequence, with the writer bit for the one thread that
has it: the sum is the invariant, and the thread that writes has seen the number at zero.
-/

namespace Alphabox.System.DmaGate

open Function (update)

/-- A sequence in progress. -/
def GatePos.reader : GatePos → Nat
  | .llsc => 1
  | _ => 0

/-- The writer bit is the thread's. -/
def GatePos.writer : GatePos → Nat
  | .dmaDrain | .dmaWrite => 1
  | _ => 0

variable {ι : Type*} [Fintype ι]

/-- The threads between `cpu_llsc_enter` and `cpu_llsc_leave`. -/
def GateRun.readers (s : GateRun ι) : Nat := ∑ i, (s.pos i).reader

/-- The threads that have set the writer bit. -/
def GateRun.writers (s : GateRun ι) : Nat := ∑ i, (s.pos i).writer

/-- The gate counts the readers below the writer bit. -/
structure Inv (s : GateRun ι) : Prop where
  gate : s.gate.toNat = s.readers + 2 ^ 31 * s.writers
  writers : s.writers ≤ 1
  readers : s.readers < 2 ^ 31
  drained : ∀ i, s.pos i = .dmaWrite → s.readers = 0

/-! ## The gate's word -/

theorem and_writerBit (g : BitVec 32) : g &&& writerBit = 0 ↔ g.toNat < 2 ^ 31 := by
  have hmsb := BitVec.msb_eq_decide g
  rw [BitVec.msb_eq_getLsbD_last, show 32 - 1 = 31 from rfl] at hmsb
  rw [show writerBit = BitVec.twoPow 32 31 by decide, BitVec.and_twoPow, hmsb]
  by_cases h : 2 ^ 31 ≤ g.toNat
  · simp only [h, decide_true, if_true]
    exact ⟨fun h0 => absurd h0 (by decide), fun h0 => absurd h (Nat.not_le.2 h0)⟩
  · simp only [h, decide_false, Bool.false_eq_true, if_false]
    exact ⟨fun _ => Nat.not_le.1 h, fun _ => rfl⟩

theorem and_readersMask_toNat (g : BitVec 32) : (g &&& readersMask).toNat = g.toNat % 2 ^ 31 := by
  rw [BitVec.toNat_and]
  exact Nat.and_two_pow_sub_one_eq_mod g.toNat 31

theorem or_writerBit_toNat {g : BitVec 32} (h : g.toNat < 2 ^ 31) :
    (g ||| writerBit).toNat = g.toNat + 2 ^ 31 := by
  have h2 := Nat.two_pow_add_eq_or_of_lt h 1
  rw [Nat.mul_one] at h2
  rw [BitVec.or_comm, BitVec.toNat_or]
  change 2 ^ 31 ||| g.toNat = _
  omega

/-! ## One turn -/

/-- What one turn does to the gate and to the thread's part of the two numbers. -/
inductive Effect (gate : BitVec 32) (p : GatePos) : BitVec 32 → GatePos → Prop
  /-- Nothing but the thread's place: not a reader nor a writer before or after. -/
  | move {q : GatePos} : p.reader = 0 → p.writer = 0 → q.reader = 0 → q.writer = 0 →
      q ≠ .dmaWrite → Effect gate p gate q
  /-- A reader enters: the gate has no writer bit, and room for one more. -/
  | enter : p.reader = 0 → p.writer = 0 → gate.toNat < 2 ^ 31 - 1 → Effect gate p (gate + 1) .llsc
  | leave : p = .llsc → Effect gate p (gate - 1) .idle
  | claim : p.reader = 0 → p.writer = 0 → gate.toNat < 2 ^ 31 →
      Effect gate p (gate ||| writerBit) .dmaDrain
  | wait : p = .dmaDrain → Effect gate p gate .dmaDrain
  | drained : p = .dmaDrain → gate.toNat % 2 ^ 31 = 0 → Effect gate p gate .dmaWrite
  | release : p = .dmaWrite → Effect gate p 0 .idle

theorem access_effect (gate : BitVec 32) (turn : Turn) (p : GatePos) :
    Effect gate p (access gate turn p).1 (access gate turn p).2 := by
  cases p with
  | idle =>
    cases hd : turn.dma <;> simp only [access, hd, Bool.false_eq_true, if_false, if_true] <;>
      exact .move rfl rfl rfl rfl (fun hc => nomatch hc)
  | llscLoad => exact .move rfl rfl rfl rfl (fun hc => nomatch hc)
  | dmaLoad => exact .move rfl rfl rfl rfl (fun hc => nomatch hc)
  | llsc => exact .leave rfl
  | dmaWrite => exact .release rfl
  | dmaDrain =>
    simp only [access]
    split
    · rename_i h
      refine .drained rfl ?_
      rw [← and_readersMask_toNat, h]
      rfl
    · exact .wait rfl
  | llscExchange g =>
    simp only [access, exchange]
    split
    · rename_i h
      by_cases hx : gate = g ∧ turn.spurious = false
      · obtain ⟨rfl, hs⟩ := hx
        have hlt := (and_writerBit gate).1 h.1
        have hne : gate.toNat ≠ 2 ^ 31 - 1 := by
          intro hc
          refine h.2 (BitVec.eq_of_toNat_eq ?_)
          rw [and_readersMask_toNat, hc]
          rfl
        rw [if_pos ⟨rfl, hs⟩]
        exact .enter rfl rfl (by omega)
      · rw [if_neg hx]
        exact .move rfl rfl rfl rfl (fun hc => nomatch hc)
    · exact .move rfl rfl rfl rfl (fun hc => nomatch hc)
  | dmaExchange g =>
    simp only [access, exchange]
    split
    · rename_i h
      by_cases hx : gate = g ∧ turn.spurious = false
      · obtain ⟨rfl, hs⟩ := hx
        rw [if_pos ⟨rfl, hs⟩]
        exact .claim rfl rfl ((and_writerBit gate).1 h)
      · rw [if_neg hx]
        exact .move rfl rfl rfl rfl (fun hc => nomatch hc)
    · exact .move rfl rfl rfl rfl (fun hc => nomatch hc)

variable [DecidableEq ι]

theorem readers_update (s : GateRun ι) (i : ι) (gate : BitVec 32) (q : GatePos) :
    (⟨gate, update s.pos i q⟩ : GateRun ι).readers + (s.pos i).reader = s.readers + q.reader :=
  Lib.sum_update (Finset.mem_univ i) s.pos GatePos.reader q

theorem writers_update (s : GateRun ι) (i : ι) (gate : BitVec 32) (q : GatePos) :
    (⟨gate, update s.pos i q⟩ : GateRun ι).writers + (s.pos i).writer = s.writers + q.writer :=
  Lib.sum_update (Finset.mem_univ i) s.pos GatePos.writer q

theorem reader_le (s : GateRun ι) (i : ι) : (s.pos i).reader ≤ s.readers :=
  Lib.le_sum s.pos GatePos.reader i

theorem writer_le (s : GateRun ι) (i : ι) : (s.pos i).writer ≤ s.writers :=
  Lib.le_sum s.pos GatePos.writer i

/-- Two threads do not both have the writer bit. -/
theorem writers_ge_two {s : GateRun ι} {i j : ι} (hij : i ≠ j) :
    (s.pos i).writer + (s.pos j).writer ≤ s.writers := by
  unfold GateRun.writers
  rw [← Finset.add_sum_erase Finset.univ (fun k => (s.pos k).writer) (Finset.mem_univ i),
    ← Finset.add_sum_erase (Finset.univ.erase i) (fun k => (s.pos k).writer)
      (Finset.mem_erase.2 ⟨hij.symm, Finset.mem_univ j⟩)]
  omega

omit [DecidableEq ι] in
theorem Inv.no_writer {s : GateRun ι} (h : Inv s) (hlt : s.gate.toNat < 2 ^ 31) :
    s.writers = 0 := by
  have := h.gate
  omega

theorem writer_dmaWrite {s : GateRun ι} {i : ι} (h : s.pos i = .dmaWrite) : 1 ≤ s.writers := by
  have := writer_le s i
  rwa [h] at this

/-- A thread's turn keeps the count. -/
theorem Inv.turn {s : GateRun ι} (h : Inv s) (i : ι) {gate : BitVec 32} {q : GatePos}
    (he : Effect s.gate (s.pos i) gate q) : Inv (⟨gate, update s.pos i q⟩ : GateRun ι) := by
  have hr := readers_update s i gate q
  have hw := writers_update s i gate q
  have hgate := h.gate
  have hwle := h.writers
  have hrlt := h.readers
  have hlt : s.gate.toNat < 2 ^ 32 := s.gate.isLt
  -- the others that write are as they were
  have hother : ∀ j, update s.pos i q j = .dmaWrite → (j = i ∧ q = .dmaWrite) ∨
      (j ≠ i ∧ s.pos j = .dmaWrite) := by
    intro j hj
    by_cases hji : j = i
    · subst hji
      exact .inl ⟨rfl, by rwa [Function.update_self] at hj⟩
    · exact .inr ⟨hji, by rwa [Function.update_of_ne hji] at hj⟩
  cases he with
  | move hp1 hp2 hq1 hq2 hne =>
    refine ⟨by dsimp only; omega, by omega, by omega, fun j hj => ?_⟩
    obtain ⟨-, hq⟩ | ⟨-, hj⟩ := hother j hj
    · exact absurd hq hne
    · have := h.drained j hj
      omega
  | enter hp1 hp2 hroom =>
    have h0 := h.no_writer (by omega)
    have hg : (s.gate + 1).toNat = s.gate.toNat + 1 := by
      have := BitVec.toNat_add s.gate 1
      have h1 : (1 : BitVec 32).toNat = 1 := rfl
      omega
    rw [show GatePos.llsc.reader = 1 from rfl] at hr
    rw [show GatePos.llsc.writer = 0 from rfl] at hw
    refine ⟨by dsimp only; omega, by omega, by omega, fun j hj => ?_⟩
    obtain ⟨-, hq⟩ | ⟨-, hj⟩ := hother j hj
    · exact nomatch hq
    · have := writer_dmaWrite hj
      omega
  | leave hp =>
    rw [hp] at hr hw
    simp only [GatePos.reader, GatePos.writer] at hr hw
    have hg : (s.gate - 1).toNat = s.gate.toNat - 1 :=
      BitVec.toNat_sub_of_le (by rw [BitVec.le_def]; change 1 ≤ _; omega)
    refine ⟨by dsimp only; omega, by omega, by omega, fun j hj => ?_⟩
    obtain ⟨-, hq⟩ | ⟨-, hj⟩ := hother j hj
    · exact nomatch hq
    · have := h.drained j hj
      omega
  | claim hp1 hp2 hclear =>
    have h0 := h.no_writer hclear
    have hg := or_writerBit_toNat hclear
    rw [show GatePos.dmaDrain.reader = 0 from rfl] at hr
    rw [show GatePos.dmaDrain.writer = 1 from rfl] at hw
    refine ⟨by dsimp only; omega, by omega, by omega, fun j hj => ?_⟩
    obtain ⟨-, hq⟩ | ⟨-, hj⟩ := hother j hj
    · exact nomatch hq
    · have := writer_dmaWrite hj
      omega
  | wait hp =>
    rw [hp] at hr hw
    refine ⟨by dsimp only; omega, by omega, by omega, fun j hj => ?_⟩
    obtain ⟨-, hq⟩ | ⟨-, hj⟩ := hother j hj
    · exact nomatch hq
    · have := h.drained j hj
      omega
  | drained hp hzero =>
    rw [hp] at hr hw
    simp only [GatePos.reader, GatePos.writer] at hr hw
    refine ⟨by dsimp only; omega, by omega, by omega, fun j _ => ?_⟩
    omega
  | release hp =>
    have hdrained := h.drained i hp
    have hone := writer_dmaWrite hp
    rw [hp] at hr hw
    simp only [GatePos.reader, GatePos.writer] at hr hw
    have hz : (0 : BitVec 32).toNat = 0 := rfl
    refine ⟨by dsimp only; omega, by omega, by omega, fun j hj => ?_⟩
    obtain ⟨-, hq⟩ | ⟨hji, hj⟩ := hother j hj
    · exact nomatch hq
    · omega

omit [DecidableEq ι] in
theorem inv_start : Inv (GateRun.start : GateRun ι) := by
  have hr : (GateRun.start : GateRun ι).readers = 0 := Finset.sum_const_zero
  have hw : (GateRun.start : GateRun ι).writers = 0 := Finset.sum_const_zero
  refine ⟨?_, by omega, by omega, fun j hj => nomatch hj⟩
  rw [hr, hw]
  rfl

theorem inv_reach {s : GateRun ι} (h : Lib.Reach (· = GateRun.start) (fun _ _ => True)
    GateRun.step s) : Inv s := by
  refine Lib.Reach.inv (P := Inv) ?_ (fun s a hs _ => ?_) h
  · rintro s rfl
    exact inv_start
  · exact hs.turn a.1 (access_effect s.gate a.2 (s.pos a.1))

/-- In every interleaving of the accesses of any threads: one that may write excludes every other
such thread and every LL/SC sequence; the gate counts the sequences below the writer bit, which is
set for the one thread that has it; and a writer's store of 0 takes nothing but that bit away. -/
theorem dma_gate_excludes {s : GateRun ι} (h : Lib.Reach (· = GateRun.start) (fun _ _ => True)
    GateRun.step s) :
    (∀ i j, i ≠ j → s.pos i = .dmaWrite → s.pos j ≠ .dmaWrite ∧ s.pos j ≠ .llsc) ∧
    (∀ i, s.pos i = .dmaWrite → s.gate = writerBit) ∧
    (∀ i, s.pos i = .llsc → 0 < (s.gate &&& readersMask).toNat) ∧
    (s.gate &&& readersMask).toNat = s.readers ∧
    (s.gate &&& writerBit ≠ 0 ↔ ∃ i, s.pos i = .dmaDrain ∨ s.pos i = .dmaWrite) := by
  have hi := inv_reach h
  have hgate := hi.gate
  have hwle := hi.writers
  have hrlt := hi.readers
  have hmask : (s.gate &&& readersMask).toNat = s.readers := by
    rw [and_readersMask_toNat]
    omega
  refine ⟨fun i j hij hw => ⟨fun hj => ?_, fun hj => ?_⟩, fun i hw => ?_, fun i hj => ?_, hmask, ?_⟩
  · have := writers_ge_two (s := s) hij
    rw [hw, hj] at this
    simp only [GatePos.writer] at this
    omega
  · have h0 := hi.drained i hw
    have := reader_le s j
    rw [hj] at this
    simp only [GatePos.reader] at this
    omega
  · have h0 := hi.drained i hw
    have h1 := writer_dmaWrite hw
    refine BitVec.eq_of_toNat_eq ?_
    rw [show writerBit.toNat = 2 ^ 31 from rfl]
    omega
  · have := reader_le s i
    rw [hj] at this
    simp only [GatePos.reader] at this
    omega
  · rw [Ne, and_writerBit, not_lt]
    constructor
    · intro hset
      by_contra hno
      rw [not_exists] at hno
      have hzero : s.writers = 0 := by
        refine Finset.sum_eq_zero fun i _ => ?_
        have := hno i
        cases hp : s.pos i <;> simp_all [GatePos.writer]
      omega
    · rintro ⟨i, hp | hp⟩
      · have := writer_le s i
        rw [hp] at this
        simp only [GatePos.writer] at this
        omega
      · have := writer_dmaWrite hp
        omega

/-- Two threads: one in a sequence, the other waiting for it with the writer bit. -/
def waiting : GateRun (Fin 2) :=
  [(0, ⟨false, false⟩), (0, ⟨false, false⟩), (0, ⟨false, false⟩), (1, ⟨true, false⟩),
    (1, ⟨true, false⟩), (1, ⟨true, false⟩), (1, ⟨true, false⟩)].foldl GateRun.step .start

theorem dma_gate_excludes_waiting : waiting.pos 0 = .llsc ∧ waiting.pos 1 = .dmaDrain ∧
    (waiting.gate &&& readersMask).toNat = waiting.readers := by
  have h0 : Lib.Reach (· = (GateRun.start : GateRun (Fin 2))) (fun _ _ => True) GateRun.step
    .start := .start rfl
  refine ⟨by decide, by decide, ?_⟩
  exact (dma_gate_excludes (h0.foldl _ fun _ _ _ => trivial)).2.2.2.1

end Alphabox.System.DmaGate
