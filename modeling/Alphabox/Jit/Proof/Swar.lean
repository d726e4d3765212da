import Alphabox.Lib.Lanes
import Alphabox.Jit.Proof.Values

/-!
# CTPOP and CMPBGE in one register

Both are computed for all lanes of a register at once. CTPOP sums bits into nibbles and nibbles into
bytes, none of which can overflow, and a multiplication adds the bytes up. CMPBGE subtracts with the
top bit of each byte set aside, so that no byte borrows, and a multiplication gathers the eight
results.
-/


namespace Alphabox.Jit

open Fp Cpu Lib

variable {a b : Word}

/-! ## CTPOP -/

/-- The bits set in a nibble. -/
def nibbleOnes (n : BitVec 4) : Nat :=
  (n.getLsbD 0).toNat + (n.getLsbD 1).toNat + (n.getLsbD 2).toNat + (n.getLsbD 3).toNat

/-- The nibbles of `b`, each replaced by the number of its bits. -/
def ctpopNibbles (b : Word) : Word :=
  let x := b - ((b >>> 1) &&& 0x5555555555555555)
  ((x >>> 2) &&& 0x3333333333333333) + (x &&& 0x3333333333333333)

/-- The bytes of `b`, each replaced by the number of its bits. -/
def ctpopBytes (b : Word) : Word :=
  let x := ctpopNibbles b
  (x + x >>> 4) &&& 0x0f0f0f0f0f0f0f0f

theorem nibble_steps : ∀ n : BitVec 4, ((n >>> 1) &&& 5).toNat ≤ n.toNat ∧
    (((n - ((n >>> 1) &&& 5)) >>> 2) &&& 3).toNat + ((n - ((n >>> 1) &&& 5)) &&& 3).toNat =
      nibbleOnes n := by
  decide

theorem nibbleOnes_le : ∀ n : BitVec 4, nibbleOnes n ≤ 4 := by decide

theorem lanes_5 : ∀ i < 16, lane 4 (0x5555555555555555 : Word) i = 5 := by decide

theorem lanes_3 : ∀ i < 16, lane 4 (0x3333333333333333 : Word) i = 3 := by decide

theorem ctpopNibbles_lane {i : Nat} (hi : i < 16) :
    (lane 4 (ctpopNibbles b) i).toNat = nibbleOnes (lane 4 b i) := by
  have hpairs (j : Nat) (hj : j < 16) :
      lane 4 ((b >>> 1) &&& 0x5555555555555555) j = (lane 4 b j >>> 1) &&& 5 := by
    rw [lane_shift_and, lanes_5 j hj]
    rw [lanes_5 j hj]
    decide
  have hsub (j : Nat) (hj : j < 16) : lane 4 (b - ((b >>> 1) &&& 0x5555555555555555)) j =
      lane 4 b j - ((lane 4 b j >>> 1) &&& 5) := by
    rw [lane_sub (by omega), hpairs j hj]
    intro k hk
    rw [hpairs k (by omega)]
    exact (nibble_steps _).1
  unfold ctpopNibbles
  dsimp only
  generalize b - ((b >>> 1) &&& 0x5555555555555555) = x at hsub
  have hhi (j : Nat) (hj : j < 16) :
      lane 4 ((x >>> 2) &&& 0x3333333333333333) j = (lane 4 x j >>> 2) &&& 3 := by
    rw [lane_shift_and, lanes_3 j hj]
    rw [lanes_3 j hj]
    decide
  have hlo (j : Nat) (hj : j < 16) :
      lane 4 (x &&& 0x3333333333333333) j = lane 4 x j &&& 3 := by
    rw [lane_and, lanes_3 j hj]
  have hsum (j : Nat) (hj : j < 16) :
      (lane 4 ((x >>> 2) &&& 0x3333333333333333) j).toNat +
        (lane 4 (x &&& 0x3333333333333333) j).toNat = nibbleOnes (lane 4 b j) := by
    rw [hhi j hj, hlo j hj, hsub j hj]
    exact (nibble_steps _).2
  rw [lane_add (by omega) fun j hj => ?_]
  · rw [BitVec.toNat_add, hsum i hi]
    exact Nat.mod_eq_of_lt (lt_of_le_of_lt (nibbleOnes_le _) (by decide))
  · rw [hsum j (by omega)]
    exact lt_of_le_of_lt (nibbleOnes_le _) (by decide)

theorem lanes_0f : ∀ i < 8, lane 4 (0x0f0f0f0f0f0f0f0f : Word) (2 * i) = 15 ∧
    lane 4 (0x0f0f0f0f0f0f0f0f : Word) (2 * i + 1) = 0 := by
  decide

/-- Each byte holds the sum of its two nibbles. -/
theorem ctpopBytes_lane {i : Nat} (hi : i < 8) :
    (lane 4 (ctpopBytes b) (2 * i)).toNat =
      nibbleOnes (lane 4 b (2 * i)) + nibbleOnes (lane 4 b (2 * i + 1)) ∧
    (lane 4 (ctpopBytes b) (2 * i + 1)).toNat = 0 := by
  have hle (j : Nat) : (lane 4 (ctpopNibbles b) j).toNat ≤ 4 := by
    by_cases hj : j < 16
    · rw [ctpopNibbles_lane hj]
      exact nibbleOnes_le _
    · rw [toNat_lane, Nat.div_eq_of_lt]
      · decide
      · exact lt_of_lt_of_le (ctpopNibbles b).isLt (Nat.pow_le_pow_right (by decide) (by omega))
  obtain ⟨hm0, hm1⟩ := lanes_0f i hi
  unfold ctpopBytes
  dsimp only
  constructor
  · rw [lane_and, hm0, lane_add (by omega), lane_shift_lane]
    · rw [← ctpopNibbles_lane (by omega), ← ctpopNibbles_lane (by omega)]
      have h0 := hle (2 * i)
      have h1 := hle (2 * i + 1)
      rw [show (15 : BitVec 4) = BitVec.allOnes 4 from rfl, BitVec.and_allOnes, BitVec.toNat_add]
      omega
    · intro j hj
      rw [lane_shift_lane]
      have h0 := hle j
      have h1 := hle (j + 1)
      omega
  · rw [lane_and, hm1]
    exact congrArg BitVec.toNat BitVec.and_zero

/-! ## Adding bytes up -/

/-- The top byte of a product's low word. -/
theorem top_byte {p q t r : Nat} (hp : p = 2 ^ 64 * q + 2 ^ 56 * t + r) (ht : t < 2 ^ 8)
    (hr : r < 2 ^ 56) : p % 2 ^ 64 / 2 ^ 56 = t := by
  omega

/-- The product of eight bytes with eight ones has their sum in its top byte. -/
theorem sum_bytes {c : Nat → Nat} (h : ∑ i ∈ Finset.range 8, c i < 2 ^ 8) :
    0x0101010101010101 * (∑ i ∈ Finset.range 8, 2 ^ (8 * i) * c i) % 2 ^ 64 / 2 ^ 56 =
      ∑ i ∈ Finset.range 8, c i := by
  simp only [Finset.sum_range_succ, Finset.sum_range_zero, Nat.zero_add] at h ⊢
  generalize c 0 = c0, c 1 = c1, c 2 = c2, c 3 = c3, c 4 = c4, c 5 = c5, c 6 = c6, c 7 = c7 at *
  refine top_byte
    (q := (c1 + c2 + c3 + c4 + c5 + c6 + c7) + 2 ^ 8 * (c2 + c3 + c4 + c5 + c6 + c7) +
      2 ^ 16 * (c3 + c4 + c5 + c6 + c7) + 2 ^ 24 * (c4 + c5 + c6 + c7) +
      2 ^ 32 * (c5 + c6 + c7) + 2 ^ 40 * (c6 + c7) + 2 ^ 48 * c7)
    (r := c0 + 2 ^ 8 * (c0 + c1) + 2 ^ 16 * (c0 + c1 + c2) + 2 ^ 24 * (c0 + c1 + c2 + c3) +
      2 ^ 32 * (c0 + c1 + c2 + c3 + c4) + 2 ^ 40 * (c0 + c1 + c2 + c3 + c4 + c5) +
      2 ^ 48 * (c0 + c1 + c2 + c3 + c4 + c5 + c6)) ?_ h ?_
  · ring
  · omega

/-- The product of eight bits, each in its byte, with the powers of two in the other order has them
in its top byte. -/
theorem gather_bytes {c : Nat → Nat} (h : ∀ i < 8, c i ≤ 1) :
    0x0102040810204080 * (∑ i ∈ Finset.range 8, 2 ^ (8 * i) * c i) % 2 ^ 64 / 2 ^ 56 =
      ∑ i ∈ Finset.range 8, 2 ^ i * c i := by
  have h0 := h 0 (by decide)
  have h1 := h 1 (by decide)
  have h2 := h 2 (by decide)
  have h3 := h 3 (by decide)
  have h4 := h 4 (by decide)
  have h5 := h 5 (by decide)
  have h6 := h 6 (by decide)
  have h7 := h 7 (by decide)
  simp only [Finset.sum_range_succ, Finset.sum_range_zero, Nat.zero_add]
  generalize c 0 = c0, c 1 = c1, c 2 = c2, c 3 = c3, c 4 = c4, c 5 = c5, c 6 = c6, c 7 = c7 at *
  refine top_byte
    (q := (c1 + 2 * c2 + 4 * c3 + 8 * c4 + 16 * c5 + 32 * c6 + 64 * c7) +
      2 ^ 8 * (c2 + 2 * c3 + 4 * c4 + 8 * c5 + 16 * c6 + 32 * c7) +
      2 ^ 16 * (c3 + 2 * c4 + 4 * c5 + 8 * c6 + 16 * c7) +
      2 ^ 24 * (c4 + 2 * c5 + 4 * c6 + 8 * c7) + 2 ^ 32 * (c5 + 2 * c6 + 4 * c7) +
      2 ^ 40 * (c6 + 2 * c7) + 2 ^ 48 * c7)
    (r := 128 * c0 + 2 ^ 8 * (64 * c0 + 128 * c1) + 2 ^ 16 * (32 * c0 + 64 * c1 + 128 * c2) +
      2 ^ 24 * (16 * c0 + 32 * c1 + 64 * c2 + 128 * c3) +
      2 ^ 32 * (8 * c0 + 16 * c1 + 32 * c2 + 64 * c3 + 128 * c4) +
      2 ^ 40 * (4 * c0 + 8 * c1 + 16 * c2 + 32 * c3 + 64 * c4 + 128 * c5) +
      2 ^ 48 * (2 * c0 + 4 * c1 + 8 * c2 + 16 * c3 + 32 * c4 + 64 * c5 + 128 * c6)) ?_ ?_ ?_
  · ring
  · omega
  · omega

/-- A register whose second nibbles are zero is its bytes' values. -/
theorem bytes_of_nibbles {x : Word} (h : ∀ i < 8, (lane 4 x (2 * i + 1)).toNat = 0) :
    x.toNat = ∑ i ∈ Finset.range 8, 2 ^ (8 * i) * (lane 4 x (2 * i)).toNat := by
  have hpair (n : Nat) (hn : n ≤ 8) :
      ∑ i ∈ Finset.range (2 * n), 2 ^ (4 * i) * (lane 4 x i).toNat =
        ∑ i ∈ Finset.range n, 2 ^ (8 * i) * (lane 4 x (2 * i)).toNat := by
    induction n with
    | zero => rfl
    | succ n ih =>
      rw [Nat.mul_succ, Finset.sum_range_succ, Finset.sum_range_succ, Finset.sum_range_succ,
        ih (by omega), h n (by omega), Nat.mul_zero, Nat.add_zero, ← Nat.mul_assoc]
  rw [toNat_eq_sum (w := 4) (x := x) 16 (by decide)]
  exact hpair 8 le_rfl

/-- The loop counts two nibbles at a time. -/
theorem onesBelow_sum (n : Nat) : onesBelow b (8 * n) = ∑ i ∈ Finset.range n,
    (nibbleOnes (lane 4 b (2 * i)) + nibbleOnes (lane 4 b (2 * i + 1))) := by
  have hbit (k j : Nat) (hj : j < 4) : (lane 4 b k).getLsbD j = b.getLsbD (4 * k + j) := by
    rw [getLsbD_lane, decide_eq_true hj, Bool.true_and]
  have hone (p : Bool) : (if p = true then 1 else 0) = p.toNat := by
    cases p <;> rfl
  induction n with
  | zero => rfl
  | succ n ih =>
    rw [Finset.sum_range_succ, ← ih]
    unfold nibbleOnes
    simp only [hbit _ _ (show 0 < 4 by decide), hbit _ _ (show 1 < 4 by decide),
      hbit _ _ (show 2 < 4 by decide), hbit _ _ (show 3 < 4 by decide), Nat.mul_succ,
      ← Nat.mul_assoc, Nat.reduceMul, onesBelow, hone, Nat.add_zero, Nat.add_assoc,
      Nat.reduceAdd]

/-- CTPOP. -/
theorem ctpop_eq (b : Word) :
    (ctpopBytes b * 0x0101010101010101) >>> 56 = BitVec.ofNat 64 (onesBelow b 64) := by
  have hx := bytes_of_nibbles fun i hi => (ctpopBytes_lane (b := b) hi).2
  rw [Finset.sum_congr rfl fun i hi => by
    rw [(ctpopBytes_lane (b := b) (Finset.mem_range.1 hi)).1]] at hx
  have hle : ∑ i ∈ Finset.range 8,
      (nibbleOnes (lane 4 b (2 * i)) + nibbleOnes (lane 4 b (2 * i + 1))) ≤ 8 * 8 :=
    Finset.sum_le_card_nsmul _ _ 8 fun i _ =>
      Nat.add_le_add (nibbleOnes_le (lane 4 b (2 * i))) (nibbleOnes_le (lane 4 b (2 * i + 1)))
  have hs := sum_bytes (lt_of_le_of_lt hle (by decide))
  rw [← hx, ← onesBelow_sum 8] at hs
  rw [← onesBelow_sum 8] at hle
  refine BitVec.eq_of_toNat_eq ?_
  rw [BitVec.toNat_ushiftRight, Nat.shiftRight_eq_div_pow, BitVec.mul_comm, BitVec.toNat_mul,
    show (0x0101010101010101 : Word).toNat = 0x0101010101010101 from rfl, hs, BitVec.toNat_ofNat,
    Nat.mod_eq_of_lt (lt_of_le_of_lt hle (by decide))]

/-! ## CMPBGE -/

/-- The top bit of each byte says whether `a`'s is not below `b`'s. -/
def cmpbgeBytes (a b : Word) : Word :=
  ((((a ||| 0x8080808080808080) - (b &&& ~~~0x8080808080808080)) &&& ~~~(a ^^^ b)) |||
    (a &&& ~~~b)) &&& 0x8080808080808080

theorem lanes_80 : ∀ i < 8, lane 8 (0x8080808080808080 : Word) i = 0x80 := by decide

theorem lanes_01 : ∀ i < 8, lane 8 (0x0101010101010101 : Word) i = 1 := by decide

/-- One byte: with the top bit of `x` set and that of `y` clear there is no borrow, and the top bit
of the difference compares the rest. -/
theorem byte_no_borrow (x y : BitVec 8) : (y &&& ~~~0x80).toNat ≤ (x ||| 0x80).toNat := by
  have hx : ∀ x : BitVec 8, 128 ≤ (x ||| 0x80).toNat := by decide
  have hy : ∀ y : BitVec 8, (y &&& ~~~0x80).toNat ≤ 128 := by decide
  exact (hy y).trans (hx x)

theorem byte_sub_msb (x y : BitVec 8) : ((x ||| 0x80) - (y &&& ~~~0x80)).msb =
    decide (y.toNat % 128 ≤ x.toNat % 128) := by
  have hx : ∀ x : BitVec 8, (x ||| 0x80).toNat = 128 + x.toNat % 128 := by decide
  have hy : ∀ y : BitVec 8, (y &&& ~~~0x80).toNat = y.toNat % 128 := by decide
  rw [BitVec.msb_eq_decide,
    BitVec.toNat_sub_of_le (BitVec.le_def.2 (byte_no_borrow x y)), hx, hy]
  exact decide_eq_decide.2 (by omega)

theorem byte_ge (x y : BitVec 8) :
    (((((((x ||| 0x80) - (y &&& ~~~0x80)) &&& ~~~(x ^^^ y)) ||| (x &&& ~~~y)) >>> 7) &&& 1).toNat) =
      (decide (y ≤ x)).toNat := by
  have htop : ∀ z : BitVec 8, ((z >>> 7) &&& 1).toNat = z.msb.toNat := by decide
  have hx := x.isLt
  have hy := y.isLt
  rw [htop, BitVec.msb_or, BitVec.msb_and, BitVec.msb_and, BitVec.msb_not, BitVec.msb_not,
    BitVec.msb_xor, byte_sub_msb, BitVec.msb_eq_decide, BitVec.msb_eq_decide]
  change _ = (decide (y.toNat ≤ x.toNat)).toNat
  congr 1
  by_cases h1 : 2 ^ (8 - 1) ≤ x.toNat <;> by_cases h2 : 2 ^ (8 - 1) ≤ y.toNat <;>
    simp only [h1, h2, decide_true, decide_false, Bool.not_true, Bool.not_false, Bool.and_true,
      Bool.and_false, Bool.or_false, Bool.xor_self, Bool.xor_false, Bool.xor_true, Nat.reduceLT]
  · exact decide_eq_decide.2 (by omega)
  · exact (decide_eq_true (by omega)).symm
  · exact (decide_eq_false (by omega)).symm
  · exact decide_eq_decide.2 (by omega)

theorem cmpbgeBytes_lane {i : Nat} (hi : i < 8) : (lane 8 (cmpbgeBytes a b >>> 7) i).toNat =
    (decide (lane 8 b i ≤ lane 8 a i)).toNat := by
  have hor (j : Nat) (hj : j < 8) : lane 8 (a ||| 0x8080808080808080) j = lane 8 a j ||| 0x80 := by
    rw [lane_or, lanes_80 j hj]
  have hbic (j : Nat) (hj : j < 8) :
      lane 8 (b &&& ~~~0x8080808080808080) j = lane 8 b j &&& ~~~0x80 := by
    rw [lane_and, lane_not (by omega), lanes_80 j hj]
  have hsub : lane 8 ((a ||| 0x8080808080808080) - (b &&& ~~~0x8080808080808080)) i =
      (lane 8 a i ||| 0x80) - (lane 8 b i &&& ~~~0x80) := by
    rw [lane_sub (by omega), hor i hi, hbic i hi]
    intro j hj
    rw [hor j (by omega), hbic j (by omega)]
    exact byte_no_borrow _ _
  unfold cmpbgeBytes
  rw [BitVec.ushiftRight_and_distrib,
    show (0x8080808080808080 : Word) >>> 7 = 0x0101010101010101 from rfl, lane_shift_and,
    lanes_01 i hi, lane_or, lane_and, lane_and, lane_not (by omega), lane_not (by omega), lane_xor,
    hsub]
  · exact byte_ge _ _
  · rw [lanes_01 i hi]
    decide

/-- Bits put together by `or` are a sum of powers of two. -/
theorem foldl_or_toNat (p : Nat → Prop) [DecidablePred p] (n : Nat) (hn : n ≤ 8) :
    ((List.range n).foldl (fun m i => m ||| if p i then (1 : Word) <<< i else 0) 0).toNat =
      ∑ i ∈ Finset.range n, 2 ^ i * (decide (p i)).toNat ∧
    ∑ i ∈ Finset.range n, 2 ^ i * (decide (p i)).toNat < 2 ^ n := by
  induction n with
  | zero => exact ⟨rfl, Nat.one_pos⟩
  | succ n ih =>
    obtain ⟨he, hlt⟩ := ih (by omega)
    have hbit : (if p n then (1 : Word) <<< n else 0).toNat = 2 ^ n * (decide (p n)).toNat := by
      by_cases hp : p n
      · rw [if_pos hp, decide_eq_true hp, BitVec.toNat_shiftLeft, Nat.shiftLeft_eq]
        have : 2 ^ n < 2 ^ 64 := Nat.pow_lt_pow_right (by decide) (by omega)
        change 1 * 2 ^ n % 2 ^ 64 = 2 ^ n * 1
        rw [Nat.one_mul, Nat.mul_one, Nat.mod_eq_of_lt this]
      · rw [if_neg hp, decide_eq_false hp]
        rfl
    have hone : (decide (p n)).toNat ≤ 1 := Bool.toNat_le _
    rw [List.range_succ, List.foldl_append, List.foldl_cons, List.foldl_nil, BitVec.toNat_or, he,
      hbit, Finset.sum_range_succ, Nat.or_comm, ← Nat.two_pow_add_eq_or_of_lt hlt]
    refine ⟨Nat.add_comm _ _, ?_⟩
    have hle : 2 ^ n * (decide (p n)).toNat ≤ 2 ^ n := by
      calc 2 ^ n * (decide (p n)).toNat ≤ 2 ^ n * 1 := Nat.mul_le_mul_left _ hone
        _ = 2 ^ n := Nat.mul_one _
    rw [Nat.pow_succ]
    omega

/-- A byte of a register, as the loop reads it. -/
theorem byte_toNat (x : Word) (i : Nat) :
    ((x >>> (8 * i)) &&& 0xff).toNat = (lane 8 x i).toNat := by
  rw [toNat_lane, BitVec.toNat_and, BitVec.toNat_ushiftRight, Nat.shiftRight_eq_div_pow]
  exact Nat.and_two_pow_sub_one_eq_mod _ 8

/-- CMPBGE. -/
theorem cmpbge_eq (a b : Word) :
    ((cmpbgeBytes a b >>> 7) * 0x0102040810204080) >>> 56 = cmpbge a b := by
  have hp (i : Nat) : (b >>> (8 * i)) &&& 0xff ≤ (a >>> (8 * i)) &&& 0xff ↔
      lane 8 b i ≤ lane 8 a i := by
    rw [BitVec.le_def, byte_toNat, byte_toNat, BitVec.le_def]
  refine BitVec.eq_of_toNat_eq ?_
  unfold cmpbge
  simp only [hp]
  rw [(foldl_or_toNat (fun i => lane 8 b i ≤ lane 8 a i) 8 le_rfl).1, BitVec.toNat_ushiftRight,
    Nat.shiftRight_eq_div_pow, BitVec.mul_comm, BitVec.toNat_mul,
    show (0x0102040810204080 : Word).toNat = 0x0102040810204080 from rfl,
    toNat_eq_sum (w := 8) (x := cmpbgeBytes a b >>> 7) 8 (by decide),
    Finset.sum_congr rfl fun i hi => by rw [cmpbgeBytes_lane (Finset.mem_range.1 hi)]]
  exact gather_bytes fun i _ => Bool.toNat_le _

end Alphabox.Jit
