import Mathlib.Data.Nat.Factorization.Basic
import Mathlib.Data.Nat.GCD.BigOperators
import Mathlib.Order.Bounds.Defs
import Mathlib.Tactic.NormNum.Prime
import Alphabox.Storage.DiskLayout

/-!
# The geometry of a disk: exactness

`get_primes` counts what the factorization of a value says, so that comparing counts decides
divisibility for every value whose primes are in the table. The products that the table leaves out
have a prime above 251 and are too tall for 16 heads.
-/

namespace Alphabox.Storage

/-! ## Counting -/

section

variable {p n m k : Nat}

theorem divideOut_pow_mul (hp : 1 < p) (hm : 0 < m) (h : ¬p ∣ m) :
    divideOut p (p ^ k * m) = (k, m) := by
  induction k with
  | zero =>
    rw [pow_zero, Nat.one_mul, divideOut, dif_neg fun h0 => h (Nat.dvd_of_mod_eq_zero h0.2.2)]
  | succ k ih =>
    have hsucc : p ^ (k + 1) * m = p * (p ^ k * m) := by rw [pow_succ', Nat.mul_assoc]
    have hpos : 0 < p * (p ^ k * m) :=
      Nat.mul_pos (by omega) (Nat.mul_pos (Nat.pow_pos (by omega)) hm)
    rw [hsucc, divideOut, dif_pos ⟨hp, hpos, Nat.mul_mod_right p _⟩,
      Nat.mul_div_cancel_left _ (by omega), ih]

/-- The count is the one of the factorization, and the rest has every other prime still. -/
theorem divideOut_spec (hp : p.Prime) (hn : n ≠ 0) :
    (divideOut p n).1 = n.factorization p ∧ (divideOut p n).2 ≠ 0 ∧
    ∀ q, (divideOut p n).2.factorization q = if q = p then 0 else n.factorization q := by
  obtain ⟨k, m, hm, rfl⟩ := Nat.exists_eq_pow_mul_and_not_dvd hn p hp.ne_one
  have hm0 : m ≠ 0 := fun h => hm (h ▸ dvd_zero p)
  have hpk : p ^ k ≠ 0 := pow_ne_zero k hp.ne_zero
  rw [divideOut_pow_mul hp.one_lt (Nat.pos_of_ne_zero hm0) hm]
  have hf (q : Nat) : (p ^ k * m).factorization q = (if q = p then k else 0) + m.factorization q := by
    rw [Nat.factorization_mul hpk hm0, Nat.Prime.factorization_pow hp, Finsupp.add_apply,
      Finsupp.single_apply]
    simp only [eq_comm]
  have hz : m.factorization p = 0 := Nat.factorization_eq_zero_of_not_dvd hm
  refine ⟨by rw [hf, if_pos rfl, hz]; rfl, hm0, fun q => ?_⟩
  rw [hf q]
  by_cases hq : q = p
  · rw [if_pos hq, hq, hz]
  · rw [if_neg hq, if_neg hq, Nat.zero_add]

end

theorem getPrimes_spec {primes : List Nat} (hp : ∀ p ∈ primes, p.Prime) (hnd : primes.Nodup) {n : Nat}
    (hn : n ≠ 0) : (getPrimes primes n).1 = primes.map n.factorization ∧ (getPrimes primes n).2 ≠ 0 ∧
    ∀ q, (getPrimes primes n).2.factorization q = if q ∈ primes then 0 else n.factorization q := by
  induction primes generalizing n with
  | nil => exact ⟨rfl, hn, fun q => by simp [getPrimes]⟩
  | cons p primes ih =>
    obtain ⟨hp0, hps⟩ := List.forall_mem_cons.1 hp
    obtain ⟨hnot, hnd⟩ := List.nodup_cons.1 hnd
    obtain ⟨h1, h2, h3⟩ := divideOut_spec hp0 hn
    obtain ⟨ih1, ih2, ih3⟩ := ih hps hnd h2
    refine ⟨?_, ih2, fun q => ?_⟩
    · show (divideOut p n).1 :: (getPrimes primes (divideOut p n).2).1 = _
      rw [h1, ih1, List.map_cons]
      congr 1
      refine List.map_congr_left fun q hq => ?_
      rw [h3, if_neg (show ¬q = p from fun h => hnot (h ▸ hq))]
    · show (getPrimes primes (divideOut p n).2).2.factorization q = _
      rw [ih3, h3]
      by_cases hq : q ∈ primes
      · rw [if_pos hq, if_pos (List.mem_cons_of_mem p hq)]
      · by_cases hqp : q = p
        · rw [if_neg hq, if_pos hqp, if_pos (hqp ▸ List.mem_cons_self)]
        · rw [if_neg hq, if_neg hqp, if_neg (by simp [hq, hqp])]

/-! ## The table of primes -/

theorem primes54_prime : ∀ p ∈ primes54, p.Prime := by
  unfold primes54
  simp only [List.forall_mem_cons]
  norm_num

theorem primes54_nodup : primes54.Nodup := by decide

theorem mem_primes54 {p : Nat} (hp : p.Prime) (h : p < 257) : p ∈ primes54 := by
  have hall : ∀ n < 257, n ∈ primes54 ∨ n < 2 ∨ ∃ d ∈ [2, 3, 5, 7, 11, 13], d < n ∧ n % d = 0 := by
    decide +kernel
  obtain hmem | hlt | ⟨d, hd, hdp, hmod⟩ := hall p h
  · exact hmem
  · exact absurd hp.two_le (by omega)
  · have hd1 : d ≠ 1 := by
      rintro rfl
      simp at hd
    obtain h1 | h1 := hp.eq_one_or_self_of_dvd d (Nat.dvd_of_mod_eq_zero hmod)
    · exact absurd h1 hd1
    · omega

/-! ## Comparing counts -/

theorem countsWithin_map (ps : List Nat) (f g : Nat → Nat) :
    countsWithin (ps.map f) (ps.map g) = true ↔ ∀ p ∈ ps, f p ≤ g p := by
  induction ps with
  | nil => simp [countsWithin]
  | cons p ps ih =>
    rw [List.forall_mem_cons, ← ih]
    simp [countsWithin]

theorem mem_zipWith_pow {ps ks : List Nat} {q : Nat}
    (h : q ∈ List.zipWith (fun p k => p ^ k) ps ks) : ∃ p k, p ∈ ps ∧ k ∈ ks ∧ q = p ^ k := by
  rw [← List.map_uncurry_zip_eq_zipWith, List.mem_map] at h
  obtain ⟨⟨p, k⟩, hpk, rfl⟩ := h
  exact ⟨p, k, (List.of_mem_zip hpk).1, (List.of_mem_zip hpk).2, rfl⟩

/-- Counts compared with those of a number: the product of the powers divides it. -/
theorem countsWithin_iff_prod_dvd {ps : List Nat} (hp : ∀ p ∈ ps, p.Prime) (hnd : ps.Nodup) {n : Nat}
    (hn : n ≠ 0) (ks : List Nat) : countsWithin ks (ps.map n.factorization) = true ↔
      (List.zipWith (fun p k => p ^ k) ps ks).prod ∣ n := by
  induction ps generalizing ks with
  | nil => cases ks <;> simp [countsWithin]
  | cons p ps ih =>
    cases ks with
    | nil => simp [countsWithin]
    | cons k ks =>
      obtain ⟨hp0, hps⟩ := List.forall_mem_cons.1 hp
      obtain ⟨hnot, hnd⟩ := List.nodup_cons.1 hnd
      have hcop : (p ^ k).Coprime (List.zipWith (fun p k => p ^ k) ps ks).prod := by
        refine Nat.Coprime.pow_left k (Nat.coprime_list_prod_right_iff.2 fun q hq => ?_)
        obtain ⟨r, j, hr, -, rfl⟩ := mem_zipWith_pow hq
        exact Nat.Coprime.pow_right j
          ((Nat.coprime_primes hp0 (hps r hr)).2 fun h => hnot (h ▸ hr))
      have hhead : countsWithin (k :: ks) ((p :: ps).map n.factorization) = true ↔
          k ≤ n.factorization p ∧ countsWithin ks (ps.map n.factorization) = true := by
        simp [countsWithin]
      rw [hhead, ih hps hnd, ← hp0.pow_dvd_iff_le_factorization hn, List.zipWith_cons_cons,
        List.prod_cons]
      exact ⟨fun h => hcop.mul_dvd_of_dvd_of_dvd h.1 h.2,
        fun h => ⟨(Dvd.intro _ rfl).trans h, (Dvd.intro_left _ rfl).trans h⟩⟩

/-! ## The search -/

/-- The largest divisor of `n` that is a number of heads. -/
def GreatestHeads (n h : Nat) : Prop := IsGreatest {h | h ∣ n ∧ h ≤ maxHd} h

/-- A product of heads and sectors for so many blocks. -/
def Fits (lbaSize n : Nat) : Prop := n ∣ lbaSize ∧ ∀ h, GreatestHeads n h → n / h ≤ maxSec

section

variable {n : Nat}

theorem getPrimes_counts (hn : n ≠ 0) :
    (getPrimes primes54 n).1 = primes54.map n.factorization :=
  (getPrimes_spec primes54_prime primes54_nodup hn).1

/-- What the table of heads says: each row stands for its number. -/
theorem pri16_prod : ∀ c ∈ List.range' 1 16,
    (List.zipWith (fun p k => p ^ k) primes54 (pri16.getD (16 - c) [])).prod = c := by
  decide

theorem findHeads_succ (hn : n ≠ 0) {c : Nat} (hc : c < 16) :
    findHeads (primes54.map n.factorization) (c + 1) =
      if c + 1 ∣ n then c + 1 else findHeads (primes54.map n.factorization) c := by
  have hrow := pri16_prod (c + 1) (List.mem_range'_1.2 ⟨by omega, by omega⟩)
  have hiff := countsWithin_iff_prod_dvd primes54_prime primes54_nodup hn
    (pri16.getD (16 - (c + 1)) [])
  rw [hrow] at hiff
  rw [findHeads]
  simp only [hiff]

theorem findHeads_spec (hn : n ≠ 0) {c : Nat} (hc : c < 16) :
    IsGreatest {h | h ∣ n ∧ h ≤ c + 1} (findHeads (primes54.map n.factorization) (c + 1)) := by
  induction c with
  | zero =>
    rw [findHeads_succ hn hc, Nat.zero_add, if_pos (one_dvd n)]
    exact ⟨⟨one_dvd n, Nat.le_refl 1⟩, fun h hh => hh.2⟩
  | succ c ih =>
    rw [findHeads_succ hn hc]
    split
    · rename_i hdvd
      exact ⟨⟨hdvd, Nat.le_refl _⟩, fun h hh => hh.2⟩
    · rename_i hdvd
      obtain ⟨⟨h1, h2⟩, hmax⟩ := ih (by omega)
      refine ⟨⟨h1, by omega⟩, fun h hh => hmax ⟨hh.1, ?_⟩⟩
      have hne : h ≠ c + 1 + 1 := fun he => hdvd (he ▸ hh.1)
      have := hh.2
      omega

theorem findHeads_greatest (hn : n ≠ 0) :
    GreatestHeads n (findHeads (primes54.map n.factorization) maxHd) :=
  findHeads_spec hn (by decide)

theorem GreatestHeads.unique {h h' : Nat} (hh : GreatestHeads n h) (hh' : GreatestHeads n h') :
    h = h' :=
  Nat.le_antisymm (hh'.2 hh.1) (hh.2 hh'.1)

theorem GreatestHeads.pos (hn : n ≠ 0) {h : Nat} (hh : GreatestHeads n h) : 0 < h :=
  Nat.pos_of_dvd_of_pos hh.1.1 (Nat.pos_of_ne_zero hn)

/-- A product with a prime outside the table is too tall. -/
theorem not_fits_of_rest (hn : n ≠ 0) (hrest : 1 < (getPrimes primes54 n).2) (lbaSize : Nat) :
    ¬Fits lbaSize n := by
  obtain ⟨-, -, hf⟩ := getPrimes_spec primes54_prime primes54_nodup hn
  obtain ⟨q, hq, hdvd⟩ := Nat.exists_prime_and_dvd (Nat.ne_of_gt hrest)
  have hpos := hq.factorization_pos_of_dvd (by omega) hdvd
  rw [hf] at hpos
  have hmem : q ∉ primes54 := fun h => by simp [h] at hpos
  rw [if_neg hmem] at hpos
  have hqn : q ∣ n := Nat.dvd_of_factorization_pos (Nat.ne_of_gt hpos)
  have hbig : 257 ≤ q := by
    by_contra h
    exact hmem (mem_primes54 hq (by omega))
  intro hfits
  have hh := findHeads_greatest hn
  have hle : _ ≤ 50 := hfits.2 _ hh
  generalize findHeads (primes54.map n.factorization) maxHd = h at hh hle
  have hhpos := hh.pos hn
  have hh16 : h ≤ 16 := hh.1.2
  have hcop : q.Coprime h :=
    hq.coprime_iff_not_dvd.2 (Nat.not_dvd_of_pos_of_lt hhpos (by omega))
  have hmul : q * h ≤ n :=
    Nat.le_of_dvd (Nat.pos_of_ne_zero hn) (hcop.mul_dvd_of_dvd_of_dvd hqn hh.1.1)
  have := (Nat.le_div_iff_mul_le hhpos).2 hmul
  omega

/-- A product within the table divides the blocks exactly when its counts are within theirs. -/
theorem countsWithin_iff_dvd (hn : n ≠ 0) {lbaSize : Nat} (hL : lbaSize ≠ 0)
    (hrest : ¬1 < (getPrimes primes54 n).2) :
    countsWithin (getPrimes primes54 n).1 (getPrimes primes54 lbaSize).1 = true ↔ n ∣ lbaSize := by
  obtain ⟨-, h0, hf⟩ := getPrimes_spec primes54_prime primes54_nodup hn
  have h1 : (getPrimes primes54 n).2 = 1 := by omega
  rw [getPrimes_counts hn, getPrimes_counts hL, countsWithin_map,
    ← Nat.factorization_prime_le_iff_dvd hn hL]
  constructor
  · intro h p hp
    by_cases hmem : p ∈ primes54
    · exact h p hmem
    · have := hf p
      rw [if_neg hmem, h1, Nat.factorization_one] at this
      simp [← this]
  · intro h p hp
    exact h p (primes54_prime p hp)

end

theorem findProduct_succ (diskPrimes : List Nat) (n cHeads : Nat) :
    findProduct diskPrimes (n + 1) cHeads =
      let h := findHeads (getPrimes primes54 (n + 1)).1 maxHd
      if 1 < (getPrimes primes54 (n + 1)).2 then findProduct diskPrimes n cHeads
      else if maxSec < (n + 1) / h then findProduct diskPrimes n h
      else if countsWithin (getPrimes primes54 (n + 1)).1 diskPrimes then (n + 1, h)
      else findProduct diskPrimes n h :=
  rfl

section

variable {lbaSize n : Nat} (cHeads : Nat)

/-- A product that fits ends the loop. -/
theorem findProduct_fits (hL : lbaSize ≠ 0) (hfit : Fits lbaSize (n + 1)) :
    ∃ h, findProduct (getPrimes primes54 lbaSize).1 (n + 1) cHeads = (n + 1, h) ∧
      GreatestHeads (n + 1) h := by
  have hn : n + 1 ≠ 0 := Nat.succ_ne_zero n
  have hh := findHeads_greatest hn
  have hrest : ¬1 < (getPrimes primes54 (n + 1)).2 := fun h => not_fits_of_rest hn h lbaSize hfit
  rw [findProduct_succ]
  dsimp only
  rw [if_neg hrest, if_pos ((countsWithin_iff_dvd hn hL hrest).2 hfit.1), getPrimes_counts hn,
    if_neg (Nat.not_lt.2 (hfit.2 _ hh))]
  exact ⟨_, rfl, hh⟩

/-- Any other is passed over. -/
theorem findProduct_skips (hL : lbaSize ≠ 0) (hfit : ¬Fits lbaSize (n + 1)) :
    ∃ h, findProduct (getPrimes primes54 lbaSize).1 (n + 1) cHeads =
      findProduct (getPrimes primes54 lbaSize).1 n h := by
  have hn : n + 1 ≠ 0 := Nat.succ_ne_zero n
  have hh := findHeads_greatest hn
  rw [findProduct_succ]
  dsimp only
  split
  · exact ⟨_, rfl⟩
  · rename_i hrest
    split
    · exact ⟨_, rfl⟩
    · rename_i htall
      rw [if_neg]
      · exact ⟨_, rfl⟩
      · rw [countsWithin_iff_dvd hn hL hrest]
        rw [getPrimes_counts hn] at htall
        exact fun hdvd => hfit ⟨hdvd, fun h hg => hg.unique hh ▸ Nat.not_lt.1 htall⟩

theorem fits_one (lbaSize : Nat) : Fits lbaSize 1 :=
  ⟨one_dvd _, fun h _ => (Nat.div_le_self 1 h).trans (by decide)⟩

/-- The loop ends with the largest product that fits, and its heads. -/
theorem findProduct_spec (hL : lbaSize ≠ 0) : ∃ m h,
    findProduct (getPrimes primes54 lbaSize).1 (n + 1) cHeads = (m, h) ∧
      IsGreatest {m | Fits lbaSize m ∧ m ≤ n + 1} m ∧ GreatestHeads m h := by
  induction n generalizing cHeads with
  | zero =>
    obtain ⟨h, heq, hh⟩ := findProduct_fits cHeads hL (fits_one lbaSize)
    exact ⟨1, h, heq, ⟨⟨fits_one lbaSize, Nat.le_refl 1⟩, fun m hm => hm.2⟩, hh⟩
  | succ n ih =>
    by_cases hfit : Fits lbaSize (n + 1 + 1)
    · obtain ⟨h, heq, hh⟩ := findProduct_fits cHeads hL hfit
      exact ⟨_, h, heq, ⟨⟨hfit, Nat.le_refl _⟩, fun m hm => hm.2⟩, hh⟩
    · obtain ⟨c, heq⟩ := findProduct_skips cHeads hL hfit
      obtain ⟨m, h, hm, ⟨⟨hfm, hle⟩, hmax⟩, hh⟩ := ih c
      refine ⟨m, h, heq.trans hm, ⟨⟨hfm, by omega⟩, fun k hk => hmax ⟨hk.1, ?_⟩⟩, hh⟩
      have hne : k ≠ n + 1 + 1 := fun he => hfit (he ▸ hk.1)
      have := hk.2
      omega

end

/-! ## The layout -/

/-- **Exact geometry.** The heads and the sectors are in their bounds, the cylinders make up all
blocks and no more, and no larger product of heads and sectors would do. -/
theorem layout_exact {lbaSize : Nat} (hL : 0 < lbaSize) :
    let d := determineLayout lbaSize
    (1 ≤ d.heads ∧ d.heads ≤ 16) ∧ (1 ≤ d.sectors ∧ d.sectors ≤ 50) ∧
    d.heads * d.sectors * d.cylinders = lbaSize ∧
    IsGreatest {n | n ∣ lbaSize ∧ n ≤ 800 ∧
      ∀ h, IsGreatest {h | h ∣ n ∧ h ≤ 16} h → n / h ≤ 50} (d.heads * d.sectors) := by
  obtain ⟨m, h, heq, ⟨⟨hfit, hle⟩, hmax⟩, hh⟩ :=
    findProduct_spec (n := maxSec * maxHd - 1) 0 (Nat.ne_of_gt hL)
  have hm : m ≠ 0 := fun h0 => by
    rw [h0] at hfit
    exact Nat.ne_of_gt hL (Nat.zero_dvd.1 hfit.1)
  have hlay : determineLayout lbaSize = ⟨h, m / h, lbaSize / h / (m / h)⟩ := by
    rw [determineLayout, if_neg (Nat.ne_of_gt hL)]
    dsimp only
    rw [show maxSec * maxHd = maxSec * maxHd - 1 + 1 from rfl, heq]
  have hpos := hh.pos hm
  have hmul : h * (m / h) = m := Nat.mul_div_cancel' hh.1.1
  rw [hlay]
  refine ⟨⟨hpos, hh.1.2⟩, ⟨?_, hfit.2 h hh⟩, ?_, ?_⟩
  · exact Nat.div_pos (Nat.le_of_dvd (Nat.pos_of_ne_zero hm) hh.1.1) hpos
  · dsimp only
    rw [Nat.div_div_eq_div_mul, hmul, Nat.mul_div_cancel' hfit.1]
  · dsimp only
    rw [hmul]
    exact ⟨⟨hfit.1, hle, hfit.2⟩, fun k hk => hmax ⟨⟨hk.1, hk.2.2⟩, hk.2.1⟩⟩

/-- A medium of 4110480 blocks. -/
theorem layout_exact_rz28 : (determineLayout 4110480).heads * (determineLayout 4110480).sectors *
    (determineLayout 4110480).cylinders = 4110480 :=
  (layout_exact (by decide)).2.2.1

end Alphabox.Storage
