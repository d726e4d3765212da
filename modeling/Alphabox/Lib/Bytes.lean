import Alphabox.Lib.Numerals
import Mathlib.Algebra.GroupWithZero.Nat
import Mathlib.Data.List.Basic
import Mathlib.Logic.Function.Basic

/-!
# Bytes in an address space

A memory is a function from addresses to bytes; addresses wrap at `w`. `store` and `fetch` move
lists of bytes, `leBytes` and `leNat` are little-endian numbers.
-/

namespace Lib

/-! ## Little-endian numbers -/

/-- The number some bytes hold, the least significant first. -/
def leNat : List (BitVec 8) → Nat
  | [] => 0
  | b :: bs => b.toNat + 256 * leNat bs

/-- The `n` low bytes of a number, the least significant first. -/
def leBytes : Nat → Nat → List (BitVec 8)
  | 0, _ => []
  | n + 1, v => BitVec.ofNat 8 v :: leBytes n (v / 256)

@[simp] theorem length_leBytes (n v : Nat) : (leBytes n v).length = n := by
  induction n generalizing v with
  | zero => rfl
  | succ n ih => rw [leBytes, List.length_cons, ih]

theorem leNat_leBytes (n v : Nat) : leNat (leBytes n v) = v % 256 ^ n := by
  induction n generalizing v with
  | zero => simp [leBytes, leNat, Nat.mod_one]
  | succ n ih =>
    rw [leBytes, leNat, ih, BitVec.toNat_ofNat, Nat.pow_succ' (m := 256), Nat.mod_mul]

/-- Only the low bytes of the number count. -/
theorem leBytes_mod (n v : Nat) : leBytes n (v % 256 ^ n) = leBytes n v := by
  induction n generalizing v with
  | zero => rfl
  | succ n ih =>
    rw [leBytes, leBytes, Nat.pow_succ' (m := 256), Nat.mod_mul_right_div_self, ih]
    congr 1
    apply BitVec.eq_of_toNat_eq
    rw [BitVec.toNat_ofNat, BitVec.toNat_ofNat]
    exact Nat.mod_mul_right_mod v 256 (256 ^ n)

/-- The bytes that follow count for more. -/
theorem leNat_append (bs cs : List (BitVec 8)) :
    leNat (bs ++ cs) = leNat bs + 256 ^ bs.length * leNat cs := by
  induction bs with
  | nil => simp [leNat]
  | cons b bs ih =>
    rw [List.cons_append, leNat, ih, leNat, List.length_cons, Nat.pow_succ', Nat.mul_add,
      Nat.mul_assoc, Nat.add_assoc]

theorem leNat_lt (bs : List (BitVec 8)) : leNat bs < 256 ^ bs.length := by
  induction bs with
  | nil => simp [leNat]
  | cons b bs ih =>
    have := b.isLt
    rw [leNat, List.length_cons, Nat.pow_succ]
    omega

/-! ## Memory -/

variable {w a n : Nat} {m m' : Nat → BitVec 8} {bs : List (BitVec 8)}

/-- Bytes are written from `a` on. -/
def store (w : Nat) (m : Nat → BitVec 8) (a : Nat) : List (BitVec 8) → Nat → BitVec 8
  | [] => m
  | b :: bs => store w (Function.update m (a % w) b) (a + 1) bs

/-- `n` bytes from `a` on. -/
def fetch (w : Nat) (m : Nat → BitVec 8) (a n : Nat) : List (BitVec 8) :=
  (List.range n).map fun i => m ((a + i) % w)

/-- A store leaves the other addresses. -/
theorem store_other {x : Nat} (h : ∀ i < bs.length, (a + i) % w ≠ x) : store w m a bs x = m x := by
  induction bs generalizing a m with
  | nil => rfl
  | cons b bs ih =>
    rw [store, ih, Function.update_of_ne]
    · have := h 0 (by simp)
      simpa using this.symm
    · intro i hi
      have := h (i + 1) (by simpa using hi)
      rwa [show a + 1 + i = a + (i + 1) by omega]

theorem store_at {i : Nat} (h : a + bs.length ≤ w) (hi : i < bs.length) :
    store w m a bs (a + i) = bs[i] := by
  induction bs generalizing a m i with
  | nil => simp at hi
  | cons b bs ih =>
    rw [List.length_cons] at h
    rw [store]
    cases i with
    | zero =>
      rw [store_other, Nat.add_zero, Nat.mod_eq_of_lt (by omega), Function.update_self]
      · rfl
      · intro j hj
        rw [Nat.mod_eq_of_lt (by omega)]
        omega
    | succ i =>
      have := ih (a := a + 1) (m := Function.update m (a % w) b) (i := i) (by omega)
        (by simpa using hi)
      rw [show a + (i + 1) = a + 1 + i by omega, this]
      rfl

theorem fetch_store (h : a + bs.length ≤ w) : fetch w (store w m a bs) a bs.length = bs := by
  unfold fetch
  refine List.ext_getElem (by simp) fun i hi _ => ?_
  rw [List.length_map, List.length_range] at hi
  rw [List.getElem_map, List.getElem_range, Nat.mod_eq_of_lt (by omega), store_at h hi]

theorem fetch_congr {b : Nat} (h : ∀ i < n, m ((b + i) % w) = m' ((b + i) % w)) :
    fetch w m b n = fetch w m' b n := by
  unfold fetch
  refine List.map_congr_left fun i hi => h i (List.mem_range.mp hi)

/-- A store elsewhere leaves what is fetched. -/
theorem fetch_store_other {b : Nat} (h : ∀ i < bs.length, ∀ j < n, (a + i) % w ≠ (b + j) % w) :
    fetch w (store w m a bs) b n = fetch w m b n :=
  fetch_congr fun j hj => store_other fun i hi => h i hi j hj

/-- Stretches that do not wrap and do not overlap. -/
theorem fetch_store_apart {b : Nat} (ha : a + bs.length ≤ w) (hb : b + n ≤ w)
    (h : a + bs.length ≤ b ∨ b + n ≤ a) : fetch w (store w m a bs) b n = fetch w m b n := by
  refine fetch_store_other fun i hi j hj => ?_
  rw [Nat.mod_eq_of_lt (by omega), Nat.mod_eq_of_lt (by omega)]
  omega

end Lib
