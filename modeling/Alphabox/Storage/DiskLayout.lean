import Alphabox.Lib.Numerals
import Mathlib.Algebra.Group.Nat.Defs

/-!
# The geometry of a disk (`devices/storage/Disk.cpp`)

`determine_layout` looks for the largest product of heads and sectors that divides the number of
blocks. Whether one number divides another is read off the counts of their prime factors, over a
table of primes; for the number of heads the counts are in a table.
-/

namespace Alphabox.Storage

/-- `primes_54`. -/
def primes54 : List Nat :=
  [2, 3, 5, 7, 11, 13, 17, 19, 23, 29, 31, 37, 41, 43, 47, 53, 59, 61, 67, 71, 73, 79, 83, 89, 97,
    101, 103, 107, 109, 113, 127, 131, 137, 139, 149, 151, 157, 163, 167, 173, 179, 181, 191, 193,
    197, 199, 211, 223, 227, 229, 233, 239, 241, 251]

/-- `pri16`: the counts of 2, 3, 5, 7, 11 and 13 in 16, 15 and so on down to 1. -/
def pri16 : List (List Nat) :=
  [[4, 0, 0, 0, 0, 0], [0, 1, 1, 0, 0, 0], [1, 0, 0, 1, 0, 0], [0, 0, 0, 0, 0, 1],
    [2, 1, 0, 0, 0, 0], [0, 0, 0, 0, 1, 0], [1, 0, 1, 0, 0, 0], [0, 2, 0, 0, 0, 0],
    [3, 0, 0, 0, 0, 0], [0, 0, 0, 1, 0, 0], [1, 1, 0, 0, 0, 0], [0, 0, 1, 0, 0, 0],
    [2, 0, 0, 0, 0, 0], [0, 1, 0, 0, 0, 0], [1, 0, 0, 0, 0, 0], [0, 0, 0, 0, 0, 0]]

/-- `MAX_HD`. -/
abbrev maxHd : Nat := 16

/-- `MAX_SEC`. -/
abbrev maxSec : Nat := 50

/-- How often `p` divides a value, and the value without it. The source asks nothing of the value,
and divides 0 for ever. -/
def divideOut (p value : Nat) : Nat × Nat :=
  if _h : 1 < p ∧ 0 < value ∧ value % p = 0 then
    let (n, rest) := divideOut p (value / p)
    (n + 1, rest)
  else (0, value)
termination_by value
decreasing_by exact Nat.div_lt_self _h.2.1 _h.1

/-- `get_primes` over a table of primes: their counts, and what is left of the value. -/
def getPrimes : List Nat → Nat → List Nat × Nat
  | [], value => ([], value)
  | p :: primes, value =>
    let (n, value) := divideOut p value
    let (counts, value) := getPrimes primes value
    (n :: counts, value)

/-- No count is above the other's in its place, as far as the first list goes. -/
def countsWithin (pri compare : List Nat) : Bool :=
  (pri.zip compare).all fun c => c.1 ≤ c.2

/-- The heads: the loop over `c_heads`, from a number of them down. -/
def findHeads (comparePrimes : List Nat) : Nat → Nat
  | 0 => 0
  | c + 1 =>
    if countsWithin (pri16.getD (16 - (c + 1)) []) comparePrimes then c + 1
    else findHeads comparePrimes c

/-- The loop over `heads_sectors`, from a product down, with the `c_heads` of the turn before. -/
def findProduct (diskPrimes : List Nat) : Nat → Nat → Nat × Nat
  | 0, cHeads => (0, cHeads)
  | n + 1, cHeads =>
    let (comparePrimes, rest) := getPrimes primes54 (n + 1)
    if 1 < rest then findProduct diskPrimes n cHeads
    else
      let cHeads := findHeads comparePrimes maxHd
      if maxSec < (n + 1) / cHeads then findProduct diskPrimes n cHeads
      else if countsWithin comparePrimes diskPrimes then (n + 1, cHeads)
      else findProduct diskPrimes n cHeads

structure DiskLayout where
  heads : Nat
  sectors : Nat
  cylinders : Nat
  deriving DecidableEq

/-- `determine_layout`, for a medium of so many blocks. -/
def determineLayout (lbaSize : Nat) : DiskLayout :=
  if lbaSize = 0 then ⟨1, 1, 0⟩
  else
    let (diskPrimes, _) := getPrimes primes54 lbaSize
    let (headsSectors, cHeads) := findProduct diskPrimes (maxSec * maxHd) 0
    let heads := cHeads
    let sectors := headsSectors / cHeads
    ⟨heads, sectors, lbaSize / heads / sectors⟩

end Alphabox.Storage
