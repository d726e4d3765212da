/-!
# Numerals

A numeral of `Fin n` holds a proof of `n ≠ 0`. Found as `Nat.instNeZeroSucc` it becomes an auxiliary
lemma of the first definition that needs it, one for each module. These constants take its place, so
that a numeral is the same term wherever it is written.
-/

namespace Lib

instance neZeroOne : @NeZero Nat Zero.ofOfNat0 1 := ⟨by decide⟩

instance neZeroTwo : @NeZero Nat Zero.ofOfNat0 2 := ⟨by decide⟩

instance neZeroThree : @NeZero Nat Zero.ofOfNat0 3 := ⟨by decide⟩

instance neZeroFour : @NeZero Nat Zero.ofOfNat0 4 := ⟨by decide⟩

instance neZeroSix : @NeZero Nat Zero.ofOfNat0 6 := ⟨by decide⟩

instance neZeroSeven : @NeZero Nat Zero.ofOfNat0 7 := ⟨by decide⟩

instance neZeroEight : @NeZero Nat Zero.ofOfNat0 8 := ⟨by decide⟩

instance neZeroTbEntries : @NeZero Nat Zero.ofOfNat0 128 := ⟨by decide⟩

end Lib
