import Alphabox.Lib.Numerals
import Mathlib.Algebra.BigOperators.Fin

/-!
# Counting over a table

How the number of cells with a property changes when one cell does.
-/

namespace Lib

variable {ι α : Type*} [DecidableEq ι]

theorem sum_update {s : Finset ι} {i : ι} (hi : i ∈ s) (f : ι → α) (g : α → Nat) (x : α) :
    ∑ j ∈ s, g (Function.update f i x j) + g (f i) = ∑ j ∈ s, g (f j) + g x := by
  have hu : (fun j => g (Function.update f i x j)) = Function.update (fun j => g (f j)) i (g x) := by
    funext j
    by_cases hj : j = i
    · subst hj
      simp
    · simp [hj]
  have hs := Finset.sum_update_of_mem hi (fun j => g (f j)) (g x)
  have ha := Finset.add_sum_erase s (fun j => g (f j)) hi
  rw [hu, hs, ← ha, Finset.sdiff_singleton_eq_erase]
  omega

theorem le_sum [Fintype ι] (f : ι → α) (g : α → Nat) (i : ι) : g (f i) ≤ ∑ j, g (f j) := by
  rw [← Finset.add_sum_erase Finset.univ (fun j => g (f j)) (Finset.mem_univ i)]
  omega

end Lib
