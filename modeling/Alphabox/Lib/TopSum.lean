import Alphabox.Lib.Numerals
import Mathlib.Algebra.BigOperators.Group.List.Basic
import Mathlib.Algebra.GroupWithZero.Nat

/-!
# The largest sum of a few elements

In a list sorted by a weight, the heaviest first, no few elements weigh more than as many at its
front.
-/

namespace Lib

variable {α : Type*} [DecidableEq α] {f : α → Nat} {l s : List α} {k : Nat}

theorem sum_le_take (hl : l.Pairwise fun a b => f b ≤ f a) (hs : s.Nodup) (hsub : s ⊆ l)
    (hk : s.length ≤ k) : (s.map f).sum ≤ ((l.take k).map f).sum := by
  induction l generalizing s k with
  | nil =>
    rw [List.subset_nil.1 hsub]
    exact Nat.zero_le _
  | cons a l ih =>
    cases k with
    | zero =>
      rw [List.length_eq_zero_iff.1 (Nat.le_zero.1 hk)]
      exact Nat.zero_le _
    | succ k =>
      rw [List.take_succ_cons, List.map_cons, List.sum_cons]
      by_cases ha : a ∈ s
      · -- the front itself is one of them
        have hsub' : s.erase a ⊆ l := by
          intro b hb
          have hm := (List.Nodup.mem_erase_iff hs).1 hb
          exact (List.mem_cons.1 (hsub hm.2)).resolve_left hm.1
        have hlen : (s.erase a).length ≤ k := by
          rw [List.length_erase_of_mem ha]
          omega
        have h := ih (List.Pairwise.of_cons hl) (hs.erase a) hsub' hlen
        rw [← List.sum_map_erase f ha]
        omega
      · cases s with
        | nil => exact Nat.zero_le _
        | cons b s =>
          -- any of them weighs no more than the front
          have hsub' : b :: s ⊆ l := by
            intro c hc
            exact (List.mem_cons.1 (hsub hc)).resolve_left fun e => ha (e ▸ hc)
          have hb := List.rel_of_pairwise_cons hl (hsub' List.mem_cons_self)
          have h := ih (List.Pairwise.of_cons hl) hs.of_cons
            (fun c hc => hsub' (List.mem_cons_of_mem b hc)) (Nat.le_of_succ_le_succ hk)
          rw [List.map_cons, List.sum_cons]
          omega

end Lib
