import Alphabox.Lib.Numerals
import Mathlib.Data.List.Basic

/-!
# Lists of keyed entries

A value put under a key takes the place of the first one there, or goes to the end: an entry keeps
its place in the list for good.
-/

namespace Lib.Keyed

variable {κ β : Type*} [DecidableEq κ] {l : List (κ × β)} {k k' : κ} {v : β}

/-- The value goes where the key stands first, or to the end. -/
def put (k : κ) (v : β) : List (κ × β) → List (κ × β)
  | [] => [(k, v)]
  | e :: l => if e.1 = k then (k, v) :: l else e :: put k v l

/-- The first value under a key. -/
def find (l : List (κ × β)) (k : κ) : Option β := (l.find? fun e => e.1 = k).map Prod.snd

theorem find_cons (e : κ × β) : find (e :: l) k = if e.1 = k then some e.2 else find l k := by
  by_cases h : e.1 = k <;> simp [find, h]

theorem find_put : find (put k v l) k' = if k = k' then some v else find l k' := by
  induction l with
  | nil => rw [put, find_cons]
  | cons e l ih =>
    rw [put]
    by_cases he : e.1 = k
    · rw [if_pos he, find_cons, find_cons]
      by_cases hk : k = k'
      · simp [hk]
      · simp [hk, he]
    · rw [if_neg he, find_cons, find_cons, ih]
      by_cases hk : k = k'
      · subst hk
        simp [he]
      · simp [hk]

end Lib.Keyed
