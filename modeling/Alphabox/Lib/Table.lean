import Alphabox.Lib.Numerals
import Mathlib.Data.List.Basic
import Mathlib.Logic.Function.Basic

/-!
# Tables

A table of rows is a function of two arguments, and one cell of it changes at a time.

A set of a small associative table is a list of ways, `none` for an empty one. It is packed when
no way in use follows an empty one, so that a probe may stop at the first empty way.
-/

namespace Lib

/-! ## Rows -/

section Rows

variable {ι κ β : Type*} [DecidableEq ι] [DecidableEq κ] {f : ι → κ → β} {i j : ι} {k l : κ} {x : β}

theorem update_row_apply : Function.update f i (Function.update (f i) k x) j l =
    if j = i ∧ l = k then x else f j l := by
  by_cases hj : j = i
  · subst hj
    simp [Function.update_apply]
  · simp [hj]

theorem exists_update {g : ι → β} {P : β → Prop} (h : P (g i) → P x) (hg : ∃ j, P (g j)) :
    ∃ j, P (Function.update g i x j) := by
  obtain ⟨j, hj⟩ := hg
  by_cases hji : j = i
  · subst hji
    exact ⟨j, by rw [Function.update_self]; exact h hj⟩
  · exact ⟨j, by rwa [Function.update_of_ne hji]⟩

end Rows

/-! ## Packed ways -/

variable {α : Type*} {w : List (Option α)} {x : α} {k : Nat}

/-- The ways in use, in probe order: the probe stops at the first empty way. -/
def front (w : List (Option α)) : List α := (w.takeWhile Option.isSome).filterMap id

/-- No way in use follows an empty one. -/
def Packed (w : List (Option α)) : Prop := w.Pairwise fun x y => x = none → y = none

theorem Packed.mem_front (h : Packed w) : x ∈ front w ↔ some x ∈ w := by
  induction w with
  | nil => simp [front]
  | cons y w ih =>
    obtain ⟨hy, hw⟩ := List.pairwise_cons.mp h
    cases y with
    | none =>
      have hn : some x ∉ w := fun hm => by cases hy _ hm rfl
      simp [front, hn]
    | some y =>
      have hf : front (some y :: w) = y :: front w := rfl
      simp [hf, ih hw]

theorem packed_replicate (n : Nat) : Packed (List.replicate n (none : Option α)) :=
  List.pairwise_replicate.mpr (Or.inr fun _ => rfl)

theorem Packed.cons (h : Packed w) : Packed (some x :: w) :=
  List.Pairwise.cons (fun _ _ hn => nomatch hn) h

theorem Packed.eraseIdx (h : Packed w) : Packed (w.eraseIdx k) :=
  List.Pairwise.sublist (List.eraseIdx_sublist w k) h

theorem Packed.append_none (h : Packed w) : Packed (w ++ [none]) := by
  refine List.pairwise_append.mpr ⟨h, by simp, ?_⟩
  simp

/-- Erasing a way loses only what it holds. -/
theorem mem_eraseIdx_of_ne {o : Option α} (h : o ∈ w) (hk : w[k]? ≠ some o) :
    o ∈ w.eraseIdx k := by
  obtain ⟨i, hi⟩ := List.mem_iff_getElem?.mp h
  refine List.mem_eraseIdx_iff_getElem?.mpr ⟨i, ?_, hi⟩
  rintro rfl
  exact hk hi

end Lib
