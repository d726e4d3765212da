import Alphabox.System.InterruptLines
import Mathlib.Data.List.Nodup
import Mathlib.Data.List.Perm.Basic

/-!
# An interrupt input is the OR of its sources

The list has the requests last driven high, each once: removing one moves the last one into its
place, which is a permutation of the others.
-/

namespace Alphabox.System

namespace InterruptLines

/-! ## Removal -/

/-- The last element moved to the place of another: the list without that one, in another order. -/
theorem removeAt_perm {on : List IrqRequest} {i : Nat} (hi : i < on.length) :
    (removeAt on i).Perm (on.eraseIdx i) := by
  obtain ⟨front, last, rfl⟩ : ∃ front last, on = front ++ [last] :=
    ⟨on.dropLast, on.getLast (List.ne_nil_of_length_pos (by omega)),
      (List.dropLast_append_getLast _).symm⟩
  rw [List.length_append, List.length_singleton] at hi
  simp only [removeAt, List.getLast?_append, List.getLast?_singleton, Option.some_or]
  by_cases hlast : i = front.length
  · subst hlast
    rw [List.eraseIdx_append_of_length_le (Nat.le_refl _)]
    simp
  · have hlt : i < front.length := by omega
    rw [List.set_append_left _ _ hlt, List.dropLast_concat, List.eraseIdx_append_of_lt_length hlt,
      List.set_eq_take_append_cons_drop, if_pos hlt, List.eraseIdx_eq_take_drop_succ]
    exact (List.perm_middle.trans (List.perm_append_singleton _ _).symm)

variable {l : InterruptLines} {r x : IrqRequest}

theorem find_eq_length : l.find r = l.on.length ↔ r ∉ l.on := List.idxOf_eq_length_iff

theorem find_lt : l.find r ≠ l.on.length ↔ l.find r < l.on.length := by
  have : l.find r ≤ l.on.length := List.findIdx_le_length
  omega

theorem removeAt_find (h : l.find r ≠ l.on.length) :
    (removeAt l.on (l.find r)).Perm (l.on.erase r) := by
  rw [List.erase_eq_eraseIdx_of_idxOf (i := l.find r) rfl]
  exact removeAt_perm (find_lt.1 h)

/-! ## One operation -/

/-- A drive keeps each request once, and has the driven one asserted as it is driven. -/
theorem drive_spec (hnd : l.on.Nodup) (level : Bool) : (l.drive r level).1.on.Nodup ∧
    ∀ x, x ∈ (l.drive r level).1.on ↔ if r = x then level = true else x ∈ l.on := by
  unfold drive
  dsimp only
  by_cases hin : l.find r = l.on.length
  · have hnot := find_eq_length.1 hin
    cases level with
    | true =>
      rw [if_pos ⟨rfl, hin⟩]
      have happ := List.Nodup.concat hnot hnd
      rw [List.concat_eq_append] at happ
      refine ⟨happ, fun x => ?_⟩
      by_cases hx : r = x
      · simp [hx]
      · simp [hx, Ne.symm hx]
    | false =>
      rw [if_neg (by simp), if_neg (fun h => h.2 hin)]
      refine ⟨hnd, fun x => ?_⟩
      by_cases hx : r = x
      · subst hx
        simp [hnot]
      · simp [hx]
  · have hperm := removeAt_find hin
    have hmem : r ∈ l.on := by
      by_contra h
      exact hin (find_eq_length.2 h)
    cases level with
    | true =>
      rw [if_neg (fun h => hin h.2), if_neg (by simp)]
      refine ⟨hnd, fun x => ?_⟩
      by_cases hx : r = x
      · subst hx
        simp [hmem]
      · simp [hx]
    | false =>
      rw [if_neg (by simp), if_pos ⟨rfl, hin⟩]
      refine ⟨hperm.nodup_iff.2 (hnd.erase r), fun x => ?_⟩
      rw [hperm.mem_iff, hnd.mem_erase_iff]
      by_cases hx : r = x
      · simp [hx]
      · simp [hx, Ne.symm hx]

theorem level_iff {input : Int} : l.level input = true ↔
    ∃ source line, (⟨input, source, line⟩ : IrqRequest) ∈ l.on := by
  rw [level, asserted, List.any_eq_true]
  constructor
  · rintro ⟨⟨i, s, n⟩, hmem, hi⟩
    obtain rfl := beq_iff_eq.1 hi
    exact ⟨s, n, hmem⟩
  · rintro ⟨s, n, hmem⟩
    exact ⟨_, hmem, beq_self_eq_true _⟩

/-! ## Any operations -/

/-- After any operations the list has what was last driven high. -/
theorem after_spec (ops : List LineOp) : (after ops).on.Nodup ∧
    ∀ x, x ∈ (after ops).on ↔ lastDriven x ops = true := by
  induction ops with
  | nil => exact ⟨.nil, fun x => ⟨fun h => absurd h List.not_mem_nil, fun h => nomatch h⟩⟩
  | cons op ops ih =>
    obtain ⟨hnd, hmem⟩ := ih
    cases op with
    | reset => exact ⟨.nil, fun x => ⟨fun h => absurd h List.not_mem_nil, fun h => nomatch h⟩⟩
    | drive r level =>
      obtain ⟨hnd2, hmem2⟩ := drive_spec (r := r) hnd level
      refine ⟨hnd2, fun x => (hmem2 x).trans ?_⟩
      unfold lastDriven
      split
      · rfl
      · exact hmem x

/-- The level of an input is the OR of what its sources last drove; a drive delivers the level its
input then has, and no other input's changes; no request is stored twice. -/
theorem input_is_or (ops : List LineOp) :
    (∀ input, (after ops).level input = true ↔
      ∃ source line, lastDriven ⟨input, source, line⟩ ops = true) ∧
    (∀ r level, ((after ops).drive r level).2 = (after (.drive r level :: ops)).level r.input ∧
      ∀ input ≠ r.input,
        (after (.drive r level :: ops)).level input = (after ops).level input) ∧
    (after ops).on.Nodup := by
  obtain ⟨hnd, hmem⟩ := after_spec ops
  refine ⟨fun input => ?_, fun r level => ⟨rfl, fun input hne => ?_⟩, hnd⟩
  · rw [level_iff]
    simp only [hmem]
  · have hstep := (drive_spec (r := r) hnd level).2
    rw [Bool.eq_iff_iff, level_iff, level_iff]
    change (∃ source line, _ ∈ ((after ops).drive r level).1.on) ↔ _
    refine exists_congr fun source => exists_congr fun line => ?_
    rw [hstep, if_neg]
    rintro rfl
    exact hne rfl

/-- Two devices share an input: it stays high until both have let go, and another is left alone. -/
theorem input_is_or_shared :
    (after [.drive ⟨20, 1, 0⟩ false, .drive ⟨20, 2, 0⟩ true, .drive ⟨20, 1, 0⟩ true]).level 20 =
      true ∧
    (after [.drive ⟨20, 2, 0⟩ false, .drive ⟨20, 1, 0⟩ false, .drive ⟨20, 2, 0⟩ true,
      .drive ⟨20, 1, 0⟩ true]).level 20 = false ∧
    (after [.drive ⟨20, 1, 0⟩ true]).level 21 = (after []).level 21 :=
  ⟨by decide, by decide, ((input_is_or []).2.1 ⟨20, 1, 0⟩ true).2 21 (by decide)⟩

end InterruptLines

end Alphabox.System
