import Alphabox.Lib.Numerals
import Mathlib.Algebra.Group.Fin.Basic
import Mathlib.Data.List.Basic
import Mathlib.Data.Nat.ModEq
import Mathlib.Logic.Function.Basic

/-!
# Circular buffers

`n` cells with a read and a write index that both wrap. The buffer is empty where they meet, so
one cell stays free and `w + 1 = r` is the full buffer. `contents cells r w` is the queue the
cells hold, oldest first; writing a cell and stepping `w` appends to it, stepping `r` takes its
head.
-/

namespace Lib.Ring

variable {α : Type*} {n : Nat} [NeZero n]

/-- `d` cells from `r` on. -/
def window (cells : Fin n → α) (r : Fin n) : Nat → List α
  | 0 => []
  | d + 1 => cells r :: window cells (r + 1) d

/-- The cells from the read index up to the write index. -/
def contents (cells : Fin n → α) (r w : Fin n) : List α := window cells r (w - r).val

theorem val_sub_add_one {r w : Fin n} (h : w ≠ r) : (w - r).val = (w - (r + 1)).val + 1 := by
  have hr := r.isLt
  have hw := w.isLt
  have hne : w.val ≠ r.val := fun hv => h (Fin.ext hv)
  have h1 : ((1 : Fin n)).val = 1 % n := Fin.val_one' n
  rw [Fin.val_sub, Fin.val_sub, Fin.val_add, h1, Nat.add_mod_mod]
  rcases Nat.lt_or_ge r.val w.val with hlt | hge
  · rw [Nat.mod_eq_of_lt (a := r.val + 1) (by omega),
      show n - r.val + w.val = (w.val - r.val) + n by omega,
      show n - (r.val + 1) + w.val = (w.val - r.val - 1) + n by omega, Nat.add_mod_right,
      Nat.add_mod_right, Nat.mod_eq_of_lt (by omega), Nat.mod_eq_of_lt (by omega)]
    omega
  · rw [Nat.mod_eq_of_lt (a := n - r.val + w.val) (by omega)]
    rcases Nat.lt_or_ge (r.val + 1) n with hs | hs
    · rw [Nat.mod_eq_of_lt hs, Nat.mod_eq_of_lt (by omega)]
      omega
    · rw [show r.val + 1 = n by omega, Nat.mod_self, show n - 0 + w.val = w.val + n by omega,
        Nat.add_mod_right, Nat.mod_eq_of_lt hw]
      omega

theorem length_contents (cells : Fin n → α) (r w : Fin n) :
    (contents cells r w).length = (w - r).val := by
  have hlen (d : Nat) : (window cells r d).length = d := by
    induction d generalizing r with
    | zero => rfl
    | succ d ih => rw [window, List.length_cons, ih]
  exact hlen _

/-- The full buffer has one cell free. -/
theorem full_iff {cells : Fin n → α} {r w : Fin n} :
    w + 1 = r ↔ (contents cells r w).length + 1 = n := by
  have hzero : w + 1 = r ↔ w - r + 1 = 0 := by
    rw [sub_add_eq_add_sub, sub_eq_zero]
  have hlt := (w - r).isLt
  rw [hzero, length_contents, Fin.ext_iff, Fin.val_add, Fin.val_one', Nat.add_mod_mod, Fin.val_zero]
  constructor
  · intro h
    have hle := Nat.le_of_dvd (Nat.succ_pos _) (Nat.dvd_of_mod_eq_zero h)
    omega
  · intro h
    rw [h, Nat.mod_self]

theorem contents_self (cells : Fin n → α) (r : Fin n) : contents cells r r = [] := by
  simp [contents, window]

theorem contents_eq_cons {cells : Fin n → α} {r w : Fin n} (h : w ≠ r) :
    contents cells r w = cells r :: contents cells (r + 1) w := by
  rw [contents, val_sub_add_one h, window, contents]

theorem contents_eq_nil {cells : Fin n → α} {r w : Fin n} : contents cells r w = [] ↔ r = w := by
  refine ⟨fun h => ?_, fun h => h ▸ contents_self cells r⟩
  by_contra hne
  rw [contents_eq_cons (Ne.symm hne)] at h
  exact List.cons_ne_nil _ _ h

theorem window_succ (cells : Fin n → α) (r : Fin n) (d : Nat) :
    window cells r (d + 1) = window cells r d ++ [cells (r + Fin.ofNat n d)] := by
  induction d generalizing r with
  | zero => simp [window]
  | succ d ih =>
    rw [window, ih, window, List.cons_append]
    congr 3
    rw [add_assoc]
    congr 1
    apply Fin.ext
    simp [Fin.val_add, add_comm]

theorem window_update {cells : Fin n → α} {r w : Fin n} {b : α} {d : Nat}
    (h : ∀ i < d, r + Fin.ofNat n i ≠ w) :
    window (Function.update cells w b) r d = window cells r d := by
  induction d with
  | zero => rfl
  | succ d ih =>
    rw [window_succ, window_succ, ih fun i hi => h i (by omega),
      Function.update_of_ne (h d (by omega))]

/-- Writing the cell at `w` and stepping `w`, short of the full buffer, appends. -/
theorem contents_push {cells : Fin n → α} {r w : Fin n} (b : α) (h : w + 1 ≠ r) :
    contents (Function.update cells w b) r (w + 1) = contents cells r w ++ [b] := by
  have hd : (w + 1 - r).val = (w - r).val + 1 := by
    have hs := val_sub_add_one (n := n) h
    rw [hs, add_sub_add_right_eq_sub]
  have hw : r + Fin.ofNat n (w - r).val = w := by
    apply Fin.ext
    simp
  rw [contents, hd, window_succ, hw, Function.update_self, contents, window_update]
  intro i hi he
  have hir : r + Fin.ofNat n i = r + (w - r) := by rw [he, add_sub_cancel]
  have hiv := congrArg Fin.val (add_left_cancel hir)
  simp only [Fin.val_ofNat] at hiv
  have := (w - r).isLt
  rw [Nat.mod_eq_of_lt (by omega)] at hiv
  omega

/-! ## Rings addressed modulo their length

Here the length is a value, the indices are numbers and the cells are reached modulo the length,
so that an index may be kept as the count of everything that ever passed. -/

/-- `d` cells of a ring of `n` from `r` on. -/
def slots (n : Nat) (cells : Nat → α) (r d : Nat) : List α :=
  (List.range d).map fun i => cells ((r + i) % n)

/-- The cells from `r` on take the values of a list. -/
def fill (n : Nat) (cells : Nat → α) (r : Nat) : List α → Nat → α
  | [] => cells
  | a :: l => fill n (Function.update cells (r % n) a) (r + 1) l

omit [NeZero n] in
@[simp] theorem length_slots (cells : Nat → α) (r d : Nat) : (slots n cells r d).length = d := by
  simp [slots]

omit [NeZero n] in
@[simp] theorem slots_zero (cells : Nat → α) (r : Nat) : slots n cells r 0 = [] := rfl

omit [NeZero n] in
theorem slots_succ (cells : Nat → α) (r d : Nat) :
    slots n cells r (d + 1) = cells (r % n) :: slots n cells (r + 1) d := by
  simp [slots, List.range_succ_eq_map, Function.comp_def, add_assoc, add_comm 1]

omit [NeZero n] in
theorem slots_add (cells : Nat → α) (r d e : Nat) :
    slots n cells r (d + e) = slots n cells r d ++ slots n cells (r + d) e := by
  simp [slots, List.range_add, Function.comp_def, add_assoc]

omit [NeZero n] in
theorem slots_mod (cells : Nat → α) (r d : Nat) : slots n cells (r % n) d = slots n cells r d := by
  simp [slots, Nat.mod_add_mod]

omit [NeZero n] in
theorem slots_congr {cells cells' : Nat → α} {r d : Nat}
    (h : ∀ i < d, cells ((r + i) % n) = cells' ((r + i) % n)) :
    slots n cells r d = slots n cells' r d :=
  List.map_congr_left fun i hi => h i (List.mem_range.mp hi)

/-- Less than a revolution apart, two cells are different. -/
theorem add_mod_ne {r i j n : Nat} (hij : i < j) (hj : j < i + n) : (r + i) % n ≠ (r + j) % n := by
  intro h
  have hd := (Nat.modEq_iff_dvd' (by omega)).mp h
  have := Nat.le_of_dvd (by omega) hd
  omega

omit [NeZero n] in
/-- A cell past the window, less than a revolution on, is none of its cells. -/
theorem slots_update {cells : Nat → α} {r d k : Nat} (hd : d ≤ k) (hk : k < n) (a : α) :
    slots n (Function.update cells ((r + k) % n) a) r d = slots n cells r d :=
  slots_congr fun i hi => Function.update_of_ne (add_mod_ne (by omega) (by omega)) _ _

omit [NeZero n] in
/-- Filling past the window leaves it. -/
theorem slots_fill {cells : Nat → α} {r d k : Nat} {l : List α} (hd : d ≤ k)
    (hk : k + l.length ≤ n) : slots n (fill n cells (r + k) l) r d = slots n cells r d := by
  induction l generalizing cells k with
  | nil => rfl
  | cons a l ih =>
    rw [List.length_cons] at hk
    rw [fill, add_assoc, ih (by omega) (by omega), slots_update hd (by omega)]

omit [NeZero n] in
theorem slots_fill_self {cells : Nat → α} {r : Nat} {l : List α} (h : l.length ≤ n) :
    slots n (fill n cells r l) r l.length = l := by
  induction l generalizing cells r with
  | nil => rfl
  | cons a l ih =>
    rw [List.length_cons] at h ⊢
    have hhead : fill n (Function.update cells (r % n) a) (r + 1) l (r % n) = a := by
      have hw : slots n (fill n (Function.update cells (r % n) a) (r + 1) l) r 1 =
          slots n (Function.update cells (r % n) a) r 1 := slots_fill le_rfl (by omega)
      rw [slots_succ, slots_succ] at hw
      simpa using hw
    rw [slots_succ, fill, hhead, ih (by omega)]

omit [NeZero n] in
/-- Filling right after the window extends it, up to a whole revolution. -/
theorem slots_fill_append {cells : Nat → α} {r d : Nat} {l : List α} (h : d + l.length ≤ n) :
    slots n (fill n cells (r + d) l) r (d + l.length) = slots n cells r d ++ l := by
  rw [slots_add, slots_fill le_rfl h, slots_fill_self (by omega)]

omit [NeZero n] in
theorem fill_append (cells : Nat → α) (r : Nat) (l m : List α) :
    fill n cells r (l ++ m) = fill n (fill n cells r l) (r + l.length) m := by
  induction l generalizing cells r with
  | nil => rfl
  | cons a l ih => rw [List.cons_append, fill, ih, fill, List.length_cons, add_assoc, add_comm 1]

omit [NeZero n] in
/-- Only the index modulo the length matters. -/
theorem fill_mod (cells : Nat → α) (r : Nat) (l : List α) :
    fill n cells (r % n) l = fill n cells r l := by
  have h (cells : Nat → α) (r r' : Nat) (hr : r % n = r' % n) : fill n cells r l = fill n cells r' l := by
    induction l generalizing cells r r' with
    | nil => rfl
    | cons a l ih =>
      rw [fill, fill, hr]
      exact ih _ _ _ (by rw [Nat.add_mod, hr, ← Nat.add_mod])
  exact h cells _ _ (Nat.mod_mod _ _)

/-- How far an index is past another, less than a revolution on. -/
theorem add_mod_sub_mod {o d n : Nat} (h : d < n) : ((o + d) % n + n - o % n) % n = d := by
  have ha := Nat.mod_lt o (by omega : n > 0)
  rw [Nat.add_mod, Nat.mod_eq_of_lt h]
  rcases Nat.lt_or_ge (o % n + d) n with hlt | hge
  · rw [Nat.mod_eq_of_lt hlt, show o % n + d + n - o % n = d + n by omega, Nat.add_mod_right,
      Nat.mod_eq_of_lt h]
  · rw [Nat.mod_eq_sub_mod hge, Nat.mod_eq_of_lt (a := o % n + d - n) (by omega),
      show o % n + d - n + n - o % n = d by omega, Nat.mod_eq_of_lt h]

end Lib.Ring
