import Alphabox.Lib.Numerals
import Mathlib.Algebra.GroupWithZero.Nat
import Mathlib.Data.List.Basic
import Mathlib.Data.List.GetD

/-!
# Random-access files

A file is its size and its bytes. Past the end every byte is zero, so that a write past the end
leaves zeros in the gap. A `Handle` is a file opened for writing: what it held then, the writes
applied since, in order, and the outcome of the writes to come. A write that fails has no effect.
-/

namespace Lib

@[ext]
structure File where
  size : Nat
  byte : Nat → UInt8
  past : ∀ i, size ≤ i → byte i = 0

namespace File

variable {f : File} {pos n m i : Nat} {bs : List UInt8}

/-- A file just created. -/
def empty : File := ⟨0, fun _ => 0, fun _ _ => rfl⟩

/-- The `n` bytes from `pos` on. -/
def slice (f : File) (pos n : Nat) : List UInt8 := (List.range n).map fun i => f.byte (pos + i)

/-- A seek and a read that must give `n` bytes. -/
def readAt (f : File) (pos n : Nat) : Option (List UInt8) :=
  if n = 0 ∨ pos + n ≤ f.size then some (f.slice pos n) else none

/-- A seek and a write. -/
def writeAt (f : File) (pos : Nat) (bs : List UInt8) : File where
  size := if bs = [] then f.size else max f.size (pos + bs.length)
  byte i := if pos ≤ i ∧ i < pos + bs.length then bs.getD (i - pos) 0 else f.byte i
  past i hi := by
    split at hi
    · rename_i hb
      rw [if_neg (by simp [hb]), f.past i hi]
    · rw [if_neg (by omega), f.past i (by omega)]

/-- The file after the writes of `ws`, in order. -/
def writeAll (f : File) (ws : List (Nat × List UInt8)) : File :=
  ws.foldl (fun f w => f.writeAt w.1 w.2) f

@[simp] theorem length_slice : (f.slice pos n).length = n := by simp [slice]

@[simp] theorem slice_zero : f.slice pos 0 = [] := rfl

theorem getD_slice (h : i < n) : (f.slice pos n).getD i 0 = f.byte (pos + i) := by
  simp [slice, List.getD, h]

theorem slice_append : f.slice pos n ++ f.slice (pos + n) m = f.slice pos (n + m) := by
  simp [slice, List.range_add, Nat.add_assoc]

theorem take_slice (h : m ≤ n) : (f.slice pos n).take m = f.slice pos m := by
  simp [slice, ← List.map_take, List.take_range, Nat.min_eq_left h]

theorem drop_slice : (f.slice pos n).drop m = f.slice (pos + m) (n - m) := by
  refine List.ext_getElem (by simp) fun i h1 h2 => ?_
  simp [slice, Nat.add_assoc]

theorem slice_congr {g : File} {p : Nat} (h : ∀ i < n, f.byte (pos + i) = g.byte (p + i)) :
    f.slice pos n = g.slice p n :=
  List.map_congr_left fun i hi => h i (List.mem_range.mp hi)

/-- Bytes that are those of a list make up that list. -/
theorem slice_eq (hn : bs.length = n) (h : ∀ i < n, f.byte (pos + i) = bs.getD i 0) :
    f.slice pos n = bs := by
  subst hn
  refine List.ext_getElem (by simp) fun i h1 h2 => ?_
  have hi := h i h2
  rw [List.getD_eq_getElem _ _ h2] at hi
  simp [slice, hi]

theorem readAt_eq (h : pos + n ≤ f.size) : f.readAt pos n = some (f.slice pos n) :=
  if_pos (Or.inr h)

theorem size_writeAt (h : pos + bs.length ≤ f.size) : (f.writeAt pos bs).size = f.size := by
  simp only [writeAt]
  split
  · rfl
  · omega

theorem size_le_writeAt : f.size ≤ (f.writeAt pos bs).size := by
  simp only [writeAt]
  split <;> omega

theorem le_size_writeAt (h : 0 < bs.length) : pos + bs.length ≤ (f.writeAt pos bs).size := by
  have hb : bs ≠ [] := List.ne_nil_of_length_pos h
  simp only [writeAt, hb, if_false]
  omega

theorem byte_writeAt_of_mem (h1 : pos ≤ i) (h2 : i < pos + bs.length) :
    (f.writeAt pos bs).byte i = bs.getD (i - pos) 0 := if_pos ⟨h1, h2⟩

theorem byte_writeAt_of_not_mem (h : i < pos ∨ pos + bs.length ≤ i) :
    (f.writeAt pos bs).byte i = f.byte i := if_neg (by omega)

/-- A slice that a write does not touch. -/
theorem slice_writeAt {p : Nat} (h : p + n ≤ pos ∨ pos + bs.length ≤ p) :
    (f.writeAt pos bs).slice p n = f.slice p n :=
  slice_congr fun i hi => byte_writeAt_of_not_mem (by omega)

/-- The slice just written. -/
theorem slice_writeAt_self (hn : bs.length = n) : (f.writeAt pos bs).slice pos n = bs :=
  slice_eq hn fun i hi => by rw [byte_writeAt_of_mem (by omega) (by omega), Nat.add_sub_cancel_left]

@[simp] theorem writeAt_nil : f.writeAt pos [] = f := by
  ext i
  · simp [writeAt]
  · exact congrArg UInt8.toNat (byte_writeAt_of_not_mem (by simp; omega))

theorem writeAt_append {cs : List UInt8} :
    (f.writeAt pos bs).writeAt (pos + bs.length) cs = f.writeAt pos (bs ++ cs) := by
  ext i
  · simp only [writeAt, List.append_eq_nil_iff, List.length_append]
    split_ifs <;> (simp_all; try omega)
  · simp only [writeAt, List.length_append]
    split_ifs with h1 h2 h3 <;> try omega
    · rw [List.getD_append_right _ _ _ _ (by omega), Nat.sub_sub]
    · rw [List.getD_append _ _ _ _ (by omega)]

@[simp] theorem writeAll_nil : f.writeAll [] = f := rfl

@[simp] theorem writeAll_cons {w : Nat × List UInt8} {ws : List (Nat × List UInt8)} :
    f.writeAll (w :: ws) = (f.writeAt w.1 w.2).writeAll ws := rfl

theorem writeAll_append {ws vs : List (Nat × List UInt8)} :
    f.writeAll (ws ++ vs) = (f.writeAll ws).writeAll vs := List.foldl_append

end File

/-! ## Handles -/

structure Handle where
  opened : File
  /-- The writes applied since, in order: where and what. -/
  writes : List (Nat × List UInt8)
  /-- Whether the writes to come succeed, in order. -/
  fate : Nat → Bool

namespace Handle

variable {h : Handle} {pos : Nat} {bs : List UInt8} {k : Nat}

/-- The file after the first `k` of the writes applied. -/
def after (h : Handle) (k : Nat) : File := h.opened.writeAll (h.writes.take k)

/-- The file as it is. -/
def cur (h : Handle) : File := h.after h.writes.length

/-- A write and whether it succeeded. -/
def writeAt (h : Handle) (pos : Nat) (bs : List UInt8) : Handle × Bool :=
  ({ h with writes := if h.fate 0 then h.writes ++ [(pos, bs)] else h.writes,
            fate := fun n => h.fate (n + 1) }, h.fate 0)

theorem cur_writeAt (hf : h.fate 0 = true) : (h.writeAt pos bs).1.cur = h.cur.writeAt pos bs := by
  simp only [cur, after, writeAt, hf, if_true]
  rw [List.take_of_length_le (Nat.le_refl _), List.take_of_length_le (Nat.le_refl _),
    File.writeAll_append]
  rfl

theorem cur_writeAt_failed (hf : h.fate 0 = false) : (h.writeAt pos bs).1.cur = h.cur := by
  simp [cur, after, writeAt, hf]

theorem after_writeAt_failed (hf : h.fate 0 = false) :
    (h.writeAt pos bs).1.after k = h.after k := by
  simp [after, writeAt, hf]

/-- What held of the file at every moment holds at every moment after one more write, if it holds
of what that write leaves. -/
theorem after_writeAt {P : File → Prop} (hp : ∀ k, P (h.after k))
    (hw : P (h.cur.writeAt pos bs)) (k : Nat) : P ((h.writeAt pos bs).1.after k) := by
  by_cases hf : h.fate 0 = true
  · by_cases hk : k ≤ h.writes.length
    · have he : (h.writeAt pos bs).1.after k = h.after k := by
        simp [after, writeAt, hf, List.take_append_of_le_length hk]
      exact he ▸ hp k
    · have he : (h.writeAt pos bs).1.after k = (h.writeAt pos bs).1.cur := by
        simp only [after, cur, writeAt, hf, if_true]
        rw [List.take_of_length_le (by simp; omega), List.take_of_length_le (by simp)]
      rw [he, cur_writeAt hf]
      exact hw
  · rw [after_writeAt_failed (by simpa using hf)]
    exact hp k

end Handle

/-! ## Fates -/

/-- `c` writes were tried, up to the first that failed: `done` is that none did. The fates to come
were `fate` and are `later`. -/
structure Tried (fate later : Nat → Bool) (c : Nat) (done : Prop) : Prop where
  later : ∀ n, later n = fate (n + c)
  before : ∀ n, n + 1 < c → fate n = true
  done : done ↔ ∀ n < c, fate n = true

namespace Tried

variable {fate later last : Nat → Bool} {c c' : Nat} {done : Prop}

/-- Nothing is tried. -/
theorem none (fate : Nat → Bool) (h : done) : Tried fate fate 0 done where
  later _ := rfl
  before _ h := absurd h (Nat.not_lt_zero _)
  done := iff_of_true h fun _ hn => absurd hn (Nat.not_lt_zero _)

/-- One write. -/
theorem one (h : Handle) (pos : Nat) (bs : List UInt8) :
    Tried h.fate (h.writeAt pos bs).1.fate 1 (h.fate 0 = true) where
  later _ := rfl
  before _ hn := absurd hn (Nat.not_lt.mpr (Nat.le_add_left 1 _))
  done := by simp

theorem congr {done' : Prop} (h : Tried fate later c done) (hd : done' ↔ done) :
    Tried fate later c done' :=
  ⟨h.later, h.before, hd.trans h.done⟩

/-- More is tried only where nothing failed. -/
theorem trans (h : Tried fate later c True) (h' : Tried later last c' done) :
    Tried fate last (c + c') done where
  later n := by
    rw [h'.later, h.later]
    congr 1
    omega
  before n hn := by
    by_cases hc : n < c
    · exact h.done.mp trivial n hc
    · have hb := h'.before (n - c) (by omega)
      rwa [h.later, Nat.sub_add_cancel (Nat.not_lt.mp hc)] at hb
  done := by
    rw [h'.done]
    constructor
    · intro hall n hn
      by_cases hc : n < c
      · exact h.done.mp trivial n hc
      · have hb := hall (n - c) (by omega)
        rwa [h.later, Nat.sub_add_cancel (Nat.not_lt.mp hc)] at hb
    · intro hall n hn
      rw [h.later]
      exact hall (n + c) (by omega)

/-- Where no write fails. -/
theorem calm (h : Tried fate later c done) (hf : ∀ n, fate n = true) :
    done ∧ ∀ n, later n = true :=
  ⟨h.done.mpr fun n _ => hf n, fun n => (h.later n).trans (hf _)⟩

end Tried

end Lib
