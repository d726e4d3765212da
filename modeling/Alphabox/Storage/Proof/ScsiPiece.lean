import Alphabox.Storage.ScsiDisk

/-!
# One transfer of a READ or a WRITE

What a command block asks for, and what one transfer does to a READ or a WRITE under way: the
target holds or awaits a piece of whole blocks, and the last byte of a piece makes it go on to the
next, or end.
-/

namespace Alphabox.Storage

open Lib

/-! ## What a command block asks for -/

/-- A big-endian number. -/
def beNat (bs : List UInt8) : Nat := bs.foldl (fun n b => 256 * n + b.toNat) 0

/-- Bytes `i` to `i + n` of a command block, as a number. -/
def cdbField (cdb : List UInt8) (i n : Nat) : Nat := beNat ((cdb.drop i).take n)

/-- The forms of READ and WRITE by their length. -/
inductive CdbForm
  | six | ten | twelve | sixteen
  deriving DecidableEq

namespace CdbForm

def length : CdbForm → Nat
  | six => 6
  | ten => 10
  | twelve => 12
  | sixteen => 16

def readOp : CdbForm → UInt8
  | six => 0x08
  | ten => 0x28
  | twelve => 0xa8
  | sixteen => 0x88

def writeOp : CdbForm → UInt8
  | six => 0x0a
  | ten => 0x2a
  | twelve => 0xaa
  | sixteen => 0x8a

/-- The logical block address: 21, 32 or 64 bits. -/
def lba (cdb : List UInt8) : CdbForm → Nat
  | six => cdbField cdb 1 3 % 2 ^ 21
  | ten => cdbField cdb 2 4
  | twelve => cdbField cdb 2 4
  | sixteen => cdbField cdb 2 8

/-- The transfer length: 8, 16 or 32 bits, in blocks. -/
def blocks (cdb : List UInt8) : CdbForm → Nat
  | six => if cdbField cdb 4 1 = 0 then 256 else cdbField cdb 4 1
  | ten => cdbField cdb 7 2
  | twelve => cdbField cdb 6 4
  | sixteen => cdbField cdb 10 4

end CdbForm

/-- A READ or a WRITE of a form. -/
structure IsTransfer (cdb : List UInt8) (write : Bool) (form : CdbForm) : Prop where
  length : cdb.length = form.length
  op : cdb.getD 0 0 = if write then form.writeOp else form.readOp

theorem or_eq_add {x y n : Nat} (h : y < 2 ^ n) : x <<< n ||| y = x * 2 ^ n + y := by
  rw [← Nat.shiftLeft_add_eq_or_of_lt h, Nat.shiftLeft_eq]

theorem shift_or {a b m n : Nat} : a <<< (n + m) ||| b <<< n = (a <<< m ||| b) <<< n := by
  rw [Nat.shiftLeft_or_distrib, ← Nat.shiftLeft_add, Nat.add_comm]

theorem be2_eq {a b : Nat} (hb : b < 256) : a <<< 8 ||| b = 256 * a + b := by
  rw [or_eq_add hb]
  omega

theorem be3_eq {a b c : Nat} (hb : b < 256) (hc : c < 256) :
    a <<< 16 ||| b <<< 8 ||| c = 256 * (256 * a + b) + c := by
  rw [shift_or (m := 8), be2_eq hb, be2_eq hc]

theorem be4_eq {a b c d : Nat} (hb : b < 256) (hc : c < 256) (hd : d < 256) :
    a <<< 24 ||| b <<< 16 ||| c <<< 8 ||| d = 256 * (256 * (256 * a + b) + c) + d := by
  rw [shift_or (m := 8), be2_eq hb, be3_eq hc hd]

theorem getBe32_eq (c : Nat → UInt8) (i : Nat) :
    getBe32 c i = beNat [c i, c (i + 1), c (i + 2), c (i + 3)] := by
  rw [getBe32, be4_eq (UInt8.toNat_lt _) (UInt8.toNat_lt _) (UInt8.toNat_lt _)]
  simp [beNat]

theorem getBe32_lt (c : Nat → UInt8) (i : Nat) : getBe32 c i < 2 ^ 32 := by
  rw [getBe32, be4_eq (UInt8.toNat_lt _) (UInt8.toNat_lt _) (UInt8.toNat_lt _)]
  have h0 := (c i).toNat_lt
  have h1 := (c (i + 1)).toNat_lt
  have h2 := (c (i + 2)).toNat_lt
  have h3 := (c (i + 3)).toNat_lt
  omega

/-- The fields are where the standard has them. -/
theorem cdbLbaLength_eq {cdb : List UInt8} {write : Bool} {form : CdbForm}
    (h : IsTransfer cdb write form) {c : Nat → UInt8} (hc : ∀ i < cdb.length, c i = cdb.getD i 0) :
    cdbLbaLength c = some (form.lba cdb, form.blocks cdb) := by
  have hop : c 0 = if write then form.writeOp else form.readOp := by
    rw [hc 0 (by rw [h.length]; cases form <;> decide), h.op]
  have hl := h.length
  have hf : ∀ i n, i + n ≤ form.length →
      cdbField cdb i n = beNat ((List.range n).map fun j => c (i + j)) := by
    intro i n hn
    refine congrArg beNat (List.ext_getElem (by simp; omega) fun j h1 h2 => ?_)
    simp only [List.length_map, List.length_range] at h2
    simp [hc (i + j) (by omega), List.getElem?_eq_getElem (show i + j < cdb.length by omega)]
  have h1 := (c 2).toNat_lt
  have h2 := (c 3).toNat_lt
  cases form with
  | six =>
    have ha : c 0 = 0x08 ∨ c 0 = 0x0a := by cases write <;> simp [hop, CdbForm.readOp,
      CdbForm.writeOp]
    have hz : c 4 = 0 ↔ (c 4).toNat = 0 := by rw [← UInt8.toNat_inj]; rfl
    simp only [cdbLbaLength, ha, if_true, CdbForm.lba, CdbForm.blocks, hf 1 3 (by decide),
      hf 4 1 (by decide), be3_eq h1 h2]
    simp only [beNat, List.range_succ, List.range_zero, List.nil_append, List.cons_append,
      List.map_cons, List.map_nil, List.foldl_cons, List.foldl_nil, UInt8.toNat_and,
      show (0x1f : UInt8).toNat = 2 ^ 5 - 1 from rfl, Nat.and_two_pow_sub_one_eq_mod, ne_eq, hz,
      Nat.mul_zero, Nat.zero_add, Nat.add_zero, Nat.reduceAdd, ite_not, Option.some.injEq,
      Prod.mk.injEq, and_true]
    omega
  | ten =>
    have ha : c 0 = 0x28 ∨ c 0 = 0x2a ∨ c 0 = 0x2f := by cases write <;> simp [hop, CdbForm.readOp,
      CdbForm.writeOp]
    have hb : ¬ (c 0 = 0x08 ∨ c 0 = 0x0a) := by
      obtain ha | ha | ha := ha <;> rw [ha] <;> decide
    simp only [cdbLbaLength, ha, hb, if_true, if_false, CdbForm.lba, CdbForm.blocks,
      hf 2 4 (by decide), hf 7 2 (by decide), getBe32_eq, be2_eq (UInt8.toNat_lt _)]
    simp [beNat, List.range_succ]
  | twelve =>
    have ha : c 0 = 0xa8 ∨ c 0 = 0xaa := by cases write <;> simp [hop, CdbForm.readOp,
      CdbForm.writeOp]
    have hb : ¬ (c 0 = 0x08 ∨ c 0 = 0x0a) ∧ ¬ (c 0 = 0x28 ∨ c 0 = 0x2a ∨ c 0 = 0x2f) := by
      obtain ha | ha := ha <;> rw [ha] <;> decide
    simp only [cdbLbaLength, ha, hb, if_true, if_false, CdbForm.lba, CdbForm.blocks,
      hf 2 4 (by decide), hf 6 4 (by decide), getBe32_eq]
    simp [List.range_succ]
  | sixteen =>
    have ha : c 0 = 0x88 ∨ c 0 = 0x8a ∨ c 0 = 0x8f := by cases write <;> simp [hop, CdbForm.readOp,
      CdbForm.writeOp]
    have hb : ¬ (c 0 = 0x08 ∨ c 0 = 0x0a) ∧ ¬ (c 0 = 0x28 ∨ c 0 = 0x2a ∨ c 0 = 0x2f) ∧
        ¬ (c 0 = 0xa8 ∨ c 0 = 0xaa) := by
      obtain ha | ha | ha := ha <;> rw [ha] <;> decide
    simp only [cdbLbaLength, ha, hb, if_true, if_false, CdbForm.lba, CdbForm.blocks,
      hf 2 8 (by decide), hf 10 4 (by decide), or_eq_add (getBe32_lt c 6)]
    simp only [getBe32_eq]
    simp only [beNat, List.range_succ, List.range_zero, List.nil_append, List.cons_append,
      List.map_cons, List.map_nil, List.foldl_cons, List.foldl_nil, Nat.mul_zero, Nat.zero_add,
      Nat.add_zero, Nat.reduceAdd, Option.some.injEq, Prod.mk.injEq, and_true]
    omega

namespace CDisk

variable {σ : Type} {M : Medium σ} {hs : Handlers σ} {d d' : CDisk σ} {start n stop pos : Nat}

/-! ## How a command ends -/

/-- The command has ended with GOOD. -/
structure Good (d : CDisk σ) : Prop where
  phase : d.phase = .status
  stat : d.stat = ⟨[0x00], 1, 0⟩

/-- The command has ended with CHECK CONDITION and nothing of it is left. -/
structure Check (d : CDisk σ) : Prop where
  phase : d.phase = .status
  stat : d.stat = ⟨[0x02], 1, 0⟩
  sense : d.sense.isSome = true
  dati : d.dati.available = 0
  stream : d.stream = .none

theorem check_error (h : d.stream = .none) (e : ScsiErr) (info : Nat) :
    Check { d.doScsiError (some e) info with phase := .status } :=
  ⟨rfl, rfl, rfl, rfl, h⟩

/-! ## One piece -/

theorem streamPieceBlocks_pos (d : CDisk σ) : 0 < d.streamPieceBlocks :=
  Nat.div_pos d.blockSize.2.2 d.blockSize.2.1

theorem lbaRangeOk_iff {lba blocks : Nat} :
    d.lbaRangeOk M lba blocks = true ↔ lba + blocks ≤ d.lbaSize M := by
  simp only [lbaRangeOk, Bool.and_eq_true, decide_eq_true_eq]
  omega

/-- Blocks that are on the medium are bytes that are. -/
theorem bytes_le (h : stop ≤ d.lbaSize M) : stop * d.blockSize ≤ (M.image d.medium).size :=
  Nat.le_trans (Nat.mul_le_mul_right _ h) (Nat.div_mul_le_self _ _)

theorem start_lt (h : start + n ≤ d.lbaSize M) (hn : 0 < n) :
    start * d.blockSize < (M.image d.medium).size := by
  have := bytes_le h
  have := Nat.mul_lt_mul_of_pos_right (show start < start + n by omega) d.blockSize.2.1
  omega

/-- What a seek to a block of the medium does. -/
theorem seekBlock_spec (h : start + n ≤ d.lbaSize M) (hn : 0 < n) :
    M.image (d.seekBlock M start).2.medium = M.image d.medium ∧
      ((d.seekBlock M start).1 = true →
        M.pos (d.seekBlock M start).2.medium = start * d.blockSize) ∧
      (M.Readable d.medium → (d.seekBlock M start).1 = true ∧
        M.Readable (d.seekBlock M start).2.medium) ∧
      (M.Writable d.medium → (d.seekBlock M start).1 = true ∧
        M.Writable (d.seekBlock M start).2.medium) := by
  have hl := start_lt h hn
  have hm : start * d.blockSize % 2 ^ 64 = start * d.blockSize :=
    Nat.mod_eq_of_lt (by have := M.size_lt d.medium; omega)
  simp only [seekBlock, hm]
  exact ⟨M.seek_image _ _, M.seek_pos _ _, fun hr => M.seek_readable _ _ hr hl,
    fun hw => M.seek_writable _ _ hw hl⟩

/-- What a read at a block of the medium does. -/
theorem readBlocks_spec (h : start + n ≤ d.lbaSize M)
    (hp : M.pos d.medium = start * d.blockSize) :
    M.image (d.readBlocks M n).2.2.medium = M.image d.medium ∧
      ((d.readBlocks M n).1 = n → (d.readBlocks M n).2.1 =
        (M.image d.medium).slice (start * d.blockSize) (n * d.blockSize)) ∧
      (M.Readable d.medium → (d.readBlocks M n).1 = n ∧
        M.Readable (d.readBlocks M n).2.2.medium) := by
  have hb := bytes_le h
  rw [Nat.add_mul] at hb
  refine ⟨M.read_image _ _, fun he => ?_, fun hr => ?_⟩
  · obtain ⟨k, hk, hs⟩ := M.read_slice d.medium (n * d.blockSize)
    have hl : n * d.blockSize ≤ k := by
      have := Nat.div_mul_le_self (M.readBytes d.medium (n * d.blockSize)).1.length d.blockSize
      rw [show _ / _ = n from he, hs, File.length_slice] at this
      exact this
    exact hs.trans (by rw [hp, Nat.le_antisymm hk hl])
  · obtain ⟨hl, hr'⟩ := M.read_readable d.medium _ hr (by rw [hp]; exact hb)
    refine ⟨?_, hr'⟩
    simp only [readBlocks, hl]
    exact Nat.mul_div_cancel _ d.blockSize.2.1

/-- What a write at a block of the medium does. -/
theorem writeBlocks_spec {src : List UInt8} (h : start + n ≤ d.lbaSize M)
    (hp : M.pos d.medium = start * d.blockSize) (hl : src.length = n * d.blockSize) :
    (M.image (d.writeBlocks M src n).2.medium).size = (M.image d.medium).size ∧
      (∀ i, i < start * d.blockSize ∨ (start + n) * d.blockSize ≤ i →
        (M.image (d.writeBlocks M src n).2.medium).byte i = (M.image d.medium).byte i) ∧
      ((d.writeBlocks M src n).1 = n → M.image (d.writeBlocks M src n).2.medium =
        (M.image d.medium).writeAt (start * d.blockSize) src) ∧
      (M.Writable d.medium → (d.writeBlocks M src n).1 = n ∧
        M.Writable (d.writeBlocks M src n).2.medium) := by
  have hb := bytes_le h
  have ht : src.take (n * d.blockSize) = src := List.take_of_length_le (by omega)
  rw [Nat.add_mul] at hb
  have hle : M.pos d.medium + src.length ≤ (M.image d.medium).size := by rw [hp, hl]; exact hb
  simp only [writeBlocks, ht, Nat.add_mul]
  rw [← hp, ← hl]
  refine ⟨M.write_size _ _ hle, M.write_frame _ _ hle, fun he => M.write_all _ _ hle ?_,
    fun hw => ?_⟩
  · rw [hl, ← show _ / _ = n from he]
    exact Nat.div_mul_le_self _ _
  · obtain ⟨hc, hw'⟩ := M.write_writable _ _ hw hle
    rw [hc, hl]
    exact ⟨Nat.mul_div_cancel _ d.blockSize.2.1, hw'⟩

end CDisk

end Alphabox.Storage
