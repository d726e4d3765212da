import Alphabox.Lib.File

/-!
# A disk's medium (`devices/storage/Disk.hpp`, `DiskRam.cpp`, `DiskFile.cpp`)

What `CDisk` does with its medium goes through three methods that each kind of disk implements:
`seek_byte`, `read_bytes` and `write_bytes`. `Medium` is what `CDisk` relies on in them, and a RAM
disk and an image file keep to it.
-/

namespace Alphabox.Storage

open Lib

/-- A medium with states `σ`. A transfer that comes up short moves nothing outside its bytes. -/
structure Medium (σ : Type) where
  /-- The bytes a state holds; `byte_size` of them. -/
  image : σ → File
  /-- `byte_pos`. -/
  pos : σ → Nat
  seekByte : σ → Nat → Bool × σ
  readBytes : σ → Nat → List UInt8 × σ
  /-- The count is of the bytes written. -/
  writeBytes : σ → List UInt8 → Nat × σ
  /-- Every seek and read to come succeeds. -/
  Readable : σ → Prop
  /-- Every seek and write to come succeeds. -/
  Writable : σ → Prop
  size_lt : ∀ s, (image s).size < 2 ^ 63
  seek_image : ∀ s a, image (seekByte s a).2 = image s
  seek_pos : ∀ s a, (seekByte s a).1 = true → pos (seekByte s a).2 = a
  read_image : ∀ s n, image (readBytes s n).2 = image s
  read_slice : ∀ s n, ∃ k ≤ n, (readBytes s n).1 = (image s).slice (pos s) k
  write_size : ∀ s bs, pos s + bs.length ≤ (image s).size →
    (image (writeBytes s bs).2).size = (image s).size
  write_frame : ∀ s bs, pos s + bs.length ≤ (image s).size →
    ∀ i, i < pos s ∨ pos s + bs.length ≤ i → (image (writeBytes s bs).2).byte i = (image s).byte i
  write_all : ∀ s bs, pos s + bs.length ≤ (image s).size → bs.length ≤ (writeBytes s bs).1 →
    image (writeBytes s bs).2 = (image s).writeAt (pos s) bs
  seek_readable : ∀ s a, Readable s → a < (image s).size →
    (seekByte s a).1 = true ∧ Readable (seekByte s a).2
  read_readable : ∀ s n, Readable s → pos s + n ≤ (image s).size →
    (readBytes s n).1.length = n ∧ Readable (readBytes s n).2
  seek_writable : ∀ s a, Writable s → a < (image s).size →
    (seekByte s a).1 = true ∧ Writable (seekByte s a).2
  write_writable : ∀ s bs, Writable s → pos s + bs.length ≤ (image s).size →
    (writeBytes s bs).1 = bs.length ∧ Writable (writeBytes s bs).2

/-! ## A RAM disk -/

/-- `CDiskRam`. -/
structure DiskRam where
  ramdisk : File
  bytePos : Nat
  readOnly : Bool
  small : ramdisk.size < 2 ^ 63

namespace DiskRam

def seekByte (s : DiskRam) (byte : Nat) : Bool × DiskRam :=
  if s.ramdisk.size ≤ byte then (false, s) else (true, { s with bytePos := byte })

def readBytes (s : DiskRam) (bytes : Nat) : List UInt8 × DiskRam :=
  if s.ramdisk.size ≤ s.bytePos then ([], s)
  else
    let n := min bytes (s.ramdisk.size - s.bytePos)
    (s.ramdisk.slice s.bytePos n, { s with bytePos := s.bytePos + n })

/-- What a write puts on the RAM disk: no byte past its end. -/
def written (s : DiskRam) (src : List UInt8) : List UInt8 :=
  src.take (s.ramdisk.size - s.bytePos)

theorem size_written (s : DiskRam) (src : List UInt8) (h : s.bytePos < s.ramdisk.size) :
    (s.ramdisk.writeAt s.bytePos (s.written src)).size = s.ramdisk.size :=
  File.size_writeAt (by simp only [written, List.length_take]; omega)

def writeBytes (s : DiskRam) (src : List UInt8) : Nat × DiskRam :=
  if h : s.readOnly = true ∨ s.ramdisk.size ≤ s.bytePos then (0, s)
  else
    (min src.length (s.ramdisk.size - s.bytePos),
      { s with
        ramdisk := s.ramdisk.writeAt s.bytePos (s.written src)
        bytePos := s.bytePos + min src.length (s.ramdisk.size - s.bytePos)
        small := by rw [size_written s src (by omega)]; exact s.small })

/-- A write within the RAM disk. -/
theorem ramdisk_writeBytes {s : DiskRam} {bs : List UInt8}
    (h : s.bytePos + bs.length ≤ s.ramdisk.size) :
    (s.writeBytes bs).2.ramdisk = s.ramdisk ∨
      (s.writeBytes bs).2.ramdisk = s.ramdisk.writeAt s.bytePos bs := by
  unfold writeBytes
  split
  · exact .inl rfl
  · exact .inr (congrArg (s.ramdisk.writeAt s.bytePos) (List.take_of_length_le (by omega)))

/-- A RAM disk is a medium. -/
def medium : Medium DiskRam where
  image := ramdisk
  pos := bytePos
  seekByte := seekByte
  readBytes := readBytes
  writeBytes := writeBytes
  Readable _ := True
  Writable s := s.readOnly = false
  size_lt := small
  seek_image s a := by unfold seekByte; split <;> rfl
  seek_pos s a h := by
    unfold seekByte at h ⊢
    split
    · rw [if_pos ‹_›] at h
      exact nomatch h
    · rfl
  read_image s n := by unfold readBytes; split <;> rfl
  read_slice s n := by
    unfold readBytes
    split
    · exact ⟨0, Nat.zero_le n, rfl⟩
    · exact ⟨_, Nat.min_le_left n _, rfl⟩
  write_size s bs h := by
    obtain he | he := ramdisk_writeBytes h <;> rw [he]
    exact File.size_writeAt h
  write_frame s bs h i hi := by
    obtain he | he := ramdisk_writeBytes h <;> rw [he]
    exact File.byte_writeAt_of_not_mem hi
  write_all s bs h hn := by
    unfold writeBytes at hn ⊢
    split
    · rw [dif_pos ‹_›] at hn
      rw [List.eq_nil_of_length_eq_zero (Nat.le_zero.mp hn), File.writeAt_nil]
    · exact congrArg (s.ramdisk.writeAt s.bytePos) (List.take_of_length_le (by omega))
  seek_readable s a _ ha := by
    unfold seekByte
    rw [if_neg (by omega)]
    exact ⟨rfl, trivial⟩
  read_readable s n _ h := by
    refine ⟨?_, trivial⟩
    unfold readBytes
    split
    · simp only [List.length_nil]
      omega
    · rw [File.length_slice]
      omega
  seek_writable s a hw ha := by
    unfold seekByte
    rw [if_neg (by omega)]
    exact ⟨rfl, hw⟩
  write_writable s bs hw h := by
    unfold writeBytes
    split
    · rename_i h0
      rw [hw] at h0
      refine ⟨?_, hw⟩
      simp only [Bool.false_eq_true, false_or] at h0
      show 0 = bs.length
      omega
    · exact ⟨by show min _ _ = _; omega, hw⟩

end DiskRam

/-! ## An image file -/

/-- `CDiskFile` over a plain image that a file holds, and what the host will answer: whether a seek
succeeds and how many bytes a transfer moves at most. -/
structure DiskFile where
  handle : File
  bytePos : Nat
  readOnly : Bool
  seeks : Nat → Bool
  moves : Nat → Nat
  small : handle.size < 2 ^ 63

namespace DiskFile

def seekByte (s : DiskFile) (byte : Nat) : Bool × DiskFile :=
  if s.handle.size ≤ byte then (false, s)
  else (s.seeks 0, { s with
    bytePos := if s.seeks 0 then byte else s.bytePos
    seeks := fun n => s.seeks (n + 1) })

/-- `fread`. -/
def readBytes (s : DiskFile) (bytes : Nat) : List UInt8 × DiskFile :=
  let r := min (min bytes (s.handle.size - s.bytePos)) (s.moves 0)
  (s.handle.slice s.bytePos r,
    { s with bytePos := s.bytePos + r, moves := fun n => s.moves (n + 1) })

/-- What a write puts in the file, which does not grow. -/
def written (s : DiskFile) (src : List UInt8) : List UInt8 :=
  (src.take (s.handle.size - s.bytePos)).take (s.moves 0)

theorem size_written (s : DiskFile) (src : List UInt8) :
    (s.handle.writeAt s.bytePos (s.written src)).size = s.handle.size := by
  by_cases h : s.bytePos ≤ s.handle.size
  · exact File.size_writeAt (by simp only [written, List.length_take]; omega)
  · rw [written, Nat.sub_eq_zero_of_le (by omega), List.take_zero, List.take_nil, File.writeAt_nil]

/-- `fwrite`. -/
def writeBytes (s : DiskFile) (src : List UInt8) : Nat × DiskFile :=
  if s.readOnly = true then (0, s)
  else
    ((s.written src).length,
      { s with
        handle := s.handle.writeAt s.bytePos (s.written src)
        bytePos := s.bytePos + (s.written src).length
        moves := fun n => s.moves (n + 1)
        small := by rw [size_written]; exact s.small })

/-- Part of the bytes, from their beginning, is written. -/
theorem handle_writeBytes (s : DiskFile) (bs : List UInt8) : ∃ k ≤ bs.length,
    (s.writeBytes bs).2.handle = s.handle.writeAt s.bytePos (bs.take k) ∧
      (s.writeBytes bs).1 = k := by
  unfold writeBytes
  split
  · exact ⟨0, Nat.zero_le _, by rw [List.take_zero, File.writeAt_nil], rfl⟩
  · have hl : (s.written bs).length ≤ bs.length := by
      simp only [written, List.length_take]
      omega
    refine ⟨(s.written bs).length, hl, ?_, rfl⟩
    show s.handle.writeAt _ (s.written bs) = _
    congr 1
    simp only [written, List.take_take, List.length_take]
    exact (List.take_eq_take_min).trans (congrArg (List.take · bs) (by omega))

/-- An image file is a medium. -/
def medium : Medium DiskFile where
  image := handle
  pos := bytePos
  seekByte := seekByte
  readBytes := readBytes
  writeBytes := writeBytes
  Readable s := (∀ n, s.seeks n = true) ∧ ∀ n, s.handle.size ≤ s.moves n
  Writable s := s.readOnly = false ∧ (∀ n, s.seeks n = true) ∧ ∀ n, s.handle.size ≤ s.moves n
  size_lt := small
  seek_image s a := by unfold seekByte; split <;> rfl
  seek_pos s a h := by
    unfold seekByte at h ⊢
    split
    · rw [if_pos ‹_›] at h
      exact nomatch h
    · rw [if_neg ‹_›] at h
      exact if_pos h
  read_image s n := rfl
  read_slice s n := ⟨_, by omega, rfl⟩
  write_size s bs h := by
    obtain ⟨k, hk, he, _⟩ := s.handle_writeBytes bs
    rw [he, File.size_writeAt (by rw [List.length_take]; omega)]
  write_frame s bs h i hi := by
    obtain ⟨k, hk, he, _⟩ := s.handle_writeBytes bs
    rw [he, File.byte_writeAt_of_not_mem (by rw [List.length_take]; omega)]
  write_all s bs h hn := by
    obtain ⟨k, hk, he, hc⟩ := s.handle_writeBytes bs
    rw [hc] at hn
    rw [he, List.take_of_length_le hn]
  seek_readable s a hr ha := by
    unfold seekByte
    rw [if_neg (by omega)]
    exact ⟨hr.1 0, fun n => hr.1 (n + 1), hr.2⟩
  read_readable s n hr h := by
    refine ⟨?_, hr.1, fun k => hr.2 (k + 1)⟩
    have := hr.2 0
    simp only [readBytes, File.length_slice]
    omega
  seek_writable s a hw ha := by
    unfold seekByte
    rw [if_neg (by omega)]
    exact ⟨hw.2.1 0, hw.1, fun n => hw.2.1 (n + 1), hw.2.2⟩
  write_writable s bs hw h := by
    have hm := hw.2.2 0
    unfold writeBytes
    rw [if_neg (by simp [hw.1])]
    refine ⟨?_, hw.1, hw.2.1, fun n => ?_⟩
    · show (s.written bs).length = _
      simp only [written, List.length_take]
      omega
    · show (s.handle.writeAt s.bytePos (s.written bs)).size ≤ _
      rw [size_written]
      exact hw.2.2 (n + 1)

end DiskFile

end Alphabox.Storage
