import Alphabox.Storage.Medium
import Alphabox.Storage.Proof.Faithful

/-!
# An image file with an overlay (`devices/storage/DiskFile.cpp`)

`CDiskFile` over an image whose writes go to an overlay. `DiskOverlay.disk` is the disk the overlay
stands for, computed from its map, its file and its base; with it the image and its overlay are a
medium, whichever file writes fail. The overlay's soundness is a field, so that every operation
proves it once.
-/

namespace Alphabox.Storage

open Lib DiskOverlay

variable {base d : File} {o : DiskOverlay} {s : Session}

/-! ## The disk an overlay stands for -/

namespace DiskOverlay

/-- A byte is its slot's where its cluster has one, else the base's. -/
def diskByte (o : DiskOverlay) (i : Nat) : UInt8 :=
  match o.map[i / kCluster]? with
  | some (m + 1) => o.f.cur.byte (o.slotOffset m + i % kCluster)
  | _ => o.base.byte i

def disk (o : DiskOverlay) : File where
  size := o.base.size
  byte i := if i < o.base.size then o.diskByte i else 0
  past _ hi := if_neg (Nat.not_lt.mpr hi)

end DiskOverlay

theorem Sim.disk_eq (h : Sim base o s) (hS : base.size ≤ maxBase) : o.disk = s.disk := by
  have hsize : o.disk.size = s.disk.size := by
    rw [h.image.size_disk, ← h.base_eq]
    rfl
  refine File.ext hsize (funext fun i => ?_)
  show (if i < o.base.size then o.diskByte i else 0) = _
  by_cases hi : i < o.base.size
  · rw [if_pos hi]
    rw [h.base_eq] at hi
    obtain ⟨-, m, hm⟩ := h.entry_of_lt hS hi
    unfold diskByte
    rw [hm]
    cases m with
    | zero =>
      rw [h.image.unmapped i hi hm]
      exact congrArg (File.byte · i) h.base_eq
    | succ m =>
      rw [h.image.mapped i hi m hm]
      simp only [slotOffset, h.dataStart_eq]
  · rw [if_neg hi]
    refine (s.disk.past i ?_).symm
    rw [← hsize]
    exact Nat.not_lt.mp hi

/-- The first pieces of a write put its first bytes on the disk. -/
theorem writeAll_take_piecesOf (d : File) (S pos : Nat) (src : List UInt8) (j : Nat) :
    let k := (((piecesOf S pos src).take j).map (·.2.length)).sum
    d.writeAll ((piecesOf S pos src).take j) = d.writeAt pos (src.take k) ∧
      k ≤ min src.length (S - pos) := by
  induction hn : src.length using Nat.strong_induction_on generalizing d pos src j with
  | _ n ih =>
    subst hn
    rw [piecesOf]
    split
    · simp
    · cases j with
      | zero => simp
      | succ j =>
        have hlen := @pieceLen_pos S pos src.length (by omega) (by omega)
        generalize hl : pieceLen S pos src.length = len at hlen
        simp only [pieceLen] at hl
        have htake : (src.take len).length = len := by
          rw [List.length_take]
          omega
        obtain ⟨hw, hk⟩ := ih (src.drop len).length (by simp; omega) (d.writeAt pos (src.take len))
          (pos + len) (src.drop len) j rfl
        simp only [List.take_succ_cons, File.writeAll_cons, List.map_cons, List.sum_cons, hw, htake]
        generalize (((piecesOf S (pos + len) (src.drop len)).take j).map (·.2.length)).sum = k at hk ⊢
        rw [List.length_drop] at hk
        refine ⟨?_, by omega⟩
        have happ := @File.writeAt_append d pos (src.take len) ((src.drop len).take k)
        rw [htake] at happ
        rw [happ, ← List.take_add]

/-! ## The file -/

/-- `CDiskFile` over an image with an overlay. -/
structure OverlayFile where
  overlay : DiskOverlay
  bytePos : Nat
  readOnly : Bool
  small : overlay.base.size ≤ maxBase
  sound : ∃ s, Sim overlay.base overlay s

namespace OverlayFile

/-- No seek in the image's file. -/
def seekByte (s : OverlayFile) (byte : Nat) : Bool × OverlayFile :=
  if s.overlay.base.size ≤ byte then (false, s) else (true, { s with bytePos := byte })

/-- What the overlay gives for a read. -/
def taken (s : OverlayFile) (bytes : Nat) : List UInt8 :=
  (s.overlay.read s.bytePos bytes).getD []

def readBytes (s : OverlayFile) (bytes : Nat) : List UInt8 × OverlayFile :=
  (s.taken bytes, { s with bytePos := s.bytePos + (s.taken bytes).length })

/-- The overlay after a write to it, and how many bytes were moved. -/
def written (s : OverlayFile) (src : List UInt8) : DiskOverlay × Nat :=
  (s.overlay.write s.bytePos src).getD (s.overlay, 0)

theorem taken_eq (s : OverlayFile) (n : Nat) : s.taken n = plainRead s.overlay.disk s.bytePos n := by
  obtain ⟨ss, h⟩ := s.sound
  rw [taken, h.read s.small, h.disk_eq s.small]
  rfl

/-- A write to the overlay moves its first bytes, all there is room for where no file write
fails. -/
theorem written_spec (s : OverlayFile) (src : List UInt8) :
    (∃ ss, Sim s.overlay.base (s.written src).1 ss) ∧
      (s.written src).1.base = s.overlay.base ∧
      (s.written src).1.disk = s.overlay.disk.writeAt s.bytePos (src.take (s.written src).2) ∧
      (s.written src).2 ≤ min src.length (s.overlay.base.size - s.bytePos) ∧
      (s.written src).1.discard = s.overlay.discard ∧
      (Calm s.overlay → (s.written src).2 = min src.length (s.overlay.base.size - s.bytePos) ∧
        Calm (s.written src).1) := by
  obtain ⟨ss, h⟩ := s.sound
  obtain ⟨o', j, c, hw, -, hs, -, hc⟩ := h.write s.small s.bytePos src
  have he : s.written src =
      (o', (((piecesOf s.overlay.base.size s.bytePos src).take j).map (·.2.length)).sum) := by
    rw [written, hw]
    rfl
  obtain ⟨hd, hk⟩ := writeAll_take_piecesOf s.overlay.disk s.overlay.base.size s.bytePos src j
  rw [he]
  refine ⟨⟨_, hs⟩, hs.base_eq, ?_, hk, ?_, fun hcalm => ⟨?_, (hc.calm hcalm).2⟩⟩
  · rw [hs.disk_eq s.small, Session.disk_add, ← h.disk_eq s.small]
    exact hd
  · rw [hs.discard_eq, h.discard_eq]
    rfl
  · rw [(hc.calm hcalm).1, List.take_length]
    exact (writeAll_piecesOf s.overlay.disk _ _ _).2

/-- The overlay writes where the image does not: its own file. -/
def writeBytes (s : OverlayFile) (src : List UInt8) : Nat × OverlayFile :=
  if s.readOnly = true then (0, s)
  else
    ((s.written src).2,
      { s with
        overlay := (s.written src).1
        bytePos := s.bytePos + (s.written src).2
        small := (s.written_spec src).2.1 ▸ s.small
        sound := (s.written_spec src).2.1 ▸ (s.written_spec src).1 })

/-- Part of the bytes, from their beginning, is written. -/
theorem disk_writeBytes (s : OverlayFile) (bs : List UInt8) : ∃ k ≤ bs.length,
    (s.writeBytes bs).2.overlay.disk = s.overlay.disk.writeAt s.bytePos (bs.take k) ∧
      (s.writeBytes bs).1 = k := by
  unfold writeBytes
  split
  · exact ⟨0, Nat.zero_le _, by rw [List.take_zero, File.writeAt_nil], rfl⟩
  · obtain ⟨-, -, hd, hk, -⟩ := s.written_spec bs
    exact ⟨_, by omega, hd, rfl⟩

theorem size_lt (s : OverlayFile) : s.overlay.disk.size < 2 ^ 63 :=
  Nat.lt_of_le_of_lt s.small (by decide)

theorem seek_disk (s : OverlayFile) (a : Nat) :
    (s.seekByte a).2.overlay.disk = s.overlay.disk := by
  unfold seekByte
  split <;> rfl

theorem seek_bytePos (s : OverlayFile) (a : Nat) (h : (s.seekByte a).1 = true) :
    (s.seekByte a).2.bytePos = a := by
  unfold seekByte at h ⊢
  split
  · rw [if_pos ‹_›] at h
    exact absurd h Bool.false_ne_true
  · rfl

theorem read_disk (s : OverlayFile) (n : Nat) :
    (s.readBytes n).2.overlay.disk = s.overlay.disk := rfl

theorem read_taken (s : OverlayFile) (n : Nat) :
    ∃ k ≤ n, (s.readBytes n).1 = s.overlay.disk.slice s.bytePos k :=
  ⟨_, Nat.min_le_left _ _, s.taken_eq n⟩

theorem write_disk_size (s : OverlayFile) (bs : List UInt8)
    (h : s.bytePos + bs.length ≤ s.overlay.disk.size) :
    (s.writeBytes bs).2.overlay.disk.size = s.overlay.disk.size := by
  obtain ⟨k, hk, he, -⟩ := s.disk_writeBytes bs
  rw [he, File.size_writeAt (by rw [List.length_take]; omega)]

theorem write_disk_frame (s : OverlayFile) (bs : List UInt8)
    (_ : s.bytePos + bs.length ≤ s.overlay.disk.size) (i : Nat)
    (hi : i < s.bytePos ∨ s.bytePos + bs.length ≤ i) :
    (s.writeBytes bs).2.overlay.disk.byte i = s.overlay.disk.byte i := by
  obtain ⟨k, hk, he, -⟩ := s.disk_writeBytes bs
  rw [he, File.byte_writeAt_of_not_mem (by rw [List.length_take]; omega)]

theorem write_disk_all (s : OverlayFile) (bs : List UInt8)
    (_ : s.bytePos + bs.length ≤ s.overlay.disk.size) (hn : bs.length ≤ (s.writeBytes bs).1) :
    (s.writeBytes bs).2.overlay.disk = s.overlay.disk.writeAt s.bytePos bs := by
  obtain ⟨k, hk, he, hc⟩ := s.disk_writeBytes bs
  rw [hc] at hn
  rw [he, List.take_of_length_le hn]

theorem write_calm (s : OverlayFile) (bs : List UInt8)
    (hw : s.readOnly = false ∧ Calm s.overlay)
    (h : s.bytePos + bs.length ≤ s.overlay.disk.size) : (s.writeBytes bs).1 = bs.length ∧
      (s.writeBytes bs).2.readOnly = false ∧ Calm (s.writeBytes bs).2.overlay := by
  have h' : s.bytePos + bs.length ≤ s.overlay.base.size := h
  obtain ⟨-, -, -, -, -, hc⟩ := s.written_spec bs
  obtain ⟨hk, hc'⟩ := hc hw.2
  unfold writeBytes
  rw [if_neg (by simp [hw.1])]
  refine ⟨?_, hw.1, hc'⟩
  show (s.written bs).2 = _
  omega

theorem seek_taken (s : OverlayFile) (a : Nat) (_ : True) (ha : a < s.overlay.disk.size) :
    (s.seekByte a).1 = true ∧ True := by
  have hn : ¬ s.overlay.base.size ≤ a := Nat.not_le.mpr ha
  exact ⟨by rw [seekByte, if_neg hn], trivial⟩

theorem read_length (s : OverlayFile) (n : Nat) (_ : True)
    (h : s.bytePos + n ≤ s.overlay.disk.size) : (s.readBytes n).1.length = n ∧ True := by
  refine ⟨?_, trivial⟩
  have h' : s.bytePos + n ≤ s.overlay.disk.size := h
  show (s.taken n).length = n
  rw [s.taken_eq, plainRead, File.length_slice]
  omega

theorem seek_calm (s : OverlayFile) (a : Nat) (hw : s.readOnly = false ∧ Calm s.overlay)
    (ha : a < s.overlay.disk.size) : (s.seekByte a).1 = true ∧
      (s.seekByte a).2.readOnly = false ∧ Calm (s.seekByte a).2.overlay := by
  have hn : ¬ s.overlay.base.size ≤ a := Nat.not_le.mpr ha
  rw [seekByte, if_neg hn]
  exact ⟨rfl, hw⟩

/-- An image file with an overlay is a medium. -/
def medium : Medium OverlayFile where
  image s := s.overlay.disk
  pos := bytePos
  seekByte := seekByte
  readBytes := readBytes
  writeBytes := writeBytes
  Readable _ := True
  Writable s := s.readOnly = false ∧ Calm s.overlay
  size_lt := size_lt
  seek_image := seek_disk
  seek_pos := seek_bytePos
  read_image := read_disk
  read_slice := read_taken
  write_size := write_disk_size
  write_frame := write_disk_frame
  write_all := write_disk_all
  seek_readable := seek_taken
  read_readable := read_length
  seek_writable := seek_calm
  write_writable := write_calm

end OverlayFile

end Alphabox.Storage
