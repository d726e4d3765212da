import Alphabox.Storage.Proof.Image

/-!
# Reads and writes of an overlay

`Sim base o s` relates an overlay to the session it stands for: its file is an image of the disk,
and at every moment since it was opened it was an image of the disk as it was after some of the
pieces. One step lemma for each loop of the source follows: `read` gives what the disk holds,
`claim` changes nothing of it, and `write` adds pieces to the session.
-/

namespace Alphabox.Storage

open Lib DiskOverlay

/-- The file is an image of the disk after some of the session's pieces. -/
def Kept (base : File) (s : Session) (file : File) : Prop :=
  ∃ m ≤ s.pieces.length, ∃ map used, Image base file map used (s.after m)

structure Sim (base : File) (o : DiskOverlay) (s : Session) : Prop where
  base_eq : o.base = base
  baseSize_eq : o.baseSize = base.size
  dataStart_eq : o.dataStart = dataStartOf (clusterCount base.size)
  discard_eq : o.discard = s.discard
  image : Image base o.f.cur o.map o.used s.disk
  past : ∀ k, Kept base s (o.f.after k)

/-- Every file write to come succeeds. -/
def Calm (o : DiskOverlay) : Prop := ∀ n, o.f.fate n = true

variable {base file : File} {o : DiskOverlay} {s : Session} {map : Array Nat} {used c pos : Nat}
  {bs : List UInt8}

theorem Image.kept (h : Image base file map used s.disk) : Kept base s file :=
  ⟨_, Nat.le_refl _, map, used, h⟩

/-- One more piece for the session. -/
def Session.add (s : Session) (ps : List (Nat × List UInt8)) : Session :=
  { s with pieces := s.pieces ++ ps }

theorem Session.disk_add {ps : List (Nat × List UInt8)} :
    (s.add ps).disk = s.disk.writeAll ps := by
  simp only [disk, after, add, List.take_length, File.writeAll_append]

theorem Kept.add (h : Kept base s file) (ps : List (Nat × List UInt8)) :
    Kept base (s.add ps) file := by
  obtain ⟨m, hm, map, used, hi⟩ := h
  refine ⟨m, ?_, map, used, ?_⟩
  · simp only [Session.add, List.length_append]
    omega
  · simpa only [Session.after, Session.add, List.take_append_of_le_length hm] using hi

namespace Sim

/-- A file write that leaves an image of the same disk and map, whether it succeeds or not. -/
theorem writeAt (h : Sim base o s)
    (hi : Image base (o.f.cur.writeAt pos bs) o.map o.used s.disk) :
    Sim base (o.writeAt pos bs).1 s := by
  refine ⟨h.base_eq, h.baseSize_eq, h.dataStart_eq, h.discard_eq, ?_,
    Handle.after_writeAt h.past hi.kept⟩
  by_cases hf : o.f.fate 0 = true
  · simpa only [DiskOverlay.writeAt, Handle.cur_writeAt hf] using hi
  · simpa only [DiskOverlay.writeAt, Handle.cur_writeAt_failed (Bool.not_eq_true _ ▸ hf)]
      using h.image

/-- A file write that fails. -/
theorem writeAt_failed (h : Sim base o s) (hf : (o.writeAt pos bs).2 = false) :
    Sim base (o.writeAt pos bs).1 s := by
  have hf0 : o.f.fate 0 = false := hf
  refine ⟨h.base_eq, h.baseSize_eq, h.dataStart_eq, h.discard_eq, ?_, fun k => ?_⟩
  · simpa only [DiskOverlay.writeAt, Handle.cur_writeAt_failed hf0] using h.image
  · simpa only [DiskOverlay.writeAt, Handle.after_writeAt_failed hf0] using h.past k

/-- The cluster of a position inside the base has a map entry. -/
theorem entry_of_lt (h : Sim base o s) (hS : base.size ≤ maxBase) (hp : pos < base.size) :
    u32 (pos / kCluster) = pos / kCluster ∧ ∃ m, o.map[pos / kCluster]? = some m := by
  have hsize := h.image.size_map
  rw [clusterCount_eq hS] at hsize
  have hlt : pos / kCluster < o.map.size := by
    rw [hsize]
    simp only [kCluster]
    omega
  refine ⟨?_, _, Array.getElem?_eq_getElem hlt⟩
  simp only [maxBase, u32, kCluster] at *
  omega

/-! ## Reads -/

/-- The piece of a read that lies in one cluster, from its slot or from the base. -/
theorem read_piece (h : Sim base o s) {m : Nat} (hm : o.map[pos / kCluster]? = some m) (len : Nat)
    (hoff : pos % kCluster + len ≤ kCluster) (hend : pos + len ≤ base.size) :
    (if m ≠ 0 then o.f.cur.readAt (o.slotOffset (slotOf m) + pos % kCluster) len
      else o.base.readAt pos len) = some (s.disk.slice pos len) := by
  have hdiv (i : Nat) (hi : i < len) : (pos + i) / kCluster = pos / kCluster ∧
      (pos + i) % kCluster = pos % kCluster + i := by
    simp only [kCluster] at *
    omega
  cases m with
  | zero =>
    rw [if_neg (by simp), h.base_eq, File.readAt_eq hend]
    refine congrArg some (File.slice_congr fun i hi => ?_)
    rw [h.image.unmapped _ (by omega) ((hdiv i hi).1 ▸ hm)]
  | succ m =>
    have hroom := h.image.room
    have hu := h.image.le_used _ _ hm
    rw [if_pos (by simp), slotOf_succ (h.image.entry_lt hm), slotOffset, h.dataStart_eq,
      File.readAt_eq]
    · refine congrArg some (File.slice_congr fun i hi => ?_)
      rw [h.image.mapped _ (by omega) m ((hdiv i hi).1 ▸ hm), (hdiv i hi).2, Nat.add_assoc]
    · simp only [kCluster] at *
      omega

theorem read (h : Sim base o s) (hS : base.size ≤ maxBase) (pos n : Nat) :
    o.read pos n = some (plainRead s.disk pos n) := by
  induction n using Nat.strong_induction_on generalizing pos with
  | _ n ih =>
    rw [DiskOverlay.read, h.baseSize_eq, plainRead, h.image.size_disk]
    split
    · rename_i hz
      rw [show min n (base.size - pos) = 0 by omega]
      rfl
    · rename_i hz
      obtain ⟨hc, m, hm⟩ := h.entry_of_lt hS (show pos < base.size by omega)
      have hlen := @pieceLen_pos base.size pos n (by omega) (by omega)
      have hmod : pos % kCluster < kCluster := Nat.mod_lt _ (by decide)
      generalize hl : pieceLen base.size pos n = len at hlen
      simp only [pieceLen] at hl
      simp only [hc, hm, h.read_piece hm len (by omega) (by omega)]
      rw [ih (n - len) (by omega), plainRead, h.image.size_disk, Option.map_some,
        File.slice_append]
      congr 2
      omega

/-! ## Writes -/

/-- A slot holds the base's cluster once the copy is in it. -/
theorem copied {D n i : Nat} (hn : n = min (base.size - c * kCluster) kCluster)
    (hi : i < base.size) (hc : i / kCluster = c) :
    base.byte i = (file.writeAt D
      (base.slice (c * kCluster) n ++ List.replicate (kCluster - n) 0)).byte
      (D + i % kCluster) := by
  have hmod : i % kCluster < n := by
    simp only [kCluster] at *
    omega
  rw [File.byte_writeAt_of_mem (by omega) (by simp; omega), Nat.add_sub_cancel_left,
    List.getD_append _ _ _ _ (by simpa using hmod), File.getD_slice hmod]
  congr 1
  simp only [kCluster] at *
  omega

/-- A cluster that is claimed reads as before, whether or not it gets its slot; it does unless one
of the two file writes fails. -/
theorem claim (h : Sim base o s) (hcS : c * kCluster < base.size) (hc : o.map[c]? = some 0) :
    Sim base (o.claim c).1 s ∧
      ((o.claim c).2 = true → ∃ m, (o.claim c).1.map[c]? = some (m + 1)) ∧
      ∃ k ≤ 2, Tried o.f.fate (o.claim c).1.f.fate k ((o.claim c).2 = true) := by
  have hcs := h.image.lt_size hc
  have hused := h.image.used_lt hc
  have hlt := clusterCount_lt base.size
  have hu : u32 (o.used + 1) = o.used + 1 := Nat.mod_eq_of_lt (by omega)
  generalize hn : min (base.size - c * kCluster) kCluster = n
  have hread : o.base.readAt (c * kCluster) n = some (base.slice (c * kCluster) n) := by
    rw [h.base_eq, File.readAt_eq (by omega)]
  generalize hb : base.slice (c * kCluster) n ++ List.replicate (kCluster - n) 0 = buf
  have hlen : buf.length = kCluster := by
    subst hb
    simp only [List.length_append, File.length_slice, List.length_replicate]
    omega
  have hslot : o.slotOffset o.used =
      dataStartOf (clusterCount base.size) + o.used * kCluster := by
    rw [slotOffset, h.dataStart_eq]
  -- the first write fills the slot, which nothing refers to yet
  have him := h.image.copySlot hlen
  rw [← hslot] at him
  have h₁ := h.writeAt him
  generalize ho₁ : (o.writeAt (o.slotOffset o.used) buf).1 = o₁ at h₁
  have e₁ : o.writeAt (o.slotOffset o.used) buf = (o₁, o.f.fate 0) := by rw [← ho₁]; rfl
  have hmap : o₁.map = o.map := by rw [← ho₁]; rfl
  have hus : o₁.used = o.used := by rw [← ho₁]; rfl
  have htried₁ : Tried o.f.fate o₁.f.fate 1 (o.f.fate 0 = true) := by
    rw [← ho₁]
    exact .one o.f _ _
  rw [DiskOverlay.claim]
  simp only [h.baseSize_eq, hn, hread, hb, e₁]
  cases hf : o.f.fate 0 with
  | false =>
    exact ⟨h₁, fun hok => absurd hok Bool.false_ne_true, 1, by decide,
      htried₁.congr (by simp [hf])⟩
  | true =>
    have hcur : o₁.f.cur = o.f.cur.writeAt (o.slotOffset o.used) buf := by
      rw [← ho₁]
      exact Handle.cur_writeAt hf
    generalize ho₂ : (o₁.writeAt (kMapStart + c * 4) (put32 (o.used + 1))).1 = o₂
    have e₂ : o₁.writeAt (kMapStart + c * 4) (put32 (o.used + 1)) = (o₂, o₁.f.fate 0) := by
      rw [← ho₂]
      rfl
    have htried₂ : Tried o.f.fate o₂.f.fate 2 (o₁.f.fate 0 = true) := by
      rw [← ho₂]
      exact (htried₁.congr (by simp [hf])).trans (.one o₁.f _ _)
    simp only [hu, e₂, Bool.not_true, Bool.false_eq_true, if_false]
    cases hf₁ : o₁.f.fate 0 with
    | false =>
      exact ⟨ho₂ ▸ h₁.writeAt_failed hf₁, fun hok => absurd hok Bool.false_ne_true, 2, le_rfl,
        htried₂.congr (by simp [hf₁])⟩
    | true =>
      -- the second write makes the map refer to the slot that now has the copy
      have hroom : dataStartOf (clusterCount base.size) + (o₁.used + 1) * kCluster ≤
          o₁.f.cur.size := by
        have := @File.le_size_writeAt o.f.cur (o.slotOffset o.used) buf (by rw [hlen]; decide)
        rw [hcur, hus, Nat.add_mul]
        omega
      have himg := h₁.image.setEntry (c := c) (hmap ▸ hc) hroom fun i hi hic => by
        rw [hcur, hus, ← hslot, ← hb]
        exact copied hn.symm hi hic
      rw [hus] at himg
      subst ho₂
      simp only [Bool.not_true, Bool.false_eq_true, if_false]
      refine ⟨⟨h₁.base_eq, h₁.baseSize_eq, h₁.dataStart_eq, h₁.discard_eq, ?_,
        Handle.after_writeAt h₁.past himg.kept⟩, ?_, ?_⟩
      · simpa only [DiskOverlay.writeAt, Handle.cur_writeAt hf₁] using himg
      · intro _
        refine ⟨o.used, ?_⟩
        simp only [DiskOverlay.writeAt, hmap]
        rw [Array.getElem?_setIfInBounds_self_of_lt (h.image.size_map ▸ hcs)]
      · exact ⟨2, le_rfl, htried₂.congr (by simp [hf₁])⟩

/-- A piece that reaches its slot is the session's, one that fails is not. -/
theorem write_piece (h : Sim base o s) {m : Nat} (hm : o.map[pos / kCluster]? = some (m + 1))
    (bs : List UInt8) (hoff : pos % kCluster + bs.length ≤ kCluster)
    (hend : pos + bs.length ≤ base.size) (hf : o.f.fate 0 = true) :
    Sim base (o.writeAt (o.slotOffset m + pos % kCluster) bs).1 (s.add [(pos, bs)]) := by
  have himg := h.image.writePiece hm hoff hend
  have hd : (s.add [(pos, bs)]).disk = s.disk.writeAt pos bs := by
    rw [Session.disk_add]
    rfl
  rw [← hd, ← h.dataStart_eq] at himg
  refine ⟨h.base_eq, h.baseSize_eq, h.dataStart_eq, h.discard_eq, ?_,
    Handle.after_writeAt (fun k => (h.past k).add _) himg.kept⟩
  simpa only [DiskOverlay.writeAt, Handle.cur_writeAt hf, slotOffset] using himg

/-- The cluster a piece goes to has a slot, or could not get one. -/
theorem ready (h : Sim base o s) (hcS : c * kCluster < base.size) {m : Nat}
    (hm : o.map[c]? = some m) :
    ∃ o₁ ok, (if m = 0 then o.claim c else (o, true)) = (o₁, ok) ∧ Sim base o₁ s ∧
      (ok = true → ∃ m, o₁.map[c]? = some (m + 1)) ∧
      ∃ k ≤ 2, Tried o.f.fate o₁.f.fate k (ok = true) := by
  cases m with
  | zero =>
    have hclaim := h.claim hcS hm
    rcases he : o.claim c with ⟨o₁, ok⟩
    rw [he] at hclaim
    exact ⟨o₁, ok, if_pos rfl, hclaim⟩
  | succ m => exact ⟨o, true, rfl, h, fun _ => ⟨m, hm⟩, 0, by decide, .none _ rfl⟩

/-- A write moves the first `j` of its pieces, all of them unless a file write it makes fails. -/
theorem write (h : Sim base o s) (hS : base.size ≤ maxBase) (pos : Nat) (src : List UInt8) :
    ∃ o' j k, o.write pos src =
        some (o', (((piecesOf base.size pos src).take j).map (·.2.length)).sum) ∧
      j ≤ (piecesOf base.size pos src).length ∧
      Sim base o' (s.add ((piecesOf base.size pos src).take j)) ∧
      k ≤ 3 * (piecesOf base.size pos src).length ∧
      Tried o.f.fate o'.f.fate k (j = (piecesOf base.size pos src).length) := by
  induction hn : src.length using Nat.strong_induction_on generalizing o s pos src with
  | _ n ih =>
    subst hn
    have hstop : s.add [] = s := by simp [Session.add]
    rw [DiskOverlay.write, piecesOf, h.baseSize_eq]
    split
    · exact ⟨o, 0, 0, rfl, Nat.le_refl _, by simpa [hstop] using h, Nat.zero_le _, .none _ rfl⟩
    · rename_i hz
      obtain ⟨hc, m, hm⟩ := h.entry_of_lt hS (show pos < base.size by omega)
      have hlen := @pieceLen_pos base.size pos src.length (by omega) (by omega)
      have hmod : pos % kCluster < kCluster := Nat.mod_lt _ (by decide)
      generalize hl : pieceLen base.size pos src.length = len at hlen
      simp only [pieceLen] at hl
      have htake : (src.take len).length = len := by
        rw [List.length_take]
        omega
      have hcS : pos / kCluster * kCluster < base.size := by
        have := Nat.div_mul_le_self pos kCluster
        omega
      obtain ⟨o₁, ok, he, h₁, hslot, k₁, hk₁, htried₁⟩ := h.ready hcS hm
      simp only [hc, hm, he]
      cases ok with
      | false =>
        refine ⟨o₁, 0, k₁, rfl, Nat.zero_le _, by simpa [hstop] using h₁, ?_,
          htried₁.congr (by simp)⟩
        rw [List.length_cons]
        omega
      | true =>
        obtain ⟨m₁, hm₁⟩ := hslot rfl
        simp only [hm₁, slotOf_succ (h₁.image.entry_lt hm₁)]
        generalize ho₂ : (o₁.writeAt (o₁.slotOffset m₁ + pos % kCluster) (src.take len)).1 = o₂
        have e₂ : o₁.writeAt (o₁.slotOffset m₁ + pos % kCluster) (src.take len) =
            (o₂, o₁.f.fate 0) := by
          rw [← ho₂]
          rfl
        -- the cluster's slot, if it needed one, and the piece
        have htried₂ : Tried o.f.fate o₂.f.fate (k₁ + 1) (o₁.f.fate 0 = true) := by
          rw [← ho₂]
          exact (htried₁.congr (by simp)).trans (.one o₁.f _ _)
        simp only [e₂]
        cases hf : o₁.f.fate 0 with
        | false =>
          have h₂ : Sim base o₂ s := ho₂ ▸ h₁.writeAt_failed hf
          refine ⟨o₂, 0, k₁ + 1, rfl, Nat.zero_le _, by simpa [hstop] using h₂, ?_,
            htried₂.congr (by simp [hf])⟩
          rw [List.length_cons]
          omega
        | true =>
          have h₂ := h₁.write_piece hm₁ (src.take len) (by omega) (by omega) hf
          rw [ho₂] at h₂
          obtain ⟨o', j, k, hw, hj, hsim, hk, htried⟩ :=
            ih (src.drop len).length (by simp; omega) h₂ (pos + len) (src.drop len) rfl
          refine ⟨o', j + 1, k₁ + 1 + k, ?_, ?_, ?_, ?_, ?_⟩
          · simp only [hw, Option.map_some, List.take_succ_cons, List.map_cons, List.sum_cons, htake]
          · simpa using hj
          · simpa [Session.add] using hsim
          · rw [List.length_cons]
            omega
          · exact ((htried₂.congr (by simp [hf])).trans htried).congr (by simp)

end Sim

end Alphabox.Storage
