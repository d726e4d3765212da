import Alphabox.Storage.ScsiBus

/-!
# A SCSI target sees its medium through its methods only

Two media in a relation that seeks, reads and writes keep, with the same answers, make two targets
that no initiator can tell apart. One lemma for each function of the target says so; the run is an
induction over what the initiator does. The relations are an image file with an overlay and a copy
of its base in memory, while no file write fails.
-/

namespace Alphabox.Storage

open Lib

variable {σ τ α : Type}

/-- Two media whose methods answer alike in states related by `R`. -/
structure Medium.Same (M : Medium σ) (N : Medium τ) (R : σ → τ → Prop) : Prop where
  size : ∀ {s t}, R s t → (M.image s).size = (N.image t).size
  seek : ∀ {s t}, R s t → ∀ a, (M.seekByte s a).1 = (N.seekByte t a).1 ∧
    R (M.seekByte s a).2 (N.seekByte t a).2
  read : ∀ {s t}, R s t → ∀ n, (M.readBytes s n).1 = (N.readBytes t n).1 ∧
    R (M.readBytes s n).2 (N.readBytes t n).2
  write : ∀ {s t}, R s t → ∀ bs, (M.writeBytes s bs).1 = (N.writeBytes t bs).1 ∧
    R (M.writeBytes s bs).2 (N.writeBytes t bs).2

namespace CDisk

/-- One target over two media that are related. -/
def Same (R : σ → τ → Prop) (d : CDisk σ) (e : CDisk τ) : Prop :=
  ∃ m, R d.medium m ∧ e = d.withMedium m

/-- What two targets answer, and what they have become. -/
structure Agree (R : σ → τ → Prop) (x : α × CDisk σ) (y : α × CDisk τ) : Prop where
  out : x.1 = y.1
  same : Same R x.2 y.2

end CDisk

/-- The handlers of what is not modelled treat related targets alike. -/
structure Handlers.Same (hs : Handlers σ) (ks : Handlers τ) (R : σ → τ → Prop) : Prop where
  command : ∀ {d e}, CDisk.Same R d e → CDisk.Agree R (hs.command d) (ks.command e)
  message : ∀ {d e}, CDisk.Same R d e → CDisk.Agree R (hs.message d) (ks.message e)

namespace CDisk

variable {M : Medium σ} {N : Medium τ} {R : σ → τ → Prop} {hs : Handlers σ} {ks : Handlers τ}
  {d : CDisk σ} {e : CDisk τ}

theorem same_withMedium {t : CDisk Unit} {m : σ} {n : τ} (h : R m n) :
    Same R (t.withMedium m) (t.withMedium n) := ⟨n, h, rfl⟩

theorem Agree.of_eq {x : α × CDisk σ} {y : α × CDisk τ} {a b : α} {d : CDisk σ} {e : CDisk τ}
    (h : Agree R x y) (hx : x = (a, d)) (hy : y = (b, e)) : a = b ∧ Same R d e := by
  subst hx hy
  exact ⟨h.out, h.same⟩

/-! ## The medium in blocks -/

theorem Same.lbaSize (hM : M.Same N R) (h : Same R d e) : d.lbaSize M = e.lbaSize N := by
  obtain ⟨m, hm, rfl⟩ := h
  exact congrArg (· / (d.blockSize : Nat)) (hM.size hm)

theorem Same.lbaRangeOk (hM : M.Same N R) (h : Same R d e) (lba blocks : Nat) :
    d.lbaRangeOk M lba blocks = e.lbaRangeOk N lba blocks := by
  simp only [CDisk.lbaRangeOk, h.lbaSize hM]

theorem Same.seekBlock (hM : M.Same N R) (h : Same R d e) (lba : Nat) :
    Agree R (d.seekBlock M lba) (e.seekBlock N lba) := by
  obtain ⟨m, hm, rfl⟩ := h
  obtain ⟨ho, hr⟩ := hM.seek hm (lba * d.blockSize % 2 ^ 64)
  exact ⟨ho, _, hr, rfl⟩

theorem Same.readBlocks (hM : M.Same N R) (h : Same R d e) (n : Nat) :
    (d.readBlocks M n).1 = (e.readBlocks N n).1 ∧
      Agree R (d.readBlocks M n).2 (e.readBlocks N n).2 := by
  obtain ⟨m, hm, rfl⟩ := h
  obtain ⟨ho, hr⟩ := hM.read hm (n * d.blockSize)
  exact ⟨congrArg (fun bs => List.length bs / (d.blockSize : Nat)) ho, ho, _, hr, rfl⟩

theorem Same.writeBlocks (hM : M.Same N R) (h : Same R d e) (src : List UInt8) (n : Nat) :
    Agree R (d.writeBlocks M src n) (e.writeBlocks N src n) := by
  obtain ⟨m, hm, rfl⟩ := h
  obtain ⟨ho, hr⟩ := hM.write hm (src.take (n * d.blockSize))
  exact ⟨congrArg (· / (d.blockSize : Nat)) ho, _, hr, rfl⟩

/-! ## Commands -/

theorem Same.doScsiError (h : Same R d e) (err : Option ScsiErr) (info : Nat) :
    Same R (d.doScsiError err info) (e.doScsiError err info) := by
  obtain ⟨m, hm, rfl⟩ := h
  cases err with
  | none => exact ⟨m, hm, rfl⟩
  | some err => exact ⟨m, hm, rfl⟩

theorem Same.stream_eq (h : Same R d e) : e.stream = d.stream := by
  obtain ⟨m, hm, rfl⟩ := h
  rfl

theorem Same.pieceBlocks_eq (h : Same R d e) : e.streamPieceBlocks = d.streamPieceBlocks := by
  obtain ⟨m, hm, rfl⟩ := h
  rfl

theorem Same.blockSize_eq (h : Same R d e) : e.blockSize = d.blockSize := by
  obtain ⟨m, hm, rfl⟩ := h
  rfl

theorem Same.dato_eq (h : Same R d e) : e.dato = d.dato := by
  obtain ⟨m, hm, rfl⟩ := h
  rfl

theorem Same.phase_eq (h : Same R d e) : e.phase = d.phase := by
  obtain ⟨m, hm, rfl⟩ := h
  rfl

theorem Same.stat_eq (h : Same R d e) : e.stat = d.stat := by
  obtain ⟨m, hm, rfl⟩ := h
  rfl

theorem Same.msgi_eq (h : Same R d e) : e.msgi = d.msgi := by
  obtain ⟨m, hm, rfl⟩ := h
  rfl

theorem Same.atapi_eq (h : Same R d e) : e.atapiMode = d.atapiMode := by
  obtain ⟨m, hm, rfl⟩ := h
  rfl

theorem Same.dati_eq (h : Same R d e) : e.dati = d.dati := by
  obtain ⟨m, hm, rfl⟩ := h
  rfl

theorem Same.cmd_eq (h : Same R d e) : e.cmd = d.cmd := by
  obtain ⟨m, hm, rfl⟩ := h
  rfl

theorem Same.streamReadNext (hM : M.Same N R) (h : Same R d e) :
    Agree R (d.streamReadNext M) (e.streamReadNext N) := by
  have hk := h.seekBlock hM d.stream.lba
  unfold CDisk.streamReadNext
  simp only [h.stream_eq, h.pieceBlocks_eq, h.blockSize_eq, ← hk.out]
  by_cases hs : (d.seekBlock M d.stream.lba).1 = true
  · rw [if_pos hs, if_pos hs]
    obtain ⟨hn, hr⟩ := hk.same.readBlocks hM (min d.stream.blocks d.streamPieceBlocks)
    simp only [← hn, ← hr.out]
    obtain ⟨m, hm, he⟩ := hr.same
    rw [he]
    split <;> exact ⟨rfl, m, hm, rfl⟩
  · rw [if_neg hs, if_neg hs]
    obtain ⟨m, hm, he⟩ := hk.same
    rw [he]
    exact ⟨rfl, m, hm, rfl⟩

theorem Same.streamWritePiece (hM : M.Same N R) (h : Same R d e) :
    Agree R (d.streamWritePiece M) (e.streamWritePiece N) := by
  have hk := h.seekBlock hM (d.stream.lba - d.dato.written / d.blockSize)
  unfold CDisk.streamWritePiece
  simp only [h.stream_eq, h.blockSize_eq, h.dato_eq, ← hk.out]
  by_cases hs : (d.seekBlock M (d.stream.lba - d.dato.written / d.blockSize)).1 = true
  · rw [if_pos hs, if_pos hs]
    have hw := hk.same.writeBlocks hM d.dato.data (d.dato.written / d.blockSize)
    simp only [← hw.out, hw.same.stream_eq, h.pieceBlocks_eq]
    obtain ⟨m, hm, he⟩ := hw.same
    rw [he]
    split
    · split <;> exact ⟨rfl, m, hm, rfl⟩
    · exact ⟨rfl, m, hm, rfl⟩
  · rw [if_neg hs, if_neg hs]
    obtain ⟨m, hm, he⟩ := hk.same
    rw [he]
    exact ⟨rfl, m, hm, rfl⟩

theorem Same.doRead (hM : M.Same N R) (h : Same R d e) : Same R (d.doRead M) (e.doRead N) := by
  unfold CDisk.doRead
  rw [h.cmd_eq]
  rcases (cdbLbaLength d.cmd.data).getD (0, 0) with ⟨lba, blocks⟩
  have hk := h.seekBlock hM lba
  simp only [h.pieceBlocks_eq, h.dati_eq, ← h.lbaRangeOk hM, ← hk.out]
  obtain ⟨m, hm, rfl⟩ := h
  by_cases hok : d.lbaRangeOk M lba blocks = true
  · rw [if_pos hok, if_pos hok]
    by_cases hn : 0 < min blocks d.streamPieceBlocks
    · rw [if_pos hn, if_pos hn]
      by_cases hs : (d.seekBlock M lba).1 = true
      · rw [if_pos hs, if_pos hs]
        obtain ⟨hl, hr⟩ := hk.same.readBlocks hM (min blocks d.streamPieceBlocks)
        simp only [← hl, ← hr.out]
        obtain ⟨m, hm, he⟩ := hr.same
        rw [he]
        split <;> exact ⟨m, hm, rfl⟩
      · rw [if_neg hs, if_neg hs]
        obtain ⟨m, hm, he⟩ := hk.same
        rw [he]
        exact ⟨m, hm, rfl⟩
    · rw [if_neg hn, if_neg hn]
      exact ⟨m, hm, rfl⟩
  · rw [if_neg hok, if_neg hok]
    exact ⟨m, hm, rfl⟩

theorem Same.doWrite (hM : M.Same N R) (h : Same R d e) :
    Agree R (d.doWrite M) (e.doWrite N) := by
  unfold CDisk.doWrite
  rw [h.cmd_eq]
  rcases (cdbLbaLength d.cmd.data).getD (0, 0) with ⟨lba, blocks⟩
  simp only [← h.lbaRangeOk hM]
  obtain ⟨m, hm, rfl⟩ := h
  show Agree R _ (if d.isCdrom then _ else if d.readOnly then _ else _)
  split
  · exact ⟨rfl, m, hm, rfl⟩
  split
  · exact ⟨rfl, m, hm, rfl⟩
  split
  · split <;> exact ⟨rfl, m, hm, rfl⟩
  · exact ⟨rfl, m, hm, rfl⟩

theorem Same.receive (h : Same R d e) : Same R d.receive e.receive := by
  obtain ⟨m, hm, rfl⟩ := h
  exact ⟨m, hm, rfl⟩

/-- A command is refused by both targets or by neither. -/
theorem Same.refuse (hM : M.Same N R) (h : Same R d e) :
    Option.Rel (Same R) (d.refuse M) (e.refuse N) := by
  obtain ⟨m, hm, rfl⟩ := h
  unfold CDisk.refuse
  simp only [← hM.size hm, withMedium]
  split
  · exact .some ⟨m, hm, rfl⟩
  split
  · exact .some ⟨m, hm, rfl⟩
  split
  · exact .some ⟨m, hm, rfl⟩
  split
  · exact .some ⟨m, hm, rfl⟩
  · exact .none

/-- A command that is looked at. -/
theorem Same.doScsiCommand (hM : M.Same N R) (hH : hs.Same ks R) (h : Same R d e) :
    Agree R (d.doScsiCommand M hs) (e.doScsiCommand N ks) := by
  unfold CDisk.doScsiCommand
  rw [h.cmd_eq]
  by_cases hw : d.cmd.written < 1
  · rw [if_pos hw, if_pos hw]
    exact ⟨rfl, h⟩
  rw [if_neg hw, if_neg hw]
  have h := h.receive
  have hr := h.refuse hM
  simp only [h.cmd_eq]
  generalize d.receive = d at h hr ⊢
  generalize e.receive = e at h hr ⊢
  generalize d.refuse M = x at hr ⊢
  generalize e.refuse N = y at hr ⊢
  cases hr with
  | some h' => exact ⟨rfl, h'⟩
  | none =>
    dsimp only
    split
    · exact ⟨rfl, h.doRead hM⟩
    split
    · split
      · exact ⟨rfl, h.doScsiError _ _⟩
      · exact ⟨rfl, h.doRead hM⟩
    split
    · exact h.doWrite hM
    · exact hH.command h

/-! ## Selection and transfers -/

theorem Same.select (h : Same R d e) (atn : Bool) : Same R (d.select atn) (e.select atn) := by
  obtain ⟨m, hm, rfl⟩ := h
  exact ⟨m, hm, rfl⟩

theorem Same.xferIn (h : Same R d e) (bytes : Nat) : Agree R (d.xferIn bytes) (e.xferIn bytes) := by
  unfold CDisk.xferIn
  rw [h.phase_eq]
  obtain ⟨m, hm, he⟩ := h
  cases d.phase <;> rw [he] <;> exact ⟨rfl, m, hm, rfl⟩

theorem Same.xferOut (h : Same R d e) (src : List UInt8) :
    Same R (d.xferOut src) (e.xferOut src) := by
  unfold CDisk.xferOut
  rw [h.phase_eq]
  obtain ⟨m, hm, he⟩ := h
  cases d.phase <;> rw [he] <;> exact ⟨m, hm, rfl⟩

theorem Agree.afterCommand {x : Bool × CDisk σ} {y : Bool × CDisk τ} (h : Agree R x y) :
    Same R (CDisk.afterCommand x) (CDisk.afterCommand y) := by
  obtain ⟨ho, m, hm, he⟩ := h
  unfold CDisk.afterCommand
  rw [← ho, he]
  exact ⟨m, hm, rfl⟩

theorem Agree.setPhase {x : Phase × CDisk σ} {y : Phase × CDisk τ} (h : Agree R x y) :
    Same R { x.2 with phase := x.1 } { y.2 with phase := y.1 } := by
  obtain ⟨ho, m, hm, he⟩ := h
  rw [← ho, he]
  exact ⟨m, hm, rfl⟩

theorem Same.xferDone (hM : M.Same N R) (hH : hs.Same ks R) (h : Same R d e) :
    Same R (d.xferDone M hs) (e.xferDone N ks) := by
  have hcmd := h.doScsiCommand hM hH
  have hread := h.streamReadNext hM
  have hwrite := h.streamWritePiece hM
  have hmsg := hH.message h
  unfold CDisk.xferDone
  rw [h.phase_eq]
  simp only [h.stream_eq, h.dato_eq, h.dati_eq, h.stat_eq, h.msgi_eq, h.atapi_eq, h.cmd_eq,
    ← hread.out]
  cases d.phase with
  | dataOut =>
    dsimp only
    split
    · exact h
    split
    · exact hwrite.setPhase
    · exact Agree.afterCommand ⟨rfl, hcmd.same⟩
  | dataIn =>
    dsimp only
    split
    · exact h
    split
    · split
      · exact hread.same
      · obtain ⟨m, hm, he⟩ := hread.same
        rw [he]
        exact ⟨m, hm, rfl⟩
    · obtain ⟨m, hm, rfl⟩ := h
      exact ⟨m, hm, rfl⟩
  | command => exact hcmd.afterCommand
  | status =>
    obtain ⟨m, hm, rfl⟩ := h
    dsimp only
    split
    · exact ⟨m, hm, rfl⟩
    split <;> exact ⟨m, hm, rfl⟩
  | msgOut => exact hmsg.setPhase
  | msgIn =>
    obtain ⟨m, hm, rfl⟩ := h
    dsimp only
    split
    · exact ⟨m, hm, rfl⟩
    split <;> exact ⟨m, hm, rfl⟩
  | free => exact h

/-- One step of an initiator. -/
theorem Same.busOp (hM : M.Same N R) (hH : hs.Same ks R) (h : Same R d e) (op : BusOp) :
    Agree R (d.busOp M hs op) (e.busOp N ks op) := by
  cases op with
  | select atn => exact ⟨rfl, h.select atn⟩
  | take bytes => exact h.xferIn bytes
  | give src => exact ⟨rfl, h.xferOut src⟩
  | done => exact ⟨rfl, h.xferDone hM hH⟩

/-- What an initiator sees. -/
theorem Agree.view {x : List UInt8 × CDisk σ} {y : List UInt8 × CDisk τ} (h : Agree R x y) :
    view x = view y := by
  obtain ⟨ho, m, hm, he⟩ := h
  unfold CDisk.view
  rw [← ho, he]
  rfl

end CDisk

/-! ## The media -/

/-- An image file with an overlay and a copy in memory hold the same bytes and stand at the same
one. -/
structure OverlayFile.Copied (base : File) (discard readOnly : Bool) (s : OverlayFile)
    (t : DiskRam) : Prop where
  base_eq : s.overlay.base = base
  disk : s.overlay.disk = t.ramdisk
  pos : s.bytePos = t.bytePos
  discard_eq : s.overlay.discard = discard
  read_only : s.readOnly = readOnly
  copy_read_only : t.readOnly = readOnly
  calm : Calm s.overlay

namespace OverlayFile

variable {base : File} {discard readOnly : Bool} {s : OverlayFile} {t : DiskRam}

theorem Copied.size_eq (h : Copied base discard readOnly s t) :
    s.overlay.base.size = t.ramdisk.size := by
  rw [← h.disk]
  rfl

theorem Copied.seek (h : Copied base discard readOnly s t) (a : Nat) :
    (s.seekByte a).1 = (t.seekByte a).1 ∧
      Copied base discard readOnly (s.seekByte a).2 (t.seekByte a).2 := by
  unfold seekByte DiskRam.seekByte
  rw [h.size_eq]
  split
  · exact ⟨rfl, h⟩
  · exact ⟨rfl, { h with pos := rfl }⟩

theorem Copied.read (h : Copied base discard readOnly s t) (n : Nat) :
    (s.readBytes n).1 = (t.readBytes n).1 ∧
      Copied base discard readOnly (s.readBytes n).2 (t.readBytes n).2 := by
  have ht : s.taken n = plainRead t.ramdisk t.bytePos n := by rw [s.taken_eq, h.disk, h.pos]
  unfold readBytes DiskRam.readBytes
  rw [ht, plainRead]
  split
  · rename_i hp
    rw [Nat.sub_eq_zero_of_le hp, Nat.min_zero]
    exact ⟨rfl, { h with pos := h.pos }⟩
  · have hpos : s.bytePos + (t.ramdisk.slice t.bytePos (min n (t.ramdisk.size - t.bytePos))).length =
        t.bytePos + min n (t.ramdisk.size - t.bytePos) := by rw [h.pos, File.length_slice]
    exact ⟨rfl, { h with pos := hpos }⟩

theorem Copied.write (h : Copied base discard readOnly s t) (bs : List UInt8) :
    (s.writeBytes bs).1 = (t.writeBytes bs).1 ∧
      Copied base discard readOnly (s.writeBytes bs).2 (t.writeBytes bs).2 := by
  obtain ⟨-, hb, hd, -, hdis, hc⟩ := s.written_spec bs
  obtain ⟨hk, hcalm⟩ := hc h.calm
  rw [h.size_eq, h.pos] at hk
  rw [h.disk, h.pos, hk] at hd
  have hro : s.readOnly = t.readOnly := h.read_only.trans h.copy_read_only.symm
  unfold writeBytes DiskRam.writeBytes
  by_cases hr : s.readOnly = true
  · rw [if_pos hr, dif_pos (.inl (hro ▸ hr))]
    exact ⟨rfl, h⟩
  rw [if_neg hr]
  by_cases hp : t.ramdisk.size ≤ t.bytePos
  · rw [dif_pos (.inr hp)]
    rw [Nat.sub_eq_zero_of_le hp, Nat.min_zero] at hk hd
    refine ⟨hk, hb.trans h.base_eq, ?_, ?_, hdis.trans h.discard_eq, h.read_only,
      h.copy_read_only, hcalm⟩
    · rw [hd, List.take_zero, File.writeAt_nil]
    · show s.bytePos + (s.written bs).2 = _
      rw [hk, h.pos]
      rfl
  · rw [dif_neg (by rw [← hro]; exact not_or.mpr ⟨hr, hp⟩)]
    refine ⟨hk, hb.trans h.base_eq, hd.trans ?_, ?_, hdis.trans h.discard_eq, h.read_only,
      h.copy_read_only, hcalm⟩
    · show _ = t.ramdisk.writeAt t.bytePos (t.written bs)
      rw [DiskRam.written, Nat.min_comm]
      exact congrArg _ List.take_eq_take_min.symm
    · show s.bytePos + (s.written bs).2 = t.bytePos + _
      rw [hk, h.pos]

/-- So a target cannot tell them apart. -/
theorem same_medium (base : File) (discard readOnly : Bool) :
    medium.Same DiskRam.medium (Copied base discard readOnly) where
  size h := congrArg File.size h.disk
  seek h a := h.seek a
  read h n := h.read n
  write h bs := h.write bs

/-- An overlay can always be opened again. -/
theorem restart_spec (s : OverlayFile) (discard : Bool) :
    ∃ s', s.restart discard = .ok s' ∧ s'.overlay.base = s.overlay.base ∧
      s'.overlay.disk = (if s.overlay.discard then s.overlay.base else s.overlay.disk) ∧
      s'.overlay.discard = discard ∧ s'.bytePos = 0 ∧ s'.readOnly = s.readOnly ∧
      (Calm s.overlay → Calm s'.overlay) := by
  obtain ⟨ss, h⟩ := s.sound
  obtain ⟨o, -, out, he, -⟩ := h.step s.small (.op (.reopen discard))
  unfold restart
  split
  · rename_i err herr
    rw [show s.overlay.reopen _ _ = _ from he] at herr
    cases herr
  · rename_i r hr
    obtain ⟨hb, -, hd, hdis, hc⟩ := reopened s.small s.sound hr
    exact ⟨_, rfl, hb, hd, hdis, rfl, rfl, hc⟩

/-- A new overlay stands for its base. -/
theorem create_spec (base : File) (hS : base.size ≤ maxBase) (path : String)
    (discard readOnly : Bool) (fate : Nat → Bool) :
    ∃ s, create base hS path discard readOnly fate = .ok s ∧ s.overlay.base = base ∧
      s.overlay.disk = base ∧ s.overlay.discard = discard ∧ s.bytePos = 0 ∧
      s.readOnly = readOnly ∧ s.overlay.f.fate = fate := by
  obtain ⟨o, he, -⟩ := open_absent base path discard fate
  unfold create
  split
  · rename_i err herr
    rw [he] at herr
    cases herr
  · rename_i o' ho
    obtain ⟨hb, -, hd, hdis, hf⟩ := created ho
    exact ⟨_, rfl, hb, hd hS, hdis, rfl, rfl, hf⟩

end OverlayFile

/-! ## Runs -/

namespace OverlayDrive

variable {hs : Handlers OverlayFile} {ks : Handlers DiskRam} {base : File} {fresh : DiskRam}
  {d : OverlayDrive} {p : PlainDrive}

/-- The drive over an overlay and the drive over a copy. -/
def Copied (fresh : DiskRam) (d : OverlayDrive) (p : PlainDrive) : Prop :=
  CDisk.Same (OverlayFile.Copied fresh.ramdisk p.discard fresh.readOnly) d p.disk

/-- One event. -/
theorem Copied.step (hH : ∀ dis ro, hs.Same ks (OverlayFile.Copied fresh.ramdisk dis ro))
    (hf : fresh.bytePos = 0) (h : Copied fresh d p) (e : DriveEvent) :
    ∃ d', d.step hs e = .ok ((p.step ks fresh e).1, d') ∧
      Copied fresh d' (p.step ks fresh e).2 := by
  cases e with
  | bus op =>
    have ha := CDisk.Same.busOp (OverlayFile.same_medium _ _ _) (hH _ _) h op
    refine ⟨_, ?_, ha.same⟩
    show Except.ok _ = _
    rw [ha.view]
    rfl
  | restart target discard =>
    obtain ⟨m, hm, he⟩ := id h
    obtain ⟨s', hs', hb, hd, hdis, hpos, hro, hc⟩ := d.medium.restart_spec discard
    have hk : OverlayFile.Copied fresh.ramdisk discard fresh.readOnly s'
        (if p.discard then fresh else { p.disk.medium with bytePos := 0 }) := by
      rw [hm.discard_eq, hm.base_eq, hm.disk] at hd
      rw [he]
      split
      · rename_i hdp
        rw [if_pos hdp] at hd
        exact ⟨hb.trans hm.base_eq, hd, hpos.trans hf.symm, hdis, hro.trans hm.read_only, rfl,
          hc hm.calm⟩
      · rename_i hdp
        rw [if_neg hdp] at hd
        exact ⟨hb.trans hm.base_eq, hd, hpos, hdis, hro.trans hm.read_only, hm.copy_read_only,
          hc hm.calm⟩
    refine ⟨target.withMedium s', ?_, CDisk.same_withMedium hk⟩
    simp only [OverlayDrive.step, hs']
    rfl

theorem Copied.runAll (hH : ∀ dis ro, hs.Same ks (OverlayFile.Copied fresh.ramdisk dis ro))
    (hf : fresh.bytePos = 0) (h : Copied fresh d p) (es : List DriveEvent) :
    ∃ d', d.runAll hs es = .ok ((p.runAll ks fresh es).1, d') ∧
      Copied fresh d' (p.runAll ks fresh es).2 := by
  induction es generalizing d p with
  | nil => exact ⟨d, rfl, h⟩
  | cons e es ih =>
    obtain ⟨d₁, he, h₁⟩ := h.step hH hf e
    obtain ⟨d', hes, h'⟩ := ih h₁
    refine ⟨d', ?_, h'⟩
    simp only [OverlayDrive.runAll, he, hes, PlainDrive.runAll]

end OverlayDrive

/-- The base of an overlay, in memory. -/
def DiskRam.ofBase (base : File) (hS : base.size ≤ maxBase) (readOnly : Bool) : DiskRam :=
  ⟨base, 0, readOnly, Nat.lt_of_le_of_lt hS (by decide)⟩

/-- While no file write fails, no initiator can tell a drive over an overlay from one over a copy
of the base, whatever it does and however often the machine is switched off; and the base stays as
it was. -/
theorem overlay_drive_plain (base : File) (hS : base.size ≤ maxBase) (path : String)
    (discard readOnly : Bool) (hs : Handlers OverlayFile) (ks : Handlers DiskRam)
    (hH : ∀ dis ro, hs.Same ks (OverlayFile.Copied base dis ro)) (target : CDisk Unit)
    (es : List DriveEvent) :
    let r := PlainDrive.run ks (DiskRam.ofBase base hS readOnly) discard target es
    ∃ d, OverlayDrive.run hs base hS path discard readOnly (fun _ => true) target es =
        .ok (r.1, d) ∧
      d.medium.overlay.base = base ∧ d.medium.overlay.disk = r.2.disk.medium.ramdisk := by
  intro r
  obtain ⟨s, hs', hb, hd, hdis, hpos, hro, hf⟩ :=
    OverlayFile.create_spec base hS path discard readOnly fun _ => true
  have h : OverlayDrive.Copied (DiskRam.ofBase base hS readOnly) (target.withMedium s)
      ⟨target.withMedium (DiskRam.ofBase base hS readOnly), discard⟩ :=
    CDisk.same_withMedium ⟨hb, hd, hpos, hdis, hro, rfl, fun n => by rw [hf]⟩
  obtain ⟨d, hrun, hsame⟩ := h.runAll hH rfl es
  refine ⟨d, ?_, ?_⟩
  · simp only [OverlayDrive.run, hs', hrun]
    rfl
  · obtain ⟨m, hm, he⟩ := hsame
    refine ⟨hm.base_eq, hm.disk.trans ?_⟩
    show _ = (PlainDrive.runAll _ _ _ _).2.disk.medium.ramdisk
    rw [he]
    rfl

theorem sector_le : 0 < 512 ∧ 512 ≤ bufSize := by decide

/-- A hard disk just switched on. -/
def idleTarget : CDisk Unit where
  medium := ()
  blockSize := ⟨512, sector_le⟩
  isCdrom := false
  readOnly := false
  isRemovable := false
  atapiMode := false
  phase := .free
  identifyReceived := false
  lunSelected := false
  resetUnitAttention := false
  mediaUnitAttention := false
  mediaTrayOpen := false
  cmd := ⟨fun _ => 0, 0⟩
  msgo := []
  dati := ⟨[], 0, 0⟩
  dato := ⟨[], 0⟩
  stat := ⟨[], 0, 0⟩
  msgi := ⟨[], 0, 0⟩
  sense := none
  stream := .none

/-- Neither another command nor a message. -/
def idleHandlers (σ : Type) : Handlers σ := ⟨fun d => (false, d), fun d => (.command, d)⟩

/-- A WRITE of block 1, the machine switched off and on, and a READ of the block. -/
def writeThenRead : List DriveEvent :=
  [.bus (.select false), .bus (.give [0x0a, 0, 0, 1, 1, 0]), .bus .done,
    .bus (.give (List.replicate 512 0x5a)), .bus .done, .restart idleTarget false,
    .bus (.select false), .bus (.give [0x08, 0, 0, 1, 1, 0]), .bus .done, .bus (.take 512)]

theorem overlay_drive_plain_restarted :
    ∃ d, OverlayDrive.run (idleHandlers OverlayFile) ⟨2048, fun _ => 0, fun _ _ => rfl⟩ (by decide)
        "disk.ovl" false false (fun _ => true) idleTarget writeThenRead =
        .ok ((PlainDrive.run (idleHandlers DiskRam)
          (DiskRam.ofBase ⟨2048, fun _ => 0, fun _ _ => rfl⟩ (by decide) false) false idleTarget
          writeThenRead).1, d) ∧
      d.medium.overlay.base = ⟨2048, fun _ => 0, fun _ _ => rfl⟩ :=
  (overlay_drive_plain ⟨2048, fun _ => 0, fun _ _ => rfl⟩ (by decide) "disk.ovl" false false
    (idleHandlers OverlayFile) (idleHandlers DiskRam)
    (fun _ _ => ⟨fun h => ⟨rfl, h⟩, fun h => ⟨rfl, h⟩⟩) idleTarget writeThenRead).imp
    fun _ h => ⟨h.1, h.2.1⟩

end Alphabox.Storage
