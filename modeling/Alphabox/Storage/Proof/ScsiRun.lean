import Alphabox.Storage.Proof.ScsiPiece

/-!
# READ and WRITE, transfer by transfer

`Reading` and `Writing` are the states between two transfers. A transfer moves the bytes it is of,
and the last one of a piece leads to the next piece, to GOOD or, where the medium fails, to CHECK
CONDITION. By induction so does every way to cut the data phase into transfers.
-/

namespace Alphabox.Storage

open Lib

namespace CDisk

variable {σ : Type} {M : Medium σ} {hs : Handlers σ} {d d' : CDisk σ} {start n stop pos k : Nat}

/-! ## READ -/

/-- A READ of the blocks before `stop` has a piece for the initiator, whose next byte is the
medium's at `pos`. -/
structure Reading (M : Medium σ) (d : CDisk σ) (pos stop : Nat) : Prop where
  phase : d.phase = .dataIn
  stat : d.stat = ⟨[0x00], 1, 0⟩
  write : d.stream.write = false
  active : d.stream.blocks ≠ 0 → d.stream.active = true
  stops : d.stream.lba + d.stream.blocks = stop
  onMedium : stop ≤ d.lbaSize M
  read : d.dati.read < d.dati.available
  data : d.dati.data.drop d.dati.read =
    (M.image d.medium).slice pos (d.dati.available - d.dati.read)
  ends : pos + (d.dati.available - d.dati.read) = d.stream.lba * d.blockSize

/-- What a READ may have come to: it goes on from `pos`, has ended there, or the medium failed. -/
def ReadState (M : Medium σ) (d d' : CDisk σ) (pos stop : Nat) : Prop :=
  M.image d'.medium = M.image d.medium ∧ d'.blockSize = d.blockSize ∧
    (M.Readable d.medium → M.Readable d'.medium) ∧
    (Reading M d' pos stop ∨ Good d' ∧ pos = stop * d.blockSize ∨
      Check d' ∧ ¬ M.Readable d.medium ∧ pos < stop * d.blockSize)

theorem ReadState.trans {d'' : CDisk σ} {pos' : Nat} (h : ReadState M d d' pos stop)
    (h' : ReadState M d' d'' pos' stop) : ReadState M d d'' pos' stop := by
  obtain ⟨hi, hb, hr, _⟩ := h
  obtain ⟨hi', hb', hr', hc⟩ := h'
  refine ⟨hi'.trans hi, hb'.trans hb, hr' ∘ hr, ?_⟩
  rw [hb] at hc
  obtain hc | hc | ⟨hc, hn, hp⟩ := hc
  · exact .inl hc
  · exact .inr (.inl hc)
  · exact .inr (.inr ⟨hc, fun h0 => hn (hr h0), hp⟩)

/-- The bytes of one or more blocks. -/
theorem mul_blockSize_pos (d : CDisk σ) (hn : n ≠ 0) : 0 < n * d.blockSize :=
  Nat.mul_pos (Nat.pos_of_ne_zero hn) d.blockSize.2.1

/-- The next piece of a READ. -/
theorem streamReadNext_spec (hb : d.stream.blocks ≠ 0) (hstop : d.stream.lba + d.stream.blocks = stop)
    (hm : stop ≤ d.lbaSize M) (hp : d.phase = .dataIn) (hst : d.stat = ⟨[0x00], 1, 0⟩)
    (hw : d.stream.write = false) (ha : d.stream.active = true) :
    ReadState M d (if (d.streamReadNext M).1 then (d.streamReadNext M).2
      else { (d.streamReadNext M).2 with phase := .status }) (d.stream.lba * d.blockSize) stop := by
  have hn : 0 < min d.stream.blocks d.streamPieceBlocks :=
    Nat.lt_min.mpr ⟨Nat.pos_of_ne_zero hb, d.streamPieceBlocks_pos⟩
  have hr : d.stream.lba + min d.stream.blocks d.streamPieceBlocks ≤ d.lbaSize M := by omega
  have hle : min d.stream.blocks d.streamPieceBlocks ≤ d.stream.blocks := Nat.min_le_left _ _
  have hlt : d.stream.lba * d.blockSize < stop * d.blockSize :=
    Nat.mul_lt_mul_of_pos_right (by omega) d.blockSize.2.1
  simp only [streamReadNext]
  generalize min d.stream.blocks d.streamPieceBlocks = n at hn hr hle ⊢
  obtain ⟨hsi, hsp, hsr, _⟩ := seekBlock_spec hr hn
  by_cases hs1 : (d.seekBlock M d.stream.lba).1 = true
  · have hr' : d.stream.lba + n ≤ (d.seekBlock M d.stream.lba).2.lbaSize M := by
      simp only [lbaSize, hsi]
      exact hr
    obtain ⟨hri, hrd, hrr⟩ := readBlocks_spec hr' (hsp hs1)
    by_cases hr1 : ((d.seekBlock M d.stream.lba).2.readBlocks M n).1 = n
    · simp only [hs1, hr1, if_true]
      have hread := hri.trans hsi
      refine ⟨hread, rfl, fun h0 => (hrr (hsr h0).2).2, .inl ?_⟩
      exact
        { phase := hp
          stat := hst
          write := hw
          active := fun _ => ha
          stops := by
            show d.stream.lba + n + (d.stream.blocks - n) = stop
            omega
          onMedium := by simp only [lbaSize, hread]; exact hm
          read := mul_blockSize_pos d (Nat.pos_iff_ne_zero.mp hn)
          data := by
            simp only [List.drop_zero, Nat.sub_zero, hread, hrd hr1, hsi]
            rfl
          ends := by rw [Nat.sub_zero, ← Nat.add_mul]; rfl }
    · simp only [hs1, hr1, if_true, if_false]
      exact ⟨hri.trans hsi, rfl, fun h0 => absurd (hrr (hsr h0).2).1 hr1,
        .inr (.inr ⟨check_error rfl _ _, fun h0 => hr1 (hrr (hsr h0).2).1, hlt⟩)⟩
  · simp only [hs1, Bool.false_eq_true, if_false]
    exact ⟨hsi, rfl, fun h0 => absurd (hsr h0).1 hs1,
      .inr (.inr ⟨check_error rfl _ _, fun h0 => hs1 (hsr h0).1, hlt⟩)⟩

theorem xferIn_dataIn (h : d.phase = .dataIn) (k : Nat) : d.xferIn k =
    ((d.dati.data.drop d.dati.read).take k,
      { d with dati := ⟨d.dati.data, d.dati.available, d.dati.read + k⟩ }) := by
  unfold xferIn
  split <;> simp_all

theorem xferDone_dataIn (h : d.phase = .dataIn) : d.xferDone M hs =
    if d.dati.read < d.dati.available then d
    else if d.stream.active && !d.stream.write && decide (d.stream.blocks ≠ 0) then
      if (d.streamReadNext M).1 then (d.streamReadNext M).2
      else { (d.streamReadNext M).2 with phase := .status }
    else { d with phase := .status } := by
  unfold xferDone
  split <;> first | rfl | simp_all

/-- One transfer of a READ. -/
theorem Reading.xfer (h : Reading M d pos stop) (hk : k ≤ d.expectedXfer) :
    (d.xferIn k).1 = (M.image d.medium).slice pos k ∧
      ReadState M d ((d.xferIn k).2.xferDone M hs) (pos + k) stop := by
  have hx : d.expectedXfer = d.dati.available - d.dati.read := by simp only [expectedXfer, h.phase]
  rw [hx] at hk
  have hr := h.read
  rw [xferIn_dataIn h.phase]
  refine ⟨?_, ?_⟩
  · rw [h.data, File.take_slice hk]
  · rw [xferDone_dataIn (by exact h.phase)]
    by_cases hl : d.dati.read + k < d.dati.available
    · rw [if_pos hl]
      refine ⟨rfl, rfl, id, .inl ?_⟩
      exact { h with
        read := hl
        data := by
          show d.dati.data.drop (d.dati.read + k) = (M.image d.medium).slice (pos + k) _
          rw [← List.drop_drop, h.data, File.drop_slice, Nat.sub_sub]
        ends := by
          show pos + k + (d.dati.available - (d.dati.read + k)) = _
          rw [← h.ends]
          omega }
    · rw [if_neg hl]
      have he : pos + k = d.stream.lba * d.blockSize := by rw [← h.ends]; omega
      by_cases hb : d.stream.blocks = 0
      · rw [if_neg (by simp [hb])]
        have hs := h.stops
        rw [hb, Nat.add_zero] at hs
        exact ⟨rfl, rfl, id, .inr (.inl ⟨⟨rfl, h.stat⟩, hs ▸ he⟩)⟩
      · rw [if_pos (by simp [hb, h.active hb, h.write]), he]
        exact streamReadNext_spec (d := { d with dati := ⟨d.dati.data, d.dati.available, d.dati.read + k⟩ })
          hb h.stops h.onMedium h.phase h.stat h.write (h.active hb)

theorem readRun_of_ne (h : d.phase ≠ .dataIn) (cuts : List Nat) :
    d.readRun M hs cuts = ([], d) := by
  cases cuts with
  | nil => rfl
  | cons k cuts => exact if_neg h

/-- Every way to cut the data phase of a READ. -/
theorem Reading.run (h : Reading M d pos stop) (cuts : List Nat) : ∃ k,
    (d.readRun M hs cuts).1 = (M.image d.medium).slice pos k ∧
      ReadState M d (d.readRun M hs cuts).2 (pos + k) stop ∧
      ((∀ c ∈ cuts, 0 < c) → (d.readRun M hs cuts).2.phase = .dataIn → cuts.length ≤ k) := by
  induction cuts generalizing d pos with
  | nil => exact ⟨0, rfl, ⟨rfl, rfl, id, .inl h⟩, fun _ _ => Nat.le_refl 0⟩
  | cons c cuts ih =>
    have hx : 0 < d.expectedXfer := by simp only [expectedXfer, h.phase]; exact Nat.sub_pos_of_lt h.read
    simp only [readRun, h.phase, if_true]
    obtain ⟨hb, hst⟩ := @Reading.xfer _ M hs _ _ _ _ h (Nat.min_le_right c d.expectedXfer)
    have hc : (∀ c' ∈ c :: cuts, 0 < c') → 0 < min c d.expectedXfer := fun hp =>
      Nat.lt_min.mpr ⟨hp c List.mem_cons_self, hx⟩
    generalize min c d.expectedXfer = k at hb hst hc ⊢
    generalize (d.xferIn k).2.xferDone M hs = d' at hst ⊢
    rw [hb]
    by_cases hd : d'.phase = .dataIn
    · have hi := hst.1
      obtain hr | ⟨hg, _⟩ | ⟨hch, _⟩ := hst.2.2.2
      · obtain ⟨j, hj, hs', hl⟩ := ih hr
        refine ⟨k + j, ?_, ?_, fun hp hph => ?_⟩
        · rw [hj, hi, File.slice_append]
        · rw [← Nat.add_assoc]
          exact hst.trans hs'
        · have := hl (fun c' hm => hp c' (List.mem_cons_of_mem _ hm)) hph
          have := hc hp
          rw [List.length_cons]
          omega
      · exact absurd hd (by rw [hg.phase]; decide)
      · exact absurd hd (by rw [hch.phase]; decide)
    · rw [readRun_of_ne hd, List.append_nil]
      exact ⟨k, rfl, hst, fun _ hp => absurd hp hd⟩

/-! ## WRITE -/

/-- A WRITE of the blocks before `stop` takes a piece from block `start` on. -/
structure Writing (M : Medium σ) (d : CDisk σ) (start stop : Nat) : Prop where
  phase : d.phase = .dataOut
  write : d.stream.write = true
  active : d.stream.active = true
  starts : start ≤ d.stream.lba
  piece : d.dato.expected = (d.stream.lba - start) * d.blockSize
  stops : d.stream.lba + d.stream.blocks = stop
  onMedium : stop ≤ d.lbaSize M
  written : d.dato.written < d.dato.expected

/-- What a WRITE may have come to that had `data` from block `start` on: it goes on with another
piece, has ended, or the medium failed in a piece. -/
def WriteState (M : Medium σ) (d d' : CDisk σ) (start stop : Nat) (data : List UInt8) : Prop :=
  d'.blockSize = d.blockSize ∧
    ((∃ start', start ≤ start' ∧ Writing M d' start' stop ∧
        start * d.blockSize + data.length = start' * d.blockSize + d'.dato.written ∧
        d'.dato.data = data.drop ((start' - start) * d.blockSize) ∧
        M.image d'.medium = (M.image d.medium).writeAt (start * d.blockSize)
          (data.take ((start' - start) * d.blockSize)) ∧
        (M.Writable d.medium → M.Writable d'.medium)) ∨
      (Good d' ∧ start * d.blockSize + data.length = stop * d.blockSize ∧
        M.image d'.medium = (M.image d.medium).writeAt (start * d.blockSize) data) ∨
      (∃ start' n, start ≤ start' ∧ 0 < n ∧ start' + n ≤ stop ∧ Check d' ∧
        ¬ M.Writable d.medium ∧
        start * d.blockSize + data.length = (start' + n) * d.blockSize ∧
        (M.image d'.medium).size = (M.image d.medium).size ∧
        ∀ i, i < start' * d.blockSize ∨ (start' + n) * d.blockSize ≤ i →
          (M.image d'.medium).byte i = ((M.image d.medium).writeAt (start * d.blockSize)
            (data.take ((start' - start) * d.blockSize))).byte i))

/-- Two writes one after the other, the first up to block `start'`. -/
theorem writeAt_take {f : File} {bs start start' j : Nat} {data rest : List UInt8}
    (h : start ≤ start') (hl : start' * bs ≤ start * bs + data.length) :
    (f.writeAt (start * bs) (data.take ((start' - start) * bs))).writeAt (start' * bs)
        ((data.drop ((start' - start) * bs) ++ rest).take j) =
      f.writeAt (start * bs) ((data ++ rest).take ((start' - start) * bs + j)) := by
  have hs : start' * bs = start * bs + (start' - start) * bs := by
    rw [← Nat.add_mul, Nat.add_sub_cancel' h]
  have hle : (start' - start) * bs ≤ data.length := by omega
  have hp : start' * bs = start * bs + (data.take ((start' - start) * bs)).length := by
    rw [List.length_take, Nat.min_eq_left hle, hs]
  rw [hp, File.writeAt_append, List.take_add, List.take_append_of_le_length hle,
    List.drop_append_of_le_length hle]

theorem WriteState.trans {d'' : CDisk σ} {start' : Nat} {data rest : List UInt8}
    (hb : d'.blockSize = d.blockSize) (hs : start ≤ start')
    (hl : start * d.blockSize + data.length = start' * d.blockSize + d'.dato.written)
    (hd : d'.dato.data = data.drop ((start' - start) * d.blockSize))
    (hi : M.image d'.medium = (M.image d.medium).writeAt (start * d.blockSize)
      (data.take ((start' - start) * d.blockSize)))
    (hw : M.Writable d.medium → M.Writable d'.medium)
    (hz : start' * d.blockSize ≤ (M.image d.medium).size)
    (h : WriteState M d' d'' start' stop (d'.dato.data ++ rest)) :
    WriteState M d d'' start stop (data ++ rest) := by
  have hx : start' * d.blockSize ≤ start * d.blockSize + data.length := by omega
  have hn : ∀ start'', start' ≤ start'' →
      (start'' - start) * (d.blockSize : Nat) =
        (start' - start) * d.blockSize + (start'' - start') * d.blockSize := by
    intro start'' h1
    rw [← Nat.add_mul]
    congr 1
    omega
  have hlen : d'.dato.written = d'.dato.data.length := rfl
  have hmul : start' * (d.blockSize : Nat) = start * d.blockSize + (start' - start) * d.blockSize := by
    rw [← Nat.add_mul, Nat.add_sub_cancel' hs]
  have hda : (data ++ rest).drop ((start' - start) * d.blockSize) =
      data.drop ((start' - start) * d.blockSize) ++ rest :=
    List.drop_append_of_le_length (by omega)
  obtain ⟨hb', hc⟩ := h
  rw [hb] at hc
  refine ⟨hb'.trans hb, ?_⟩
  obtain ⟨start'', h1, hwr, hl', hd', hi', hw'⟩ | ⟨hg, hl', hi'⟩ |
    ⟨start'', n, h1, hn0, hst, hch, hnw, hl', hsz, hby⟩ := hc
  · refine .inl ⟨start'', by omega, hwr, ?_, ?_, ?_, hw' ∘ hw⟩
    · rw [List.length_append] at hl' ⊢
      omega
    · rw [hd', hn _ h1, hd, ← List.drop_drop, hda]
    · rw [hi', hi, hd, writeAt_take hs hx, hn _ h1]
  · refine .inr (.inl ⟨hg, ?_, ?_⟩)
    · rw [List.length_append] at hl' ⊢
      omega
    · have hj := @writeAt_take (M.image d.medium) _ start start'
        (data.drop ((start' - start) * d.blockSize) ++ rest).length data rest hs hx
      have ht : (data ++ rest).take ((start' - start) * d.blockSize +
          (data.drop ((start' - start) * d.blockSize) ++ rest).length) = data ++ rest :=
        List.take_of_length_le (by simp only [List.length_append, List.length_drop]; omega)
      rw [List.take_length, ht] at hj
      rw [hi', hi, hd, hj]
  · refine .inr (.inr ⟨start'', n, by omega, hn0, hst, hch, hnw ∘ hw, ?_, ?_, ?_⟩)
    · rw [List.length_append] at hl' ⊢
      omega
    · rw [hsz, hi, File.size_writeAt]
      rw [List.length_take]
      omega
    · intro i hm
      rw [hby i hm, hi, hd, writeAt_take hs hx, hn _ h1]

/-- A piece of a WRITE that is complete. -/
theorem streamWritePiece_spec (hw : d.stream.write = true) (ha : d.stream.active = true)
    (hn : 0 < n) (hs : start + n = d.stream.lba) (hstop : d.stream.lba + d.stream.blocks = stop)
    (hm : stop ≤ d.lbaSize M) (hl : d.dato.data.length = n * d.blockSize) :
    WriteState M d { (d.streamWritePiece M).2 with phase := (d.streamWritePiece M).1 } start stop
      d.dato.data := by
  have hdiv : d.dato.written / d.blockSize = n := by
    rw [OutBuf.written, hl]
    exact Nat.mul_div_cancel _ d.blockSize.2.1
  have hat : d.stream.lba - n = start := by omega
  have hr : start + n ≤ d.lbaSize M := by omega
  have hend : start * (d.blockSize : Nat) + d.dato.data.length = (start + n) * d.blockSize := by
    rw [hl, Nat.add_mul]
  simp only [streamWritePiece, hdiv, hat]
  obtain ⟨hsi, hsp, _, hsw⟩ := seekBlock_spec hr hn
  -- a seek or a write that fails leaves what the earlier pieces wrote
  by_cases hs1 : (d.seekBlock M start).1 = true
  · have hr' : start + n ≤ (d.seekBlock M start).2.lbaSize M := by
      simp only [lbaSize, hsi]
      exact hr
    obtain ⟨hz, hby, hwa, hww⟩ := writeBlocks_spec hr' (hsp hs1) hl
    rw [hsi] at hz hby hwa
    by_cases hr1 : ((d.seekBlock M start).2.writeBlocks M d.dato.data n).1 = n
    · have hi := hwa hr1
      simp only [hs1, hr1, if_true]
      by_cases hb : d.stream.blocks = 0
      · rw [if_neg (by exact not_not_intro hb)]
        refine ⟨rfl, .inr (.inl ⟨⟨rfl, rfl⟩, ?_, hi⟩)⟩
        rw [hend]
        congr 1
        omega
      · rw [if_pos (by exact hb)]
        have hp := d.streamPieceBlocks_pos
        have hle := Nat.min_le_left d.stream.blocks d.streamPieceBlocks
        have hpos : 0 < min d.stream.blocks d.streamPieceBlocks :=
          Nat.lt_min.mpr ⟨Nat.pos_of_ne_zero hb, hp⟩
        refine ⟨rfl, .inl ⟨start + n, Nat.le_add_right _ _, ?_, ?_, ?_, ?_, ?_⟩⟩
        · exact
            { phase := rfl
              write := hw
              active := ha
              starts := by
                show start + n ≤ d.stream.lba + min d.stream.blocks d.streamPieceBlocks
                omega
              piece := by
                show min d.stream.blocks d.streamPieceBlocks * (d.blockSize : Nat) =
                  (d.stream.lba + min d.stream.blocks d.streamPieceBlocks - (start + n)) *
                    d.blockSize
                rw [hs, Nat.add_sub_cancel_left]
              stops := by
                show d.stream.lba + min d.stream.blocks d.streamPieceBlocks +
                  (d.stream.blocks - min d.stream.blocks d.streamPieceBlocks) = stop
                omega
              onMedium := by
                simp only [lbaSize, hz]
                exact hm
              written := mul_blockSize_pos d (Nat.pos_iff_ne_zero.mp hpos) }
        · rw [hend]
          rfl
        · rw [Nat.add_sub_cancel_left, ← hl, List.drop_length]
        · rw [Nat.add_sub_cancel_left, ← hl, List.take_length]
          exact hi
        · exact fun h0 => (hww (hsw h0).2).2
    · simp only [hs1, hr1, if_true, if_false]
      refine ⟨rfl, .inr (.inr ⟨start, n, Nat.le_refl _, hn, by omega, check_error rfl _ _,
        fun h0 => hr1 (hww (hsw h0).2).1, hend, hz, fun i hm => ?_⟩)⟩
      rw [Nat.sub_self, Nat.zero_mul, List.take_zero, File.writeAt_nil]
      exact hby i hm
  · simp only [hs1, Bool.false_eq_true, if_false]
    refine ⟨rfl, .inr (.inr ⟨start, n, Nat.le_refl _, hn, by omega, check_error rfl _ _,
      fun h0 => hs1 (hsw h0).1, hend, congrArg File.size hsi, fun i hm => ?_⟩)⟩
    rw [Nat.sub_self, Nat.zero_mul, List.take_zero, File.writeAt_nil]
    exact congrFun (congrArg File.byte hsi) i

theorem xferOut_dataOut (h : d.phase = .dataOut) (src : List UInt8) :
    d.xferOut src = { d with dato := ⟨d.dato.data ++ src, d.dato.expected⟩ } := by
  unfold xferOut
  split <;> simp_all

theorem xferDone_dataOut (h : d.phase = .dataOut) (ha : d.stream.active = true)
    (hw : d.stream.write = true) : d.xferDone M hs =
      if d.dato.written < d.dato.expected then d
      else { (d.streamWritePiece M).2 with phase := (d.streamWritePiece M).1 } := by
  unfold xferDone
  split <;> first | (simp [ha, hw]; done) | simp_all

/-- One transfer of a WRITE. -/
theorem Writing.xfer {src : List UInt8} (h : Writing M d start stop)
    (hl : src.length ≤ d.expectedXfer) :
    WriteState M d ((d.xferOut src).xferDone M hs) start stop (d.dato.data ++ src) := by
  have hx : d.expectedXfer = d.dato.expected - d.dato.data.length := by
    simp only [expectedXfer, h.phase, OutBuf.written]
  have hlt : d.dato.data.length < d.dato.expected := h.written
  rw [hx] at hl
  rw [xferOut_dataOut h.phase, xferDone_dataOut (by exact h.phase) (by exact h.active)
    (by exact h.write)]
  by_cases hd : (d.dato.data ++ src).length < d.dato.expected
  · rw [if_pos (by exact hd)]
    refine ⟨rfl, .inl ⟨start, Nat.le_refl _, { h with written := hd }, rfl, ?_, ?_, id⟩⟩
    · rw [Nat.sub_self, Nat.zero_mul, List.drop_zero]
    · rw [Nat.sub_self, Nat.zero_mul, List.take_zero, File.writeAt_nil]
  · rw [if_neg (by exact hd)]
    have hn : start ≠ d.stream.lba := by
      intro he
      have hp := h.piece
      rw [he, Nat.sub_self, Nat.zero_mul] at hp
      omega
    have hst := h.starts
    have hfull : (d.dato.data ++ src).length = (d.stream.lba - start) * d.blockSize := by
      rw [← h.piece]
      rw [List.length_append] at hd ⊢
      omega
    exact @streamWritePiece_spec _ M { d with dato := ⟨d.dato.data ++ src, d.dato.expected⟩ } start
      (d.stream.lba - start) stop h.write h.active (by omega) (by show _ = d.stream.lba; omega)
      h.stops h.onMedium hfull

theorem writeRun_of_ne (h : d.phase ≠ .dataOut) (src : List UInt8) (cuts : List Nat) :
    d.writeRun M hs src cuts = ([], d) := by
  cases cuts with
  | nil => rfl
  | cons k cuts => exact if_neg h

/-- Every way to cut the data phase of a WRITE. -/
theorem Writing.run (h : Writing M d start stop) (src : List UInt8) (cuts : List Nat) : ∃ k,
    (d.writeRun M hs src cuts).1 = src.take k ∧
      WriteState M d (d.writeRun M hs src cuts).2 start stop (d.dato.data ++ src.take k) ∧
      ((∀ c ∈ cuts, 0 < c) → (d.writeRun M hs src cuts).2.phase = .dataOut → cuts.length ≤ k) := by
  induction cuts generalizing d start src with
  | nil =>
    refine ⟨0, rfl, ?_, fun _ _ => Nat.le_refl 0⟩
    refine ⟨rfl, .inl ⟨start, Nat.le_refl _, h, ?_, ?_, ?_, id⟩⟩
    · rw [List.take_zero, List.append_nil]
      rfl
    · rw [Nat.sub_self, Nat.zero_mul, List.drop_zero, List.take_zero, List.append_nil]
      rfl
    · rw [Nat.sub_self, Nat.zero_mul, List.take_zero, File.writeAt_nil]
      rfl
  | cons c cuts ih =>
    have hx : 0 < d.expectedXfer := by
      simp only [expectedXfer, h.phase]
      exact Nat.sub_pos_of_lt h.written
    have hcut : (src.take (min c d.expectedXfer)).length ≤ d.expectedXfer := by
      rw [List.length_take]
      omega
    have hst := @Writing.xfer _ M hs _ _ _ _ h hcut
    have hc : (∀ c' ∈ c :: cuts, 0 < c') → 0 < min c d.expectedXfer := fun hp =>
      Nat.lt_min.mpr ⟨hp c List.mem_cons_self, hx⟩
    have hm := h.onMedium
    simp only [writeRun, h.phase, if_true]
    generalize min c d.expectedXfer = k at hst hc ⊢
    generalize (d.xferOut (src.take k)).xferDone M hs = d' at hst ⊢
    by_cases hd : d'.phase = .dataOut
    · have hb := hst.1
      obtain ⟨start', h1, hwr, hl, hdat, hi, hw⟩ | ⟨hg, _⟩ | ⟨_, _, _, _, _, hch, _⟩ := hst.2
      · obtain ⟨j, hj, hs', hcount⟩ := ih hwr (src.drop k)
        have hz : start' * (d.blockSize : Nat) ≤ (M.image d.medium).size := by
          have := hwr.starts
          have := hwr.stops
          exact Nat.le_trans (Nat.mul_le_mul_right _ (by omega)) (bytes_le hm)
        refine ⟨k + j, ?_, ?_, fun hp hph => ?_⟩
        · rw [hj, List.take_add]
        · rw [List.take_add, ← List.append_assoc]
          exact WriteState.trans hb h1 hl hdat hi hw hz hs'
        · have := hcount (fun c' hm => hp c' (List.mem_cons_of_mem _ hm)) hph
          have := hc hp
          rw [List.length_cons]
          omega
      · exact absurd hd (by rw [hg.phase]; decide)
      · exact absurd hd (by rw [hch.phase]; decide)
    · rw [writeRun_of_ne hd, List.append_nil]
      exact ⟨k, rfl, hst, fun _ hp => absurd hp hd⟩

end CDisk

end Alphabox.Storage
