import Alphabox.Storage.Proof.ScsiRun

/-!
# SCSI READ and WRITE are exact

From the state a selection leaves, a READ hands over the blocks it names, in order, and a WRITE
replaces them, whatever transfers the data phase is cut into; or the command ends in CHECK
CONDITION.
-/

namespace Alphabox.Storage

open Lib

namespace CDisk

variable {σ : Type} {M : Medium σ} {hs : Handlers σ} {d d' : CDisk σ} {lba n : Nat}
  {cdb : List UInt8} {write : Bool} {form : CdbForm}

/-! ## The command phase -/

/-- A target just selected awaits a command. -/
structure Fresh (d : CDisk σ) : Prop where
  phase : d.phase = .command
  cmd : d.cmd.written = 0
  dati : d.dati.available = 0
  stream : d.stream = .none

/-- Whatever a command has left behind. -/
theorem fresh_select (d : CDisk σ) : (d.select false).Fresh :=
  ⟨by simp [select], rfl, rfl, rfl⟩

/-- The target looks at a command: the logical unit is its own, no unit attention is pending and
there is a medium; and a WRITE is not to a CD-ROM or a write-protected medium. -/
structure Ready (M : Medium σ) (d : CDisk σ) (cdb : List UInt8) (write : Bool) : Prop where
  lun : d.lunSelected = false ∧ (d.identifyReceived = true ∨ cdb.getD 1 0 &&& 0xe0 = 0)
  reset : d.resetUnitAttention = false
  media : d.isRemovable = true → d.mediaUnitAttention = false ∧ (M.image d.medium).size ≠ 0
  writable : write = true → d.isCdrom = false ∧ d.readOnly = false

/-- The target with a command block in, before it looks at it. -/
def withCdb (d : CDisk σ) (cdb : List UInt8) : CDisk σ := (d.xferOut cdb).receive

theorem xferOut_command (h : d.Fresh) : d.xferOut cdb = { d with cmd :=
    ⟨fun i => if i < cdb.length then cdb.getD i 0 else d.cmd.data i, cdb.length⟩ } := by
  have hc := h.cmd
  unfold xferOut
  rw [h.phase]
  simp [hc]

theorem xferDone_command (h : d.phase = .command) :
    d.xferDone M hs = afterCommand (d.doScsiCommand M hs) := by
  unfold xferDone
  split <;> first | rfl | simp_all

theorem cmd_withCdb (h : d.Fresh) :
    ∀ i < cdb.length, (d.withCdb cdb).cmd.data i = cdb.getD i 0 := fun i hi => by
  rw [withCdb, xferOut_command h]
  exact if_pos hi

theorem op_withCdb (h : d.Fresh) (ht : IsTransfer cdb write form) :
    (d.withCdb cdb).cmd.data 0 = if write then form.writeOp else form.readOp := by
  rw [cmd_withCdb h 0 (by rw [ht.length]; cases form <;> decide), ht.op]

/-- A READ or a WRITE that the target has got. -/
theorem sendCommand_eq (h : d.Fresh) (ht : IsTransfer cdb write form) :
    d.sendCommand M hs cdb = afterCommand (match (d.withCdb cdb).refuse M with
      | some d => (false, d)
      | none => if write then (d.withCdb cdb).doWrite M else (false, (d.withCdb cdb).doRead M)) := by
  have hop := op_withCdb h ht
  have hx := @xferOut_command _ _ cdb h
  have hl := ht.length
  rw [sendCommand, xferDone_command (by rw [hx]; exact h.phase), doScsiCommand]
  rw [if_neg (by rw [hx]; simp only [hl]; cases form <;> decide)]
  have he : (d.xferOut cdb).receive = d.withCdb cdb := rfl
  simp only [he, hop]
  congr 1
  cases (d.withCdb cdb).refuse M with
  | some d => rfl
  | none => cases write <;> cases form <;> rfl

theorem withCdb_eq (h : d.Fresh) : ∃ cmd sense lun, d.withCdb cdb =
    { d with cmd := cmd, sense := sense, lunSelected := lun } := by
  rw [withCdb, xferOut_command h]
  exact ⟨_, _, _, rfl⟩

theorem check_afterCommand {e : ScsiErr} {info : Nat} (h : d.stream = .none) :
    Check (afterCommand (false, d.doScsiError (some e) info)) :=
  check_error h e info

/-- A command that is not looked at. -/
theorem refuse_spec (h : d.Fresh) (ht : IsTransfer cdb write form)
    (hr : (d.withCdb cdb).refuse M = some d') :
    Check (afterCommand (false, d')) ∧ d'.medium = d.medium ∧ d'.blockSize = d.blockSize ∧
      ¬ Ready M d cdb write := by
  have hop := op_withCdb h ht
  have hlun : (d.withCdb cdb).lunSelected = true → ¬ Ready M d cdb write := by
    intro hl hready
    have h1 : (d.xferOut cdb).cmd.data 1 = cdb.getD 1 0 :=
      cmd_withCdb h 1 (by rw [ht.length]; cases form <;> decide)
    obtain ⟨hl0, hid⟩ := hready.lun
    simp only [withCdb, receive, h1] at hl
    rw [xferOut_command h] at hl
    simp only [hl0, Bool.false_or, Bool.and_eq_true, Bool.not_eq_true', decide_eq_true_eq] at hl
    obtain hid | hid := hid
    · rw [hid] at hl
      exact nomatch hl.1
    · exact hl.2 hid
  obtain ⟨cmd, sense, lun, hd⟩ := @withCdb_eq _ _ cdb h
  rw [hd] at hr hlun
  unfold refuse at hr
  simp only [Bool.and_eq_true] at hr
  split_ifs at hr with h1 h2 h3 h4 h5 <;> obtain rfl := Option.some.inj hr <;>
    refine ⟨check_afterCommand h.stream, rfl, rfl, ?_⟩
  · exact hlun h1.1.1
  · exact fun hready => absurd h2.1 (by simp [hready.reset])
  · exact fun hready => absurd h3.1.2 (by simp [hready.media h3.1.1])
  · exact fun hready => absurd h4.1.2 (by simp [hready.media h4.1.1])
  · exact fun hready => absurd h4.1.2 (by simp [hready.media h4.1.1])

/-! ## The first piece -/

/-- A READ that is looked at. -/
theorem doRead_spec (hc : cdbLbaLength d.cmd.data = some (lba, n)) (hst : d.stream = .none) :
    (d.lbaSize M < lba + n → Check (afterCommand (false, d.doRead M)) ∧
      (d.doRead M).medium = d.medium) ∧
    (lba + n ≤ d.lbaSize M → ReadState M d (afterCommand (false, d.doRead M)) (lba * d.blockSize)
      (lba + n)) := by
  simp only [doRead, hc, Option.getD_some]
  refine ⟨fun hlt => ?_, fun hle => ?_⟩
  · have hno : ¬ d.lbaRangeOk M lba n = true := by rw [lbaRangeOk_iff]; omega
    simp only [hno, Bool.false_eq_true, if_false]
    exact ⟨check_afterCommand hst, rfl⟩
  · simp only [lbaRangeOk_iff.mpr hle, if_true]
    have hp := d.streamPieceBlocks_pos
    have hmin : min n d.streamPieceBlocks ≤ n := Nat.min_le_left _ _
    -- the first piece is read with the command; a READ of no blocks has none
    by_cases hn : 0 < min n d.streamPieceBlocks
    · have hlt : lba * (d.blockSize : Nat) < (lba + n) * d.blockSize :=
        Nat.mul_lt_mul_of_pos_right (by omega) d.blockSize.2.1
      generalize min n d.streamPieceBlocks = m at hn hmin ⊢
      have hr : lba + m ≤ d.lbaSize M := by omega
      simp only [hn, if_true]
      obtain ⟨hsi, hsp, hsr, _⟩ := seekBlock_spec hr hn
      by_cases hs1 : (d.seekBlock M lba).1 = true
      · have hr' : lba + m ≤ (d.seekBlock M lba).2.lbaSize M := by
          simp only [lbaSize, hsi]
          exact hr
        obtain ⟨hri, hrd, hrr⟩ := readBlocks_spec hr' (hsp hs1)
        have hread := hri.trans hsi
        by_cases hr1 : ((d.seekBlock M lba).2.readBlocks M m).1 = m
        · simp only [hs1, hr1, if_true]
          have hm := mul_blockSize_pos d (Nat.pos_iff_ne_zero.mp hn)
          refine ⟨hread, rfl, fun h0 => (hrr (hsr h0).2).2, .inl ?_⟩
          exact
            { phase := if_pos (Nat.pos_iff_ne_zero.mp hm)
              stat := rfl
              write := rfl
              active := fun hb => decide_eq_true hb
              stops := by
                show lba + m + (n - m) = lba + n
                omega
              onMedium := by
                show lba + n ≤ (M.image ((d.seekBlock M lba).2.readBlocks M m).2.2.medium).size /
                  (d.blockSize : Nat)
                rw [hread]
                exact hle
              read := hm
              data := by
                show List.drop 0 ((d.seekBlock M lba).2.readBlocks M m).2.1 =
                  (M.image ((d.seekBlock M lba).2.readBlocks M m).2.2.medium).slice
                    (lba * (d.blockSize : Nat)) (m * (d.blockSize : Nat) - 0)
                rw [hread, List.drop_zero, Nat.sub_zero, hrd hr1, hsi]
                rfl
              ends := by
                show lba * (d.blockSize : Nat) + (m * d.blockSize - 0) = (lba + m) * d.blockSize
                rw [Nat.sub_zero, Nat.add_mul] }
        · simp only [hs1, hr1, if_true, if_false]
          exact ⟨hread, rfl, fun h0 => absurd (hrr (hsr h0).2).1 hr1,
            .inr (.inr ⟨check_afterCommand hst, fun h0 => hr1 (hrr (hsr h0).2).1, hlt⟩)⟩
      · simp only [hs1, Bool.false_eq_true, if_false]
        exact ⟨hsi, rfl, fun h0 => absurd (hsr h0).1 hs1,
          .inr (.inr ⟨check_afterCommand hst, fun h0 => hs1 (hsr h0).1, hlt⟩)⟩
    · have hn0 : n = 0 := by omega
      subst hn0
      simp only [Nat.zero_min, Nat.lt_irrefl, if_false, Nat.zero_mul]
      exact ⟨rfl, rfl, id, .inr (.inl ⟨⟨rfl, rfl⟩, rfl⟩)⟩

/-- A WRITE that is looked at. -/
theorem doWrite_spec (hc : cdbLbaLength d.cmd.data = some (lba, n)) (hst : d.stream = .none)
    (hda : d.dati.available = 0) :
    ((d.isCdrom = true ∨ d.readOnly = true ∨ d.lbaSize M < lba + n) →
      Check (afterCommand (d.doWrite M)) ∧ (d.doWrite M).2.medium = d.medium) ∧
    (d.isCdrom = false → d.readOnly = false → lba + n ≤ d.lbaSize M →
      (d.doWrite M).2.medium = d.medium ∧ (d.doWrite M).2.blockSize = d.blockSize ∧
      (n ≠ 0 ∧ Writing M (afterCommand (d.doWrite M)) lba (lba + n) ∧
        (d.doWrite M).2.dato.data = [] ∨ Good (afterCommand (d.doWrite M)) ∧ n = 0)) := by
  simp only [doWrite, hc, Option.getD_some]
  refine ⟨fun hno => ?_, fun h1 h2 hle => ?_⟩
  · split
    · exact ⟨check_afterCommand hst, rfl⟩
    · split
      · exact ⟨check_afterCommand hst, rfl⟩
      · rename_i hcd hro
        rw [if_neg (by rw [lbaRangeOk_iff]; simp only [hcd, hro, Bool.false_eq_true, false_or] at hno; omega)]
        exact ⟨check_afterCommand hst, rfl⟩
  · rw [if_neg (by simp [h1]), if_neg (by simp [h2]), if_pos (lbaRangeOk_iff.mpr hle)]
    by_cases hn : n = 0
    · rw [if_pos hn]
      have hph : (afterCommand (false, d.doScsiError none 0)).phase = .status := by
        simp [afterCommand, doScsiError, hda]
      exact ⟨rfl, rfl, .inr ⟨⟨hph, rfl⟩, hn⟩⟩
    · rw [if_neg hn]
      have hp := d.streamPieceBlocks_pos
      have hmin : min n d.streamPieceBlocks ≤ n := Nat.min_le_left _ _
      have hpos : 0 < min n d.streamPieceBlocks := Nat.lt_min.mpr ⟨Nat.pos_of_ne_zero hn, hp⟩
      generalize min n d.streamPieceBlocks = m at hmin hpos ⊢
      refine ⟨rfl, rfl, .inl ⟨hn, ?_, rfl⟩⟩
      exact
        { phase := rfl
          write := rfl
          active := rfl
          starts := Nat.le_add_right _ _
          piece := by
            show m * (d.blockSize : Nat) = (lba + m - lba) * d.blockSize
            rw [Nat.add_sub_cancel_left]
          stops := by
            show lba + m + (n - m) = lba + n
            omega
          onMedium := hle
          written := mul_blockSize_pos d (Nat.pos_iff_ne_zero.mp hpos) }

/-! ## Whole commands -/

/-- What an initiator sees of a READ of `n` blocks from block `lba` on once it has taken `bytes`:
there is more, all of it came, or the command failed and the next one finds a fresh target. -/
inductive ReadOutcome (M : Medium σ) (d : CDisk σ) (lba n : Nat) (bytes : List UInt8)
    (d' : CDisk σ) : Prop
  | more (phase : d'.phase = .dataIn) (expected : 0 < d'.expectedXfer)
      (length : bytes.length < n * d.blockSize)
  | good (h : Good d') (length : bytes.length = n * d.blockSize)
  | failed (h : Check d') (length : bytes.length ≤ n * d.blockSize)
      (next : (d'.select false).Fresh)

/-- What an initiator sees of a WRITE once it has sent `bytes`: more is wanted and the first `m`
blocks are on the medium, all of it is, or the command failed with the `k` blocks from the `m`-th
one on. -/
inductive WriteOutcome (M : Medium σ) (d : CDisk σ) (lba n : Nat) (bytes : List UInt8)
    (d' : CDisk σ) : Prop
  | more (m : Nat) (phase : d'.phase = .dataOut) (expected : 0 < d'.expectedXfer)
      (length : bytes.length < n * d.blockSize) (moved : m * d.blockSize ≤ bytes.length)
      (image : M.image d'.medium = (M.image d.medium).writeAt (lba * d.blockSize)
        (bytes.take (m * d.blockSize)))
  | good (h : Good d') (length : bytes.length = n * d.blockSize)
      (image : M.image d'.medium = (M.image d.medium).writeAt (lba * d.blockSize) bytes)
  | failed (m k : Nat) (h : Check d') (range : m + k ≤ n)
      (length : bytes.length = (m + k) * d.blockSize)
      (size : (M.image d'.medium).size = (M.image d.medium).size)
      (image : ∀ i, i < (lba + m) * d.blockSize ∨ (lba + m + k) * d.blockSize ≤ i →
        (M.image d'.medium).byte i = ((M.image d.medium).writeAt (lba * d.blockSize)
          (bytes.take (m * d.blockSize))).byte i)
      (next : (d'.select false).Fresh)

theorem Check.phase_ne (h : Check d) : d.phase ≠ .dataIn ∧ d.phase ≠ .dataOut := by
  rw [h.phase]
  exact ⟨by decide, by decide⟩

theorem Good.phase_ne (h : Good d) : d.phase ≠ .dataIn ∧ d.phase ≠ .dataOut := by
  rw [h.phase]
  exact ⟨by decide, by decide⟩

theorem Good.not_check (h : Good d) : ¬ Check d := fun hc => by
  have := hc.stat
  rw [h.stat] at this
  exact absurd this (by decide)

/-- What a READ came to, as an initiator sees it that took the bytes up to `lba * bs + k`. -/
theorem ReadState.outcome {k : Nat} {bytes : List UInt8} (hk : bytes.length = k)
    (h : ReadState M d d' (lba * d.blockSize + k) (lba + n)) :
    ReadOutcome M d lba n bytes d' ∧ (M.Readable d.medium → ¬ Check d') ∧
      (d'.phase ≠ .dataIn → d'.phase = .status) := by
  obtain ⟨_, hb, _, hr | ⟨hg, hp⟩ | ⟨hch, hn, hp⟩⟩ := h
  · have hlt : lba * d.blockSize + k < (lba + n) * (d.blockSize : Nat) := by
      have hs := hr.stops
      have he := hr.ends
      have hrd := hr.read
      rw [hb] at he
      have := Nat.mul_le_mul_right (d.blockSize : Nat) (show d'.stream.lba ≤ lba + n by omega)
      omega
    rw [Nat.add_mul] at hlt
    refine ⟨.more hr.phase ?_ (by omega), fun _ hc => hc.phase_ne.1 hr.phase,
      fun hne => absurd hr.phase hne⟩
    simp only [expectedXfer, hr.phase]
    exact Nat.sub_pos_of_lt hr.read
  · rw [Nat.add_mul] at hp
    exact ⟨.good hg (by omega), fun _ => hg.not_check, fun _ => hg.phase⟩
  · rw [Nat.add_mul] at hp
    exact ⟨.failed hch (by omega) (fresh_select _), fun h0 => absurd h0 hn, fun _ => hch.phase⟩

/-- A READ that is in range. -/
theorem read_exact (h : d.Fresh) (ht : IsTransfer cdb false form)
    (hle : form.lba cdb + form.blocks cdb ≤ d.lbaSize M) (cuts : List Nat) :
    let r := (d.sendCommand M hs cdb).readRun M hs cuts
    M.image r.2.medium = M.image d.medium ∧
      r.1 = (M.image d.medium).slice (form.lba cdb * d.blockSize) r.1.length ∧
      ReadOutcome M d (form.lba cdb) (form.blocks cdb) r.1 r.2 ∧
      (Ready M d cdb false → M.Readable d.medium → ¬ Check r.2) ∧
      ((∀ c ∈ cuts, 0 < c) → form.blocks cdb * d.blockSize ≤ cuts.length →
        r.2.phase = .status) := by
  rw [sendCommand_eq h ht]
  cases hr : (d.withCdb cdb).refuse M with
  | some d' =>
    obtain ⟨hch, hm, _, hnr⟩ := refuse_spec h ht hr
    simp only [readRun_of_ne hch.phase_ne.1]
    exact ⟨congrArg M.image hm, rfl, .failed hch (Nat.zero_le _) (fresh_select _),
      fun h0 => absurd h0 hnr, fun _ _ => hch.phase⟩
  | none =>
    have hc := cdbLbaLength_eq ht (cmd_withCdb h)
    obtain ⟨cmd, sense, lun, hd⟩ := @withCdb_eq _ _ cdb h
    rw [hd] at hc ⊢
    have hs0 := (@doRead_spec _ M { d with cmd := cmd, sense := sense, lunSelected := lun }
      (form.lba cdb) (form.blocks cdb) hc h.stream).2 hle
    simp only [Bool.false_eq_true, if_false]
    -- The medium and the block length are those of `d`.
    change ReadState M d _ (form.lba cdb * d.blockSize) _ at hs0
    generalize afterCommand _ = d1 at hs0 ⊢
    by_cases hph : d1.phase = .dataIn
    · obtain hrd | ⟨hg, _⟩ | ⟨hch, _⟩ := hs0.2.2.2
      · obtain ⟨k, hk, hst, hcount⟩ := @Reading.run _ M hs _ _ _ hrd cuts
        have hl : (d1.readRun M hs cuts).1.length = k := by rw [hk, File.length_slice]
        have hst' := hs0.trans hst
        obtain ⟨ho, hnc, hphase⟩ := hst'.outcome hl
        refine ⟨hst'.1, ?_, ho, fun _ => hnc, fun hpos hlen => hphase fun hin => ?_⟩
        · rw [hl, hk, hs0.1]
        · have hkc := hcount hpos hin
          cases ho with
          | more _ _ hlt => omega
          | good hg _ => exact hg.phase_ne.1 hin
          | failed hch _ _ => exact hch.phase_ne.1 hin
      · exact absurd hph hg.phase_ne.1
      · exact absurd hph hch.phase_ne.1
    · rw [readRun_of_ne hph]
      obtain ⟨ho, hnc, hphase⟩ := @ReadState.outcome _ M d d1 _ _ 0 [] rfl hs0
      exact ⟨hs0.1, rfl, ho, fun _ => hnc, fun _ _ => hphase hph⟩

/-- What a WRITE came to, as an initiator sees it that sent `bytes`. -/
theorem WriteState.outcome {bytes : List UInt8} (h : WriteState M d d' lba (lba + n) bytes) :
    WriteOutcome M d lba n bytes d' ∧ (M.Writable d.medium → ¬ Check d') ∧
      (d'.phase ≠ .dataOut → d'.phase = .status) := by
  obtain ⟨hb, ⟨start', h1, hw, hl, _, hi, _⟩ | ⟨hg, hl, hi⟩ |
    ⟨start', k, h1, _, hst, hch, hnw, hl, hsz, hby⟩⟩ := h
  · have hs := hw.stops
    have hp := hw.piece
    have hwr := hw.written
    have hle := Nat.mul_le_mul_right (d.blockSize : Nat) (show d'.stream.lba ≤ lba + n by omega)
    have hmul : start' * (d.blockSize : Nat) = lba * d.blockSize + (start' - lba) * d.blockSize := by
      rw [← Nat.add_mul, Nat.add_sub_cancel' h1]
    have hend : d'.stream.lba * (d.blockSize : Nat) =
        start' * d.blockSize + (d'.stream.lba - start') * d.blockSize := by
      rw [← Nat.add_mul, Nat.add_sub_cancel' hw.starts]
    rw [hb] at hp
    rw [Nat.add_mul] at hle
    refine ⟨.more (start' - lba) hw.phase ?_ (by omega) (by omega) hi,
      fun _ hc => hc.phase_ne.2 hw.phase, fun hne => absurd hw.phase hne⟩
    simp only [expectedXfer, hw.phase]
    exact Nat.sub_pos_of_lt hwr
  · rw [Nat.add_mul] at hl
    exact ⟨.good hg (by omega) hi, fun _ => hg.not_check, fun _ => hg.phase⟩
  · have hsum : lba + (start' - lba) = start' := Nat.add_sub_cancel' h1
    have hmul : (start' + k) * (d.blockSize : Nat) =
        lba * d.blockSize + (start' - lba + k) * d.blockSize := by
      rw [← Nat.add_mul]
      congr 1
      omega
    refine ⟨.failed (start' - lba) k hch (by omega) (by omega) hsz ?_ (fresh_select _),
      fun h0 => absurd h0 hnw, fun _ => hch.phase⟩
    rw [hsum]
    exact hby

/-- A WRITE that is in range. -/
theorem write_exact (h : d.Fresh) (ht : IsTransfer cdb true form)
    (hle : form.lba cdb + form.blocks cdb ≤ d.lbaSize M) (src : List UInt8) (cuts : List Nat) :
    let r := (d.sendCommand M hs cdb).writeRun M hs src cuts
    r.1 = src.take r.1.length ∧
      WriteOutcome M d (form.lba cdb) (form.blocks cdb) r.1 r.2 ∧
      (Ready M d cdb true → M.Writable d.medium → ¬ Check r.2) ∧
      ((∀ c ∈ cuts, 0 < c) → form.blocks cdb * d.blockSize ≤ src.length →
        form.blocks cdb * d.blockSize ≤ cuts.length → r.2.phase = .status) := by
  have hnone : ∀ d' : CDisk σ, Check d' → M.image d'.medium = M.image d.medium →
      WriteOutcome M d (form.lba cdb) (form.blocks cdb) [] d' := fun d' hch hm =>
    .failed 0 0 hch (Nat.zero_le _) (by simp) (congrArg File.size hm)
      (fun i _ => by rw [List.take_nil, File.writeAt_nil, hm]) (fresh_select _)
  rw [sendCommand_eq h ht]
  cases hr : (d.withCdb cdb).refuse M with
  | some d' =>
    obtain ⟨hch, hm, _, hnr⟩ := refuse_spec h ht hr
    simp only [writeRun_of_ne hch.phase_ne.2]
    exact ⟨rfl, hnone _ hch (congrArg M.image hm), fun h0 => absurd h0 hnr,
      fun _ _ _ => hch.phase⟩
  | none =>
    have hc := cdbLbaLength_eq ht (cmd_withCdb h)
    obtain ⟨cmd, sense, lun, hd⟩ := @withCdb_eq _ _ cdb h
    rw [hd] at hc ⊢
    obtain ⟨hno, hyes⟩ := @doWrite_spec _ M { d with cmd := cmd, sense := sense, lunSelected := lun }
      (form.lba cdb) (form.blocks cdb) hc h.stream h.dati
    simp only [if_true]
    generalize hd0 : doWrite M _ = r0 at hno hyes ⊢
    by_cases hw : d.isCdrom = true ∨ d.readOnly = true
    · obtain ⟨hch, hm⟩ := hno (hw.imp_right .inl)
      rw [writeRun_of_ne hch.phase_ne.2]
      refine ⟨rfl, hnone _ hch (congrArg M.image hm), fun h0 => ?_, fun _ _ _ => hch.phase⟩
      have := h0.writable rfl
      simp [this] at hw
    · simp only [not_or, Bool.not_eq_true] at hw
      obtain ⟨hm, hb, ⟨hn, hwr, hdat⟩ | ⟨hg, hn⟩⟩ := hyes hw.1 hw.2 hle
      · obtain ⟨k, hk, hst, hcount⟩ := @Writing.run _ M hs _ _ _ hwr src cuts
        rw [show (afterCommand r0).dato.data = [] from hdat, List.nil_append, ← hk] at hst
        have hst' : WriteState M d ((afterCommand r0).writeRun M hs src cuts).2 (form.lba cdb)
            (form.lba cdb + form.blocks cdb) ((afterCommand r0).writeRun M hs src cuts).1 := by
          have hbs : (afterCommand r0).blockSize = d.blockSize := hb
          have hmd : (afterCommand r0).medium = d.medium := hm
          rw [WriteState, hbs, hmd] at hst
          exact hst
        obtain ⟨ho, hnc, hphase⟩ := hst'.outcome
        refine ⟨?_, ho, fun _ => hnc, fun hpos hsl hlen => hphase fun hout => ?_⟩
        · rw [hk, List.length_take, ← List.take_eq_take_min]
        · have hkc := hcount hpos hout
          cases ho with
          | more _ _ _ hlt _ _ =>
            rw [hk, List.length_take] at hlt
            omega
          | good hg _ _ => exact hg.phase_ne.2 hout
          | failed _ _ hch _ _ _ _ _ => exact hch.phase_ne.2 hout
      · rw [writeRun_of_ne hg.phase_ne.2, hn]
        exact ⟨rfl, .good hg (by simp) (by rw [File.writeAt_nil]; exact congrArg M.image hm),
          fun _ _ => hg.not_check, fun _ _ _ => hg.phase⟩

/-- A READ or a WRITE that is not in range. -/
theorem out_of_range (h : d.Fresh) (ht : IsTransfer cdb write form)
    (hlt : d.lbaSize M < form.lba cdb + form.blocks cdb) :
    Check (d.sendCommand M hs cdb) ∧ (d.sendCommand M hs cdb).medium = d.medium := by
  rw [sendCommand_eq h ht]
  cases hr : (d.withCdb cdb).refuse M with
  | some d' =>
    obtain ⟨hch, hm, _⟩ := refuse_spec h ht hr
    exact ⟨hch, hm⟩
  | none =>
    have hc := cdbLbaLength_eq ht (cmd_withCdb h)
    obtain ⟨cmd, sense, lun, hd⟩ := @withCdb_eq _ _ cdb h
    rw [hd] at hc ⊢
    cases write with
    | false => exact (doRead_spec hc h.stream).1 hlt
    | true => exact (doWrite_spec hc h.stream h.dati).1 (.inr (.inr hlt))

/-- However a READ or a WRITE is cut into transfers: out of range it moves nothing, else it moves
the blocks it names, all of them if the target looks at the command and the medium does not fail,
and it comes to its end. -/
theorem scsi_transfer_exact (M : Medium σ) (hs : Handlers σ) (d : CDisk σ) (h : d.Fresh)
    (cdb : List UInt8) (form : CdbForm) :
    (∀ write, IsTransfer cdb write form → d.lbaSize M < form.lba cdb + form.blocks cdb →
      Check (d.sendCommand M hs cdb) ∧ (d.sendCommand M hs cdb).medium = d.medium) ∧
    (IsTransfer cdb false form → form.lba cdb + form.blocks cdb ≤ d.lbaSize M →
      ∀ cuts, let r := (d.sendCommand M hs cdb).readRun M hs cuts
        M.image r.2.medium = M.image d.medium ∧
        r.1 = (M.image d.medium).slice (form.lba cdb * d.blockSize) r.1.length ∧
        ReadOutcome M d (form.lba cdb) (form.blocks cdb) r.1 r.2 ∧
        (Ready M d cdb false → M.Readable d.medium → ¬ Check r.2) ∧
        ((∀ c ∈ cuts, 0 < c) → form.blocks cdb * d.blockSize ≤ cuts.length →
          r.2.phase = .status)) ∧
    (IsTransfer cdb true form → form.lba cdb + form.blocks cdb ≤ d.lbaSize M →
      ∀ src cuts, let r := (d.sendCommand M hs cdb).writeRun M hs src cuts
        r.1 = src.take r.1.length ∧
        WriteOutcome M d (form.lba cdb) (form.blocks cdb) r.1 r.2 ∧
        (Ready M d cdb true → M.Writable d.medium → ¬ Check r.2) ∧
        ((∀ c ∈ cuts, 0 < c) → form.blocks cdb * d.blockSize ≤ src.length →
          form.blocks cdb * d.blockSize ≤ cuts.length → r.2.phase = .status)) :=
  ⟨fun _ => out_of_range h, fun ht hle => read_exact h ht hle, fun ht hle => write_exact h ht hle⟩

/-- A disk of four blocks in memory, just selected. -/
def ramDisk : CDisk DiskRam where
  medium := ⟨⟨2048, fun _ => 0, fun _ _ => rfl⟩, 0, false, by decide⟩
  blockSize := ⟨512, by decide⟩
  isCdrom := false
  readOnly := false
  isRemovable := false
  atapiMode := false
  phase := .command
  identifyReceived := false
  lunSelected := false
  resetUnitAttention := false
  mediaUnitAttention := false
  mediaTrayOpen := false
  cmd := ⟨fun _ => 0, 0⟩
  msgo := []
  dati := ⟨[], 0, 0⟩
  dato := ⟨[], 0⟩
  stat := ⟨[], 0, 0⟩
  msgi := ⟨[], 0, 0⟩
  sense := none
  stream := .none

/-- Neither another command nor a message. -/
def noHandlers : Handlers DiskRam := ⟨fun d => (false, d), fun d => (.command, d)⟩

/-- A READ of blocks 1 and 2 and a READ of blocks 3 and 4, the last of which is not there. -/
theorem scsi_transfer_exact_ram :
    (∀ cuts, (∀ c ∈ cuts, 0 < c) → 1024 ≤ cuts.length →
      ((ramDisk.sendCommand DiskRam.medium noHandlers [0x08, 0, 0, 1, 2, 0]).readRun
        DiskRam.medium noHandlers cuts).2.phase = .status) ∧
    Check (ramDisk.sendCommand DiskRam.medium noHandlers [0x08, 0, 0, 3, 2, 0]) :=
  ⟨fun cuts => ((scsi_transfer_exact DiskRam.medium noHandlers ramDisk ⟨rfl, rfl, rfl, rfl⟩
      [0x08, 0, 0, 1, 2, 0] .six).2.1 ⟨rfl, rfl⟩ (by decide) cuts).2.2.2.2,
    ((scsi_transfer_exact DiskRam.medium noHandlers ramDisk ⟨rfl, rfl, rfl, rfl⟩
      [0x08, 0, 0, 3, 2, 0] .six).1 false ⟨rfl, rfl⟩ (by decide)).1⟩

end CDisk

end Alphabox.Storage
