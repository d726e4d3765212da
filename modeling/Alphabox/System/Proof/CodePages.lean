import Alphabox.System.CodePageMap
import Alphabox.Lib.Reach
import Mathlib.Data.List.Basic

/-!
# Which writes onto compiled code are counted

`MapInv`: a line's bit is set exactly when some block has a byte in it, and a page's too. A write is
then counted exactly when the line of the first byte that is reported holds code, for a transfer any
line of it (`report_gen`). A store that begins in a line no block was compiled from and ends in one
that some was changes code and is not counted (`code_write_counted_iff`).
-/

namespace Alphabox.System

open Function (update)

namespace CodePageMap

variable {m : CodePageMap}

/-! ## Marking -/

theorem shift_line (a : Nat) : a >>> kLineShift = a / 256 := by
  rw [kLineShift, Nat.shiftRight_eq_div_pow]

theorem shift_page (a : Nat) : a >>> kPageShift = a / 8192 := by
  rw [kPageShift, Nat.shiftRight_eq_div_pow]

theorem unshift_line (a : Nat) : a <<< kLineShift = a * 256 := by
  rw [kLineShift, Nat.shiftLeft_eq]

theorem unshift_page (a : Nat) : a <<< kPageShift = a * 8192 := by
  rw [kPageShift, Nat.shiftLeft_eq]

/-- Lines that there are get marked, and nothing else changes. -/
theorem markLines_spec (count ln : Nat) (h : ln + count ≤ m.lines) :
    m.markLines count ln =
      ({ m with lineBits := fun x => m.lineBits x || decide (ln ≤ x ∧ x < ln + count) }, true) := by
  induction count generalizing ln m with
  | zero =>
    have hnone : ∀ x, decide (ln ≤ x ∧ x < ln + 0) = false := fun x => decide_eq_false (by omega)
    simp only [markLines, hnone, Bool.or_false]
  | succ count ih =>
    rw [markLines, if_neg (by omega), ih (ln + 1) (by dsimp only; omega)]
    congr
    funext x
    dsimp only
    by_cases hx : x = ln
    · subst hx
      simp
    · rw [Function.update_of_ne hx]
      congr 2
      apply propext
      omega

/-- Pages that there are get marked; the lines stay. -/
theorem markPages_spec (count pg : Nat) (h : pg + count ≤ m.pages) :
    (m.markPages count pg).pages = m.pages ∧ (m.markPages count pg).lines = m.lines ∧
      (m.markPages count pg).lineBits = m.lineBits ∧
      ∀ x, (m.markPages count pg).pageBits x = (m.pageBits x || decide (pg ≤ x ∧ x < pg + count)) := by
  induction count generalizing pg m with
  | zero =>
    refine ⟨rfl, rfl, rfl, fun x => ?_⟩
    have hnone : decide (pg ≤ x ∧ x < pg + 0) = false := decide_eq_false (by omega)
    rw [hnone, Bool.or_false]
    rfl
  | succ count ih =>
    have hpage : (m.markPage pg).pages = m.pages ∧ (m.markPage pg).lines = m.lines ∧
        (m.markPage pg).lineBits = m.lineBits ∧
        ∀ x, (m.markPage pg).pageBits x = (m.pageBits x || decide (x = pg)) := by
      unfold markPage
      split
      · rename_i hset
        refine ⟨rfl, rfl, rfl, fun x => ?_⟩
        by_cases hx : x = pg
        · simp [hx, hset]
        · simp [hx]
      · refine ⟨rfl, rfl, rfl, fun x => ?_⟩
        by_cases hx : x = pg
        · simp [hx]
        · simp [hx]
    obtain ⟨h1, h2, h3, h4⟩ := hpage
    rw [markPages, if_neg (by omega)]
    obtain ⟨i1, i2, i3, i4⟩ := @ih (m.markPage pg) (pg + 1) (by omega)
    refine ⟨i1.trans h1, i2.trans h2, i3.trans h3, fun x => ?_⟩
    rw [i4, h4, Bool.or_assoc]
    congr 1
    rw [← Bool.decide_or]
    congr 1
    apply propext
    omega

/-- A block in memory marks its lines and its pages. -/
theorem noteCode_spec {phys bytes : Nat} (hb : bytes ≠ 0)
    (hl : (phys + bytes - 1) / 256 < m.lines) (hp : (phys + bytes - 1) / 8192 < m.pages) :
    (m.noteCode phys bytes).pages = m.pages ∧ (m.noteCode phys bytes).lines = m.lines ∧
      (∀ x, (m.noteCode phys bytes).lineBits x =
        (m.lineBits x || decide (phys / 256 ≤ x ∧ x ≤ (phys + bytes - 1) / 256))) ∧
      ∀ x, (m.noteCode phys bytes).pageBits x =
        (m.pageBits x || decide (phys / 8192 ≤ x ∧ x ≤ (phys + bytes - 1) / 8192)) := by
  have hlast : phys + (bytes - 1) = phys + bytes - 1 := by omega
  have hle : phys / 256 ≤ (phys + bytes - 1) / 256 := Nat.div_le_div_right (by omega)
  have hle' : phys / 8192 ≤ (phys + bytes - 1) / 8192 := Nat.div_le_div_right (by omega)
  unfold noteCode
  simp only [if_pos hb, hlast, shift_line, shift_page]
  rw [markLines_spec _ _ (by omega)]
  obtain ⟨h1, h2, h3, h4⟩ := markPages_spec
    ((phys + bytes - 1) / 8192 + 1 - phys / 8192) (phys / 8192)
    (show phys / 8192 + ((phys + bytes - 1) / 8192 + 1 - phys / 8192) ≤ CodePageMap.pages
      { m with lineBits := fun x => m.lineBits x || decide (phys / 256 ≤ x ∧
        x < phys / 256 + ((phys + bytes - 1) / 256 + 1 - phys / 256)) } by dsimp only; omega)
  refine ⟨h1, h2, fun x => ?_, fun x => ?_⟩
  · dsimp only
    rw [h3]
    dsimp only
    congr 2
    apply propext
    omega
  · dsimp only
    rw [h4]
    dsimp only
    congr 2
    apply propext
    omega

end CodePageMap

/-! ## Runs -/

namespace CodeRun

open CodePageMap

variable {s : CodeRun}

/-- The line of byte `b` has a byte of an extent that was compiled. -/
def CodeLine (s : CodeRun) (b : Nat) : Prop :=
  ∃ r ∈ s.noted, ∃ c, r.1 ≤ c ∧ c < r.1 + r.2 ∧ c / 256 = b / 256

/-- The bits are those of the lines and pages of the extents. -/
structure MapInv (s : CodeRun) : Prop where
  pages : s.map.pages * 8192 = s.dramSize
  lines : s.map.lines * 256 = s.dramSize
  inside : ∀ r ∈ s.noted, r.2 ≠ 0 ∧ r.1 + r.2 ≤ s.dramSize
  lineBits : ∀ x, s.map.lineBits x = true ↔
    ∃ r ∈ s.noted, r.1 / 256 ≤ x ∧ x ≤ (r.1 + r.2 - 1) / 256
  pageBits : ∀ x, s.map.pageBits x = true ↔
    ∃ r ∈ s.noted, r.1 / 8192 ≤ x ∧ x ≤ (r.1 + r.2 - 1) / 8192

/-- An extent has a byte in a line exactly when the line is between its ends' lines. -/
theorem line_between {p n x : Nat} (hn : n ≠ 0) :
    (p / 256 ≤ x ∧ x ≤ (p + n - 1) / 256) ↔ ∃ c, p ≤ c ∧ c < p + n ∧ c / 256 = x := by
  constructor
  · rintro ⟨hlo, hhi⟩
    refine ⟨max p (x * 256), by omega, ?_, ?_⟩
    · omega
    · omega
  · rintro ⟨c, hlo, hhi, rfl⟩
    exact ⟨Nat.div_le_div_right hlo, Nat.div_le_div_right (by omega)⟩

theorem MapInv.line_iff (h : MapInv s) (b : Nat) :
    s.map.lineBits (b / 256) = true ↔ s.CodeLine b := by
  rw [h.lineBits]
  constructor
  · rintro ⟨r, hr, hx⟩
    exact ⟨r, hr, (line_between (h.inside r hr).1).mp hx⟩
  · rintro ⟨r, hr, hc⟩
    exact ⟨r, hr, (line_between (h.inside r hr).1).mpr hc⟩

/-- A line with code is in memory and in a page with code. -/
theorem MapInv.line_page (h : MapInv s) {b : Nat} (hc : s.CodeLine b) :
    b / 256 < s.map.lines ∧ b / 8192 < s.map.pages ∧ s.map.pageBits (b / 8192) = true := by
  obtain ⟨r, hr, c, hlo, hhi, hline⟩ := hc
  have hin := (h.inside r hr).2
  have hl := h.lines
  have hp := h.pages
  refine ⟨by omega, by omega, (h.pageBits _).mpr ⟨r, hr, ?_, ?_⟩⟩
  · omega
  · omega

theorem MapInv.holdsCodeLine_iff (h : MapInv s) (b : Nat) :
    s.map.holdsCodeLine b = true ↔ s.CodeLine b := by
  unfold holdsCodeLine
  rw [shift_line, Bool.and_eq_true, decide_eq_true_eq, h.line_iff]
  exact ⟨fun hb => hb.2, fun hb => ⟨(h.line_page hb).1, hb⟩⟩

theorem MapInv.holdsCode_of_line (h : MapInv s) {b : Nat} (hc : s.CodeLine b) :
    s.map.holdsCode b = true := by
  obtain ⟨-, hp, hbit⟩ := h.line_page hc
  unfold holdsCode
  rw [shift_page, Bool.and_eq_true, decide_eq_true_eq]
  exact ⟨hp, hbit⟩

theorem codeLine_congr {a b : Nat} (h : a / 256 = b / 256) : s.CodeLine a ↔ s.CodeLine b := by
  unfold CodeLine
  rw [h]

theorem MapInv.codeIn_iff (h : MapInv s) {lo hi : Nat} (hle : lo ≤ hi) :
    s.map.codeIn lo hi = true ↔ ∃ b, lo ≤ b ∧ b ≤ hi ∧ s.CodeLine b := by
  unfold codeIn
  simp only [shift_line, List.any_eq_true, List.mem_range'_1, h.holdsCodeLine_iff, unshift_line]
  constructor
  · rintro ⟨ln, ⟨h1, h2⟩, hc⟩
    refine ⟨max lo (ln * 256), by omega, by omega, (codeLine_congr ?_).mp hc⟩
    omega
  · rintro ⟨b, h1, h2, hc⟩
    refine ⟨b / 256, by omega, (codeLine_congr ?_).mp hc⟩
    omega

/-- A transfer is counted exactly when one of its bytes is in a line with code. -/
theorem MapInv.writeRange_gen (h : MapInv s) (phys bytes : Nat) :
    s.map.gen < (s.map.noteWriteRange phys bytes).gen ↔
      ∃ b, phys ≤ b ∧ b < phys + bytes ∧ s.CodeLine b := by
  unfold noteWriteRange
  split
  · rename_i hz
    constructor
    · intro hlt
      exact absurd hlt (Nat.lt_irrefl _)
    · rintro ⟨b, h1, h2, -⟩
      omega
  rename_i hz
  have hany : ((List.range' (phys >>> kPageShift)
      ((phys + bytes - 1) >>> kPageShift + 1 - phys >>> kPageShift)).any fun pg =>
        s.map.holdsCode (pg <<< kPageShift) &&
          s.map.codeIn (max (pg <<< kPageShift) phys)
            (min ((pg + 1) <<< kPageShift - 1) (phys + bytes - 1))) = true ↔
      ∃ b, phys ≤ b ∧ b < phys + bytes ∧ s.CodeLine b := by
    simp only [shift_page, unshift_page, List.any_eq_true, List.mem_range'_1, Bool.and_eq_true]
    constructor
    · rintro ⟨pg, ⟨h1, h2⟩, -, hin⟩
      obtain ⟨b, hlo, hhi, hc⟩ := (h.codeIn_iff (by omega)).mp hin
      exact ⟨b, by omega, by omega, hc⟩
    · rintro ⟨b, h1, h2, hc⟩
      refine ⟨b / 8192, by omega, ?_, (h.codeIn_iff (by omega)).mpr ⟨b, by omega, by omega, hc⟩⟩
      obtain ⟨-, hp, hbit⟩ := h.line_page hc
      unfold holdsCode
      rw [shift_page, Nat.mul_div_cancel _ (by decide), Bool.and_eq_true, decide_eq_true_eq]
      exact ⟨hp, hbit⟩
  rw [← hany]
  dsimp only
  split
  · rename_i ht
    simp [ht]
  · rename_i ht
    simp [ht]

/-- A store is counted exactly when the line of its first byte has code. -/
theorem MapInv.write_gen (h : MapInv s) (phys : Nat) :
    s.map.gen < (s.map.noteWrite phys).gen ↔ s.CodeLine phys := by
  unfold noteWrite
  rw [← h.holdsCodeLine_iff]
  split
  · rename_i ht
    rw [Bool.and_eq_true] at ht
    simp [ht.2]
  · rename_i ht
    constructor
    · intro hlt
      exact absurd hlt (Nat.lt_irrefl _)
    · intro hl
      have hc := h.holdsCode_of_line ((h.holdsCodeLine_iff phys).mp hl)
      rw [hc, hl] at ht
      exact absurd rfl ht

theorem mapInv_start (s : CodeRun) (h : Start s) : MapInv s := by
  obtain ⟨bits, hbits, rfl⟩ := h
  obtain ⟨k, rfl⟩ := Nat.exists_eq_add_of_le hbits
  have hpow : 2 ^ (kPageShift + k) = 2 ^ k * 8192 := by
    rw [kPageShift, Nat.pow_add, Nat.mul_comm]
  exact {
    pages := by
      simp only [init, shift_page, hpow]
      omega
    lines := by
      simp only [init, shift_line, hpow]
      omega
    inside := by simp
    lineBits := by simp [init]
    pageBits := by simp [init] }

theorem mapInv_step (s : CodeRun) (op : CodeOp) (h : MapInv s) (hok : s.OpOk op) :
    MapInv (s.step op) := by
  cases op with
  | noteCode phys bytes =>
    obtain ⟨hb, hin⟩ := hok
    have hl := h.lines
    have hp := h.pages
    obtain ⟨h1, h2, h3, h4⟩ := @noteCode_spec s.map phys bytes hb (by omega) (by omega)
    exact {
      pages := by
        show (s.map.noteCode phys bytes).pages * 8192 = s.dramSize
        rw [h1, hp]
      lines := by
        show (s.map.noteCode phys bytes).lines * 256 = s.dramSize
        rw [h2, hl]
      inside := by
        intro r hr
        rcases List.mem_cons.mp hr with rfl | hr
        · exact ⟨hb, hin⟩
        · exact h.inside r hr
      lineBits x := by
        show (s.map.noteCode phys bytes).lineBits x = true ↔ _
        rw [h3, Bool.or_eq_true, decide_eq_true_eq, h.lineBits]
        simp [step, or_comm]
      pageBits x := by
        show (s.map.noteCode phys bytes).pageBits x = true ↔ _
        rw [h4, Bool.or_eq_true, decide_eq_true_eq, h.pageBits]
        simp [step, or_comm] }
  | write w =>
    -- a write marks no code: it counts generations at most
    obtain ⟨h1, h2, h3, h4⟩ : (report s.map w).pages = s.map.pages ∧
        (report s.map w).lines = s.map.lines ∧ (report s.map w).lineBits = s.map.lineBits ∧
        (report s.map w).pageBits = s.map.pageBits := by
      cases w with
      | store phys size =>
        simp only [report, noteWrite]
        split
        · exact ⟨rfl, rfl, rfl, rfl⟩
        · exact ⟨rfl, rfl, rfl, rfl⟩
      | dma phys bytes =>
        simp only [report, noteWriteRange]
        split
        · exact ⟨rfl, rfl, rfl, rfl⟩
        · split
          · exact ⟨rfl, rfl, rfl, rfl⟩
          · exact ⟨rfl, rfl, rfl, rfl⟩
    exact {
      pages := by
        show (report s.map w).pages * 8192 = s.dramSize
        rw [h1, h.pages]
      lines := by
        show (report s.map w).lines * 256 = s.dramSize
        rw [h2, h.lines]
      inside := h.inside
      lineBits x := by
        show (report s.map w).lineBits x = true ↔ _
        rw [h3]
        exact h.lineBits x
      pageBits x := by
        show (report s.map w).pageBits x = true ↔ _
        rw [h4]
        exact h.pageBits x }

/-- A write onto a line with code is counted. -/
def Counted (s : CodeRun) (w : CodeWrite) : Prop :=
  (∃ b, w.phys ≤ b ∧ b < w.phys + w.bytes ∧ s.CodeLine b) →
    s.map.gen < (s.step (.write w)).map.gen

/-- A store from a line without code over the line's end into one with code. -/
def ReachesCode (s : CodeRun) : CodeWrite → Prop
  | .store phys size => ¬s.CodeLine phys ∧ phys / 256 ≠ (phys + size.bytes - 1) / 256 ∧
      s.CodeLine (phys + size.bytes - 1)
  | .dma _ _ => False

/-- In every state of a run a write onto compiled code is counted unless it is a store that only
reaches it over the end of its first line. -/
theorem code_write_counted_iff {s : CodeRun} (h : Lib.Reach Start OpOk step s) (w : CodeWrite) :
    s.Counted w ↔ ¬s.ReachesCode w := by
  have hinv : MapInv s := Lib.Reach.inv mapInv_start mapInv_step h
  cases w with
  | dma phys bytes =>
    refine ⟨fun _ hr => hr, fun _ hcode => ?_⟩
    exact (hinv.writeRange_gen phys bytes).mpr hcode
  | store phys size =>
    have hgen : s.map.gen < (s.step (.write (.store phys size))).map.gen ↔ s.CodeLine phys :=
      hinv.write_gen phys
    have hsize : 1 ≤ size.bytes ∧ size.bytes ≤ 8 := by cases size <;> decide
    unfold Counted ReachesCode
    rw [hgen]
    constructor
    · rintro hcount ⟨hfirst, -, hlast⟩
      exact hfirst (hcount ⟨_, by dsimp only [CodeWrite.phys]; omega,
        by dsimp only [CodeWrite.phys, CodeWrite.bytes]; omega, hlast⟩)
    · rintro hreach ⟨b, hlo, hhi, hb⟩
      dsimp only [CodeWrite.phys, CodeWrite.bytes] at hlo hhi
      by_contra hfirst
      -- a store of eight bytes at most is in two lines at most
      have hline : b / 256 = phys / 256 ∨ b / 256 = (phys + size.bytes - 1) / 256 := by omega
      rcases hline with hl | hl
      · exact hfirst ((codeLine_congr hl).mp hb)
      · refine hreach ⟨hfirst, fun he => hfirst ?_, (codeLine_congr hl).mp hb⟩
        exact (codeLine_congr (hl.trans he.symm)).mp hb

/-- A block of sixteen instructions at `0x100` of 8 KB of memory. -/
def oneBlock : CodeRun := step ⟨2 ^ 13, .init (2 ^ 13), []⟩ (.noteCode 0x100 64)

theorem oneBlock_reach : Lib.Reach Start OpOk step oneBlock :=
  (Lib.Reach.start ⟨13, Nat.le_refl 13, rfl⟩).next ⟨by decide, by decide⟩

theorem oneBlock_line : oneBlock.CodeLine 0x100 :=
  ⟨(0x100, 64), by simp [oneBlock, step], 0x100, by decide⟩

theorem code_write_counted_inside : oneBlock.Counted (.store 0x13c .quad) :=
  (code_write_counted_iff oneBlock_reach (.store 0x13c .quad)).mpr fun hr =>
    hr.1 ((codeLine_congr (by decide)).mp oneBlock_line)

/-- An unaligned quadword at `0xfc` changes the block's first instruction and is not counted. -/
theorem code_write_missed : ¬∀ s : CodeRun, Lib.Reach Start OpOk step s → ∀ w, s.Counted w := by
  intro hall
  have hlt := hall oneBlock oneBlock_reach (.store 0xfc .quad)
    ⟨0x100, by decide, by decide, oneBlock_line⟩
  have hgen : (oneBlock.step (.write (.store 0xfc .quad))).map.gen = oneBlock.map.gen := by
    decide
  rw [hgen] at hlt
  exact Nat.lt_irrefl _ hlt

end CodeRun

end Alphabox.System
