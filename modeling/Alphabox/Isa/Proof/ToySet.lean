import Alphabox.Isa.Proof.Toy

/-!
# Settings of some of the fields

Setting SET stops the clock's registers as they were last made, which need not be now: what a
setting leaves alone is kept exactly when they show the clock's date (`keepsOthers_iff`). With SET
clear each field written makes the clock's date over, so that it is kept when every date on the way
is in the calendar (`run_oneByOne`).
-/

namespace Alphabox.Isa.Mc146818

open Lib.Calendar (Tm seconds ofSeconds isLeap)

variable {s : Mc146818} {c c0 c1 : HostClocks} {v b0 b1 : BitVec 8} {f g : Field}
  {ops : List (HostClocks × ToyOp)}

/-! ## Settings with SET on -/

/-- With SET set at `c0`, some of the fields of a date written, the others being the clock's then,
and SET cleared, the clock has that date. -/
def KeepsOthers (s : Mc146818) (c0 : HostClocks) (b0 b1 : BitVec 8) : Prop :=
  ∀ ops c1 d, Along KeepsControl (s.setting c0 0x0b b0) ops → d.Valid → InRange s.arcYearCompat d →
    (∀ f, match written (s.setting c0 0x0b b0) ops f with
      | some v => v = (modeOf b1).encode s.arcYearCompat f d
      | none => getField d f = getField (ofSeconds (s.time c0)) f) →
    ofSeconds ((((s.setting c0 0x0b b0).run ops).setting c1 0x0b b1).time c1) = d

/-- The registers when SET is cleared. -/
theorem date_run {m : Mode} (hb : b0 &&& 0x80 ≠ 0)
    (h : Along KeepsControl (s.setting c0 0x0b b0) ops) :
    ((s.setting c0 0x0b b0).run ops).setOn = true ∧
      ((s.setting c0 0x0b b0).run ops).arcYearCompat = s.arcYearCompat ∧
      ∀ f, getField (m.date s.arcYearCompat ((s.setting c0 0x0b b0).run ops).ram) f =
        m.decode s.arcYearCompat f
          (((written (s.setting c0 0x0b b0) ops f).map (stored f)).getD (s.ram f.reg)) := by
  obtain ⟨h1, h2, h3, -⟩ := @setting_control s c0 b0
  have hs : (s.setting c0 0x0b b0).setOn = true := setOn_iff.mpr (by rwa [h1])
  obtain ⟨w1, w2, -, w4⟩ := run_written hs h
  refine ⟨(setOn_of w1).trans hs, w2.trans h3, fun f => ?_⟩
  rw [Mode.getField_date, w4, h2]

/-- Fields written one after the other. -/
def writes (c : HostClocks) (w : Field → BitVec 8) (fs : List Field) : List (HostClocks × ToyOp) :=
  fs.flatMap fun f => [(c, .write 0 f.reg), (c, .write 1 (w f))]

theorem fieldOf_reg : fieldOf f.reg = some f := by cases f <;> rfl

theorem written_writes {w : Field → BitVec 8} {fs : List Field} :
    Along KeepsControl s (writes c w fs) ∧
      ∀ f, written s (writes c w fs) f = if f ∈ fs then some (w f) else none := by
  induction fs generalizing s with
  | nil => exact ⟨trivial, fun f => by simp [writes, written]⟩
  | cons g fs ih =>
    have hk0 : kindOf s (.write 0 g.reg) = .other := rfl
    have hk1 : kindOf (s.step (c, .write 0 g.reg)) (.write 1 (w g)) = .field g (w g) := by
      have hsel : (s.step (c, .write 0 g.reg)).selected = g.reg := selected_reg
      rw [kindOf, if_pos rfl, hsel, if_neg reg_ne.2.1, fieldOf_reg]
    obtain ⟨h1, h2⟩ := ih (s := (s.step (c, .write 0 g.reg)).step (c, .write 1 (w g)))
    refine ⟨⟨fun v => ?_, fun v => ?_, h1⟩, fun f => ?_⟩
    · rw [hk0]
      intro hv
      cases hv
    · rw [hk1]
      intro hv
      cases hv
    have hcons : writes c w (g :: fs) =
        (c, .write 0 g.reg) :: (c, .write 1 (w g)) :: writes c w fs := rfl
    rw [hcons, written, written, h2]
    simp only [hk0, hk1, List.mem_cons]
    by_cases hf : f ∈ fs
    · simp [hf]
    · by_cases hg : f = g
      · subst hg
        simp [hf]
      · simp [hf, hg, Ne.symm hg]

/-- The start of 2000. -/
def epoch2000 : Tm := ⟨0, 0, 0, 1, 0, 100⟩

theorem setField_inj {x y : Int}
    (h : seconds (setField epoch2000 f x) = seconds (setField epoch2000 f y)) : x = y := by
  cases f with
  | mon =>
    simp only [seconds, setField, epoch2000] at h
    exact (Lib.Calendar.monthDay_strictMono (100 + 1900)).injective (by omega)
  | year =>
    simp only [seconds, setField, epoch2000, Lib.Calendar.monthDay_eq (Int.le_refl 0)
      (show (0 : Int) < 12 by decide), Int.toNat_zero, Lib.Calendar.monthStart_zero] at h
    have := Lib.Calendar.yearStart_strictMono.injective
      (show Lib.Calendar.yearStart (x + 1900) = Lib.Calendar.yearStart (y + 1900) by omega)
    omega
  | _ =>
    simp only [seconds, setField, epoch2000] at h
    omega

theorem value_nonneg {m : Mode} : 0 ≤ m.value v := by
  unfold Mode.value unbcd
  split <;> omega

theorem hourValue_nonneg {m : Mode} : 0 ≤ m.hourValue v := by
  unfold Mode.hourValue
  extract_lets pm hh hour
  have h1 := @value_nonneg hh m
  have h2 : 0 ≤ hour := by
    simp only [hour]
    split <;> omega
  split <;> omega

/-- No byte takes the start of 2000 to before 1970. -/
theorem seconds_decode {m : Mode} {arc : Bool} :
    0 ≤ seconds (setField epoch2000 f (m.decode arc f v)) := by
  have hv := @value_nonneg v m
  cases f with
  | mon =>
    have h1 : Lib.Calendar.monthDay (100 + 1900) (-1) = 10926 := by decide +kernel
    have h2 := (Lib.Calendar.monthDay_strictMono (100 + 1900)).monotone
      (show -1 ≤ m.decode arc .mon v by simp only [Mode.decode]; omega)
    simp only [seconds, setField, epoch2000]
    omega
  | year =>
    refine Lib.Calendar.seconds_nonneg ?_ (Int.le_refl 0) (Int.le_refl 1) (Int.le_refl 0)
      (Int.le_refl 0) (Int.le_refl 0)
    show 70 ≤ m.decode arc .year v
    simp only [Mode.decode]
    split
    · omega
    split <;> omega
  | hour =>
    have hh := @hourValue_nonneg v m
    have h1 : Lib.Calendar.monthDay (100 + 1900) 0 = 10957 := by decide +kernel
    simp only [seconds, setField, epoch2000, Mode.decode]
    omega
  | _ =>
    have h1 : Lib.Calendar.monthDay (100 + 1900) 0 = 10957 := by decide +kernel
    simp only [seconds, setField, epoch2000, Mode.decode]
    omega

/-- A field of a date in range at the start of 2000. -/
theorem epoch2000_valid {arc : Bool} {t : Tm} (h : t.Valid) (hr : InRange arc t) :
    (setField epoch2000 f (getField t f)).Valid ∧
      InRange arc (setField epoch2000 f (getField t f)) := by
  have hmd := h.mday.1
  have hmd31 := Mode.Valid.mday_le h
  have hbase : epoch2000.Valid := by decide
  have hrange : InRange arc epoch2000 := by cases arc <;> exact ⟨by decide, by decide⟩
  cases f with
  | sec => exact ⟨{ hbase with sec := h.sec }, hrange⟩
  | min => exact ⟨{ hbase with min := h.min }, hrange⟩
  | hour => exact ⟨{ hbase with hour := h.hour }, hrange⟩
  | mday => exact ⟨{ hbase with mday := ⟨hmd, hmd31⟩ }, hrange⟩
  | mon =>
    have hm : t.mon.toNat < 12 := by
      have := h.mon
      omega
    have hlen := Lib.Calendar.one_le_monthLength (isLeap (100 + 1900)) hm
    exact ⟨{ hbase with mon := h.mon, mday := ⟨Int.le_refl 1, Int.ofNat_le.mpr hlen⟩ }, hrange⟩
  | year =>
    have hlen := Lib.Calendar.one_le_monthLength (isLeap (t.year + 1900)) (show 0 < 12 by decide)
    refine ⟨{ hbase with mday := ⟨Int.le_refl 1, Int.ofNat_le.mpr hlen⟩ }, ?_⟩
    cases arc <;> exact hr

/-- What a setting with SET leaves alone is kept when, and only when, the registers show the clock's
date as SET is set, in the mode that SET is cleared with. -/
theorem keepsOthers_iff (hb0 : b0 &&& 0x80 ≠ 0) (hb1 : b1 &&& 0x80 = 0)
    (hr : InRange s.arcYearCompat (ofSeconds (s.time c0))) :
    KeepsOthers s c0 b0 b1 ↔
      (modeOf b1).date s.arcYearCompat s.ram = ofSeconds (s.time c0) := by
  have hv := (Lib.Calendar.ofSeconds_valid (s.time c0)).1
  constructor
  · intro h
    refine tm_ext fun f => ?_
    -- the others are written, at the start of 2000 but for this field
    obtain ⟨hdv, hdr⟩ := epoch2000_valid (f := f) hv hr
    obtain ⟨hw1, hw2⟩ := @written_writes (s.setting c0 0x0b b0) c0
      (fun g => (modeOf b1).encode s.arcYearCompat g
        (setField epoch2000 f (getField (ofSeconds (s.time c0)) f))) (Field.all.filter (· ≠ f))
    have hkeeps := h _ c0 _ hw1 hdv hdr fun g => by
      rw [hw2]
      by_cases hg : g = f
      · subst hg
        simp [getField_setField]
      · simp [hg, Field.mem_all]
    obtain ⟨r1, r2, r3⟩ := @date_run s c0 b0 _ (modeOf b1) hb0 hw1
    generalize (s.setting c0 0x0b b0).run _ = s' at hkeeps r1 r2 r3
    have hdate : (modeOf b1).date s'.arcYearCompat s'.ram = setField epoch2000 f
        ((modeOf b1).decode s.arcYearCompat f (s.ram f.reg)) := tm_ext fun g => by
      rw [r2, r3, hw2, getField_setField]
      by_cases hg : g = f
      · subst hg
        simp
      · have hmem : g ∈ Field.all.filter (· ≠ f) := by simp [hg, Field.mem_all]
        rw [if_pos hmem, if_neg hg, Option.map_some, Option.getD_some, stored_encode hdv,
          Mode.decode_encode hdv hdr, getField_setField, if_neg hg]
    obtain ⟨-, -, htime⟩ := time_clear r1 hb1 seconds_decode hdate
    rw [htime] at hkeeps
    have hsec := congrArg seconds hkeeps
    rw [(Lib.Calendar.ofSeconds_valid _).2] at hsec
    rw [Mode.getField_date]
    exact setField_inj hsec
  · intro h ops c1 d hops hdv hdr hw
    obtain ⟨r1, r2, r3⟩ := @date_run s c0 b0 _ (modeOf b1) hb0 hops
    have hdate : (modeOf b1).date ((s.setting c0 0x0b b0).run ops).arcYearCompat
        ((s.setting c0 0x0b b0).run ops).ram = d := tm_ext fun f => by
      have hf := hw f
      rw [r2, r3]
      cases hwf : written (s.setting c0 0x0b b0) ops f with
      | some v =>
        rw [hwf] at hf
        obtain rfl : v = _ := hf
        rw [Option.map_some, Option.getD_some, stored_encode hdv, Mode.decode_encode hdv hdr]
      | none =>
        rw [hwf] at hf
        rw [Option.map_none, Option.getD_none, ← Mode.getField_date, h]
        exact hf.symm
    obtain ⟨-, -, htime⟩ := @time_clear _ c1 b1 d r1 hb1 (seconds_nonneg_of hdv hdr) hdate
    rw [htime, Lib.Calendar.ofSeconds_seconds hdv]

/-! ## Settings with SET clear -/

/-- An access in the host's second `n` that sets nothing, or writes a field of the clock's date to a
date of the calendar. -/
def OneByOne (n : Int) (s : Mc146818) (o : HostClocks × ToyOp) : Prop :=
  hostSeconds o.1.real = n ∧
    match kindOf s o.2 with
    | .control v => v &&& 0x80 = 0
    | .field f v =>
      let t := setField (ofSeconds (n + s.offset)) f
        (s.mode.decode s.arcYearCompat f (stored f v))
      t.Valid ∧ InRange s.arcYearCompat t
    | .other => True

/-- A date with the fields that a run writes replaced, each as its byte says in the mode then. -/
def replaced : Mc146818 → List (HostClocks × ToyOp) → Tm → Tm
  | _, [], t => t
  | s, o :: ops, t => replaced (s.step o) ops
      (match kindOf s o.2 with
      | .field f v => setField t f (s.mode.decode s.arcYearCompat f (stored f v))
      | _ => t)

/-- One access. -/
theorem step_oneByOne {n : Int} {o : HostClocks × ToyOp} (hs : s.setOn = false)
    (hr : InRange s.arcYearCompat (ofSeconds (n + s.offset))) (ho : OneByOne n s o) :
    (s.step o).setOn = false ∧ (s.step o).arcYearCompat = s.arcYearCompat ∧
      InRange s.arcYearCompat (ofSeconds (n + (s.step o).offset)) ∧
      ofSeconds (n + (s.step o).offset) = replaced s [o] (ofSeconds (n + s.offset)) := by
  obtain ⟨hn, ho⟩ := ho
  cases hk : kindOf s o.2 with
  | control v =>
    rw [hk] at ho
    obtain ⟨h1, -, h3, h4⟩ := step_control hk
    rw [hs, if_neg (by simp)] at h4
    refine ⟨setOn_false_iff.mpr (by rw [h1]; exact ho), h3, by rw [h4]; exact hr, ?_⟩
    simp only [replaced, hk, h4]
  | other =>
    have hsame := same_step hk
    refine ⟨(setOn_of hsame.control).trans hs, hsame.arc, by rw [hsame.offset]; exact hr, ?_⟩
    simp only [replaced, hk, hsame.offset]
  | field f v =>
    rw [hk] at ho
    obtain ⟨hval, hran⟩ := ho
    have htime : s.time o.1 = n + s.offset := by rw [time, hn]
    obtain ⟨h1, h2, h3⟩ := step_field_off hk hs (by rw [htime]; exact hr)
      (by rw [htime]; exact seconds_nonneg_of hval hran)
    rw [htime, time, hn] at h3
    have hdate := Lib.Calendar.ofSeconds_seconds hval
    rw [← h3] at hdate
    refine ⟨(setOn_of h1).trans hs, h2, by rw [hdate]; exact hran, ?_⟩
    simp only [replaced, hk, hdate]

/-- Fields written one at a time within a second are replaced, when each date on the way is in the
calendar. -/
theorem run_oneByOne {n : Int} (hs : s.setOn = false)
    (hr : InRange s.arcYearCompat (ofSeconds (n + s.offset))) (h : Along (OneByOne n) s ops) :
    (s.run ops).setOn = false ∧ (s.run ops).arcYearCompat = s.arcYearCompat ∧
      ofSeconds (n + (s.run ops).offset) = replaced s ops (ofSeconds (n + s.offset)) := by
  induction ops generalizing s with
  | nil => exact ⟨hs, rfl, rfl⟩
  | cons o ops ih =>
    obtain ⟨ho, h⟩ := h
    obtain ⟨h1, h2, h3, h4⟩ := step_oneByOne hs hr ho
    obtain ⟨i1, i2, i3⟩ := ih h1 (by rw [h2]; exact h3) h
    rw [h4] at i3
    exact ⟨i1, i2.trans h2, i3⟩

/-- As `OneByOne`, each byte written being the field of the date `d` in the mode then. -/
def Tells (n : Int) (d : Tm) (s : Mc146818) (o : HostClocks × ToyOp) : Prop :=
  hostSeconds o.1.real = n ∧
    match kindOf s o.2 with
    | .control v => v &&& 0x80 = 0
    | .field f v =>
      let t := setField (ofSeconds (n + s.offset)) f (getField d f)
      v = s.mode.encode s.arcYearCompat f d ∧ t.Valid ∧ InRange s.arcYearCompat t
    | .other => True

theorem step_tells {n : Int} {d : Tm} {o : HostClocks × ToyOp} (hd : d.Valid)
    (hdr : InRange s.arcYearCompat d) (ho : Tells n d s o) : OneByOne n s o ∧
      ∀ t g, getField (replaced s [o] t) g =
        if (written s [o] g).isSome then getField d g else getField t g := by
  obtain ⟨hn, ho⟩ := ho
  cases hk : kindOf s o.2 with
  | control v =>
    rw [hk] at ho
    refine ⟨⟨hn, by rw [hk]; exact ho⟩, fun t g => ?_⟩
    simp [replaced, written, hk]
  | other =>
    refine ⟨⟨hn, by rw [hk]; trivial⟩, fun t g => ?_⟩
    simp [replaced, written, hk]
  | field f v =>
    rw [hk] at ho
    obtain ⟨rfl, hval, hran⟩ := ho
    have hdecode : s.mode.decode s.arcYearCompat f
        (stored f (s.mode.encode s.arcYearCompat f d)) = getField d f := by
      rw [stored_encode hd, Mode.decode_encode hd hdr]
    refine ⟨⟨hn, ?_⟩, fun t g => ?_⟩
    · rw [hk]
      dsimp only
      rw [hdecode]
      exact ⟨hval, hran⟩
    · simp only [replaced, written, hk, hdecode, getField_setField, Option.none_or]
      by_cases hg : g = f
      · subst hg
        simp
      · simp [hg, Ne.symm hg]

/-- The fields told are the date's, and the others stay. -/
theorem run_tells {n : Int} {d : Tm} (hd : d.Valid) (hdr : InRange s.arcYearCompat d)
    (hs : s.setOn = false) (hr : InRange s.arcYearCompat (ofSeconds (n + s.offset)))
    (h : Along (Tells n d) s ops) : Along (OneByOne n) s ops ∧
      ∀ t g, getField (replaced s ops t) g =
        if (written s ops g).isSome then getField d g else getField t g := by
  induction ops generalizing s with
  | nil => exact ⟨trivial, fun t g => rfl⟩
  | cons o ops ih =>
    obtain ⟨ho, h⟩ := h
    obtain ⟨hone, hold⟩ := step_tells hd hdr ho
    obtain ⟨h1, h2, h3, -⟩ := step_oneByOne hs hr hone
    obtain ⟨hall, hnew⟩ := ih (by rw [h2]; exact hdr) h1 (by rw [h2]; exact h3) h
    refine ⟨⟨hone, hall⟩, fun t g => ?_⟩
    have hrep : replaced s (o :: ops) t = replaced (s.step o) ops (replaced s [o] t) := rfl
    have hwr : written s (o :: ops) g = (written (s.step o) ops g).or (written s [o] g) := rfl
    rw [hrep, hwr, hnew, hold]
    cases written (s.step o) ops g with
    | some v => rfl
    | none => rfl

/-! ## The clock keeps what it is told -/

/-- What the clock keeps of a setting. It shows its date. A setting of all the fields with SET on is
the clock's date, and goes on with the host's seconds, in the mode then selected. A setting of some
of them with SET keeps the others exactly when the registers show the clock's date as SET is set;
one with SET clear does, when each date on the way is in the calendar: the clock's date then has the
fields written as the date told has them, and the others as they were. -/
theorem clock_keeps_setting (s : Mc146818) :
    (∀ c f, s.setOn = false → InRange s.arcYearCompat (ofSeconds (s.time c)) →
      s.reading c f.reg = s.mode.encode s.arcYearCompat f (ofSeconds (s.time c))) ∧
    (∀ ops b quiet c0 c1 d (k : Nat), s.setOn = true → Along KeepsControl s ops →
      b &&& 0x80 = 0 → d.Valid → InRange s.arcYearCompat d →
      (∀ f, written s ops f = some ((modeOf b).encode s.arcYearCompat f d)) →
      Along Quiet ((s.run ops).setting c0 0x0b b) quiet →
      hostSeconds c1.real = hostSeconds c0.real + k →
      InRange s.arcYearCompat (ofSeconds (seconds d + k)) →
      ∀ f, (((s.run ops).setting c0 0x0b b).run quiet).reading c1 f.reg =
        (((s.run ops).setting c0 0x0b b).run quiet).mode.encode s.arcYearCompat f
          (ofSeconds (seconds d + k))) ∧
    (∀ c0 b0 b1, b0 &&& 0x80 ≠ 0 → b1 &&& 0x80 = 0 →
      InRange s.arcYearCompat (ofSeconds (s.time c0)) →
      (KeepsOthers s c0 b0 b1 ↔
        (modeOf b1).date s.arcYearCompat s.ram = ofSeconds (s.time c0))) ∧
    (∀ ops n, s.setOn = false →
      InRange s.arcYearCompat (ofSeconds (n + s.offset)) → Along (OneByOne n) s ops →
      ofSeconds (n + (s.run ops).offset) = replaced s ops (ofSeconds (n + s.offset))) ∧
    ∀ ops n d, s.setOn = false → InRange s.arcYearCompat (ofSeconds (n + s.offset)) →
      d.Valid → InRange s.arcYearCompat d → Along (Tells n d) s ops →
      ∀ f, getField (ofSeconds (n + (s.run ops).offset)) f =
        if (written s ops f).isSome then getField d f
        else getField (ofSeconds (n + s.offset)) f := by
  refine ⟨fun _ _ => reading_reg, fun _ _ _ _ _ _ _ hs ho hb hd hr hw hq hk hr' _ =>
      clock_set_all hs ho hb hd hr hw hq hk hr',
    fun _ _ _ => keepsOthers_iff, fun _ _ hs hr h => (run_oneByOne hs hr h).2.2, ?_⟩
  intro ops n d hs hr hd hdr h f
  obtain ⟨hone, hfields⟩ := run_tells hd hdr hs hr h
  rw [(run_oneByOne hs hr hone).2.2, hfields]

/-- The clock at power on, in binary and 24 hours. -/
def powerOn : Mc146818 where
  ram r := if r = 0x0a then 0x26 else if r = 0x0b then 0x06 else 0
  ports _ := 0
  offset := 0
  arcYearCompat := false
  pfEpoch := 0
  pfCount := 0
  pfFreq := 0

/-- The host's clocks `n` seconds after 12:34:56 on 2026-10-20. -/
def atSecond (n : Int) : HostClocks := ⟨(1792499696 + n) * 1000000000, 5000000000000⟩

/-- 08:00:00 on 2030-01-01. -/
def newYear : Tm := ⟨0, 0, 8, 1, 0, 130⟩

/-- The hour and the minute of it, told in the mode of power on. -/
def toldHour : List (HostClocks × ToyOp) :=
  writes (atSecond 0) (fun f => (modeOf 0x06).encode false f newYear) [.hour, .min]

theorem toldHour_tells : Along (Tells 1792499696 newYear) powerOn toldHour :=
  ⟨⟨by decide +kernel, trivial⟩,
    ⟨by decide +kernel, by decide +kernel, by decide +kernel, by decide +kernel⟩,
    ⟨by decide +kernel, trivial⟩,
    ⟨by decide +kernel, by decide +kernel, by decide +kernel, by decide +kernel⟩, trivial⟩

theorem clock_keeps_setting_power_on :
    powerOn.reading (atSecond 0) Field.sec.reg = 56 ∧
    (((powerOn.setting (atSecond 0) 0x0b 0x86).run (writes (atSecond 1)
      (fun f => (modeOf 0x06).encode false f newYear) Field.all)).setting
        (atSecond 2) 0x0b 0x06).reading (atSecond 63) Field.min.reg = 1 ∧
    KeepsOthers (powerOn.step (atSecond 0, .read 1)) (atSecond 0) 0x86 0x06 ∧
    ofSeconds (1792499696 + (powerOn.run (writes (atSecond 0) (fun _ => 8) [.hour, .min])).offset) =
      ⟨56, 8, 8, 20, 9, 126⟩ ∧
    getField (ofSeconds (1792499696 + (powerOn.run toldHour).offset)) .hour = 8 ∧
    getField (ofSeconds (1792499696 + (powerOn.run toldHour).offset)) .mday = 20 := by
  obtain ⟨hread, -, -, hone, htold⟩ := clock_keeps_setting powerOn
  obtain ⟨-, hall, -⟩ := clock_keeps_setting (powerOn.setting (atSecond 0) 0x0b 0x86)
  obtain ⟨-, -, hsome, -⟩ := clock_keeps_setting (powerOn.step (atSecond 0, .read 1))
  have hfields := htold toldHour 1792499696 newYear rfl (by decide +kernel) (by decide)
    (by decide +kernel) toldHour_tells
  refine ⟨?_, ?_, ?_, ?_, (hfields .hour).trans (by decide +kernel),
    (hfields .mday).trans (by decide +kernel)⟩
  · have h := hread (atSecond 0) .sec rfl (by decide +kernel)
    rw [h]
    decide +kernel
  · obtain ⟨h1, h2⟩ := @written_writes (powerOn.setting (atSecond 0) 0x0b 0x86) (atSecond 1)
      (fun f => (modeOf 0x06).encode false f newYear) Field.all
    have h := hall _ 0x06 [] (atSecond 2) (atSecond 63)
      newYear 61 (by decide +kernel) h1 (by decide) (by decide) (by decide +kernel)
      (fun f => by rw [h2, if_pos f.mem_all]; rfl) trivial (by decide +kernel) (by decide +kernel)
      .min
    have hrun : ∀ s : Mc146818, s.run [] = s := fun _ => rfl
    rw [hrun] at h
    rw [h]
    decide +kernel
  · exact (hsome _ _ _ (by decide) (by decide) (by decide +kernel)).mpr (by decide +kernel)
  · have h := hone (writes (atSecond 0) (fun _ => 8) [.hour, .min]) 1792499696 rfl
      (by decide +kernel) ⟨⟨by decide +kernel, trivial⟩, ⟨by decide +kernel, by decide +kernel,
        by decide +kernel⟩, ⟨by decide +kernel, trivial⟩, ⟨by decide +kernel, by decide +kernel,
        by decide +kernel⟩, trivial⟩
    exact h.trans (by decide +kernel)

/-- A clock last read ten seconds before SET is set goes back by them when SET is cleared again; and
on January 31 a clock told the month and then the day, February 15, has March 15. -/
theorem clock_loses_time :
    ¬ KeepsOthers (powerOn.step (atSecond 0, .read 1)) (atSecond 10) 0x86 0x06 ∧
    replaced powerOn (writes ⟨1706659200000000000, 0⟩ (fun f => if f = .mon then 2 else 15)
        [.mon, .mday]) (ofSeconds 1706659200) = ⟨0, 0, 0, 15, 1, 124⟩ ∧
    (⟨0, 0, 0, 15, 1, 124⟩ : Tm).Valid ∧
    ofSeconds (1706659200 + (powerOn.run (writes ⟨1706659200000000000, 0⟩
        (fun f => if f = .mon then 2 else 15) [.mon, .mday])).offset) = ⟨0, 0, 0, 15, 2, 124⟩ := by
  refine ⟨fun h => ?_, by decide +kernel, by decide, by decide +kernel⟩
  rw [keepsOthers_iff (by decide) (by decide) (by decide +kernel)] at h
  exact absurd h (by decide +kernel)

end Alphabox.Isa.Mc146818
