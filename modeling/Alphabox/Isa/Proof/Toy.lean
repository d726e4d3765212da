import Alphabox.Isa.Mc146818

/-!
# The clock keeps what it is told

The six time and date registers are the fields of a date, each written as register B's data mode and
hour format say. `encode` is the byte of a field as the chip has it and `decode` is how a setting
takes it; they are inverse on the dates that the year register can express. A port access does one
of three things to the clock (`kindOf`), and what each does to a setting is one lemma.
-/

namespace Alphabox.Isa

open Lib.Calendar (Tm)

/-! ## Fields -/

/-- The data mode and the hour format of register B. -/
structure Mode where
  binary : Bool
  h24 : Bool
  deriving DecidableEq

def modeOf (b : BitVec 8) : Mode := ⟨b &&& 4 ≠ 0, b &&& 2 ≠ 0⟩

inductive Field where
  | sec | min | hour | mday | mon | year
  deriving DecidableEq

namespace Field

/-- The register of a field. -/
def reg : Field → BitVec 8
  | sec => 0
  | min => 2
  | hour => 4
  | mday => 7
  | mon => 8
  | year => 9

def all : List Field := [sec, min, hour, mday, mon, year]

theorem mem_all (f : Field) : f ∈ all := by cases f <;> decide

theorem reg_inj {f g : Field} (h : f.reg = g.reg) : f = g := by
  cases f <;> cases g <;> first | rfl | exact absurd h (by decide)

end Field

/-- A field of a date. -/
def getField (t : Tm) : Field → Int
  | .sec => t.sec
  | .min => t.min
  | .hour => t.hour
  | .mday => t.mday
  | .mon => t.mon
  | .year => t.year

def setField (t : Tm) (f : Field) (x : Int) : Tm :=
  match f with
  | .sec => { t with sec := x }
  | .min => { t with min := x }
  | .hour => { t with hour := x }
  | .mday => { t with mday := x }
  | .mon => { t with mon := x }
  | .year => { t with year := x }

theorem getField_setField {t : Tm} {f g : Field} {x : Int} :
    getField (setField t f x) g = if g = f then x else getField t g := by
  cases f <;> cases g <;> rfl

theorem tm_ext {t u : Tm} (h : ∀ f, getField t f = getField u f) : t = u :=
  Tm.ext (h .sec) (h .min) (h .hour) (h .mday) (h .mon) (h .year)

/-- The years that the year register can express: from 1970, or from 1980 as the ARC console counts
them. -/
def InRange (arc : Bool) (t : Tm) : Prop :=
  if arc then 80 ≤ t.year ∧ t.year < 180 else 70 ≤ t.year ∧ t.year < 170

instance (arc : Bool) (t : Tm) : Decidable (InRange arc t) :=
  inferInstanceAs (Decidable (if arc then _ else _))

namespace Mode

variable (m : Mode)

/-- A number in the data mode. -/
def code (x : Int) : BitVec 8 := BitVec.ofInt 8 (if m.binary then x else x / 10 * 16 + x % 10)

/-- An hour in the hour format: 1 to 12, the afternoon's with bit 7, or 0 to 23. -/
def hourCode (h : Int) : BitVec 8 :=
  if m.h24 then m.code h
  else m.code ((h + 11) % 12 + 1) ||| if 12 ≤ h then 0x80 else 0

/-- The byte of a field, as the data sheet has it. -/
def encode (arc : Bool) (f : Field) (t : Tm) : BitVec 8 :=
  match f with
  | .sec => m.code t.sec
  | .min => m.code t.min
  | .hour => m.hourCode t.hour
  | .mday => m.code t.mday
  | .mon => m.code (t.mon + 1)
  | .year => m.code (if arc then t.year - 80 else t.year % 100)

def value (v : BitVec 8) : Int := if m.binary then v.toNat else unbcd v

/-- The hour of a byte. -/
def hourValue (v : BitVec 8) : Int :=
  let pm : Bool := !m.h24 && v &&& 0x80 ≠ 0
  let hh := if m.h24 then v else v &&& 0x7f
  let hour := if !m.h24 && pm && decide (m.value hh < 12) then m.value hh + 12 else m.value hh
  if !m.h24 && !pm && decide (hour = 12) then 0 else hour

/-- A field as a setting takes it from its byte. -/
def decode (arc : Bool) (f : Field) (v : BitVec 8) : Int :=
  match f with
  | .hour => m.hourValue v
  | .mon => m.value v - 1
  | .year => if arc then m.value v + 80 else if m.value v < 70 then m.value v + 100 else m.value v
  | _ => m.value v

/-- The date of the registers. -/
def date (arc : Bool) (ram : BitVec 8 → BitVec 8) : Tm :=
  ⟨m.decode arc .sec (ram 0), m.decode arc .min (ram 2), m.decode arc .hour (ram 4),
    m.decode arc .mday (ram 7), m.decode arc .mon (ram 8), m.decode arc .year (ram 9)⟩

variable {m}

theorem getField_date {arc : Bool} {ram : BitVec 8 → BitVec 8} (f : Field) :
    getField (m.date arc ram) f = m.decode arc f (ram f.reg) := by
  cases f <;> rfl

theorem bcd_code : ∀ n : Fin 100, bcd n.val = BitVec.ofInt 8 ((n.val : Int) / 10 * 16 + n.val % 10) ∧
    unbcd (BitVec.ofInt 8 ((n.val : Int) / 10 * 16 + n.val % 10)) = n.val ∧
    (BitVec.ofInt 8 (n.val : Int)).toNat = n.val := by
  decide +kernel

theorem value_code {x : Int} (h0 : 0 ≤ x) (h : x < 100) : m.value (m.code x) = x := by
  obtain ⟨n, rfl⟩ := Int.eq_ofNat_of_zero_le h0
  obtain ⟨_, h1, h2⟩ := bcd_code ⟨n, by omega⟩
  unfold value code
  split
  · exact congrArg Int.ofNat h2
  · exact h1

theorem hourValue_hourCode : ∀ (b h24 : Bool) (n : Fin 24),
    hourValue ⟨b, h24⟩ (hourCode ⟨b, h24⟩ n.val) = n.val := by
  decide +kernel

theorem monthLength_le (leap : Bool) {n : Nat} (h : n < 12) :
    Lib.Calendar.monthLength leap n ≤ 31 := by
  cases leap <;> interval_cases n <;> decide

theorem Valid.mday_le {t : Tm} (h : t.Valid) : t.mday ≤ 31 := by
  have h31 := monthLength_le t.leap (show t.mon.toNat < 12 by have := h.mon; omega)
  have := h.mday
  omega

/-- A field is taken as it was written. -/
theorem decode_encode {arc : Bool} {t : Tm} (h : t.Valid) (hr : InRange arc t) (f : Field) :
    m.decode arc f (m.encode arc f t) = getField t f := by
  have hs := h.sec
  have hm := h.min
  have hmon := h.mon
  have hd := h.mday
  have hd31 := Valid.mday_le h
  cases f with
  | sec => exact value_code hs.1 (by omega)
  | min => exact value_code hm.1 (by omega)
  | hour =>
    obtain ⟨h0, h24⟩ := h.hour
    have hcode := hourValue_hourCode m.binary m.h24 ⟨t.hour.toNat, by omega⟩
    simp only [Int.toNat_of_nonneg h0] at hcode
    exact hcode
  | mday => exact value_code (by omega) (by omega)
  | mon =>
    have := value_code (m := m) (show 0 ≤ t.mon + 1 by omega) (by omega)
    simp only [decode, encode, this, getField]
    omega
  | year =>
    simp only [decode, encode, getField]
    cases arc with
    | true =>
      have hr : 80 ≤ t.year ∧ t.year < 180 := hr
      simp only [if_true, value_code (m := m) (show 0 ≤ t.year - 80 by omega) (by omega)]
      omega
    | false =>
      have hr : 70 ≤ t.year ∧ t.year < 170 := hr
      simp only [Bool.false_eq_true, if_false,
        value_code (m := m) (show 0 ≤ t.year % 100 by omega) (by omega)]
      split <;> omega

end Mode

namespace Mc146818

variable {s : Mc146818} {c : HostClocks} {v r : BitVec 8} {f g : Field}

def mode (s : Mc146818) : Mode := modeOf (s.ram 0x0b)

/-! ## The time registers as they are made -/

@[simp] theorem put_same (ram : BitVec 8 → BitVec 8) : put ram r v r = v := if_pos rfl

theorem put_other {ram : BitVec 8 → BitVec 8} {i : BitVec 8} (h : r ≠ i) : put ram i v r = ram r :=
  if_neg h

theorem hour_bytes : ∀ n : Fin 24,
    (if 12 ≤ (n.val : Int) then (0x80 : BitVec 8) else 0) |||
        BitVec.ofInt 8 (if (n.val : Int).tmod 12 ≠ 0 then (n.val : Int).tmod 12 else 12) =
      Mode.hourCode ⟨true, false⟩ n.val ∧
    (if 12 ≤ (n.val : Int) then (0x80 : BitVec 8) else 0) |||
        bcd (if (n.val : Int).tmod 12 ≠ 0 then (n.val : Int).tmod 12 else 12) =
      Mode.hourCode ⟨false, false⟩ n.val := by
  decide +kernel

theorem hour_byte {h : Int} (h0 : 0 ≤ h) (h24 : h < 24) :
    (if 12 ≤ h then (0x80 : BitVec 8) else 0) |||
        BitVec.ofInt 8 (if h.tmod 12 ≠ 0 then h.tmod 12 else 12) = Mode.hourCode ⟨true, false⟩ h ∧
    (if 12 ≤ h then (0x80 : BitVec 8) else 0) |||
        bcd (if h.tmod 12 ≠ 0 then h.tmod 12 else 12) = Mode.hourCode ⟨false, false⟩ h := by
  obtain ⟨n, rfl⟩ := Int.eq_ofNat_of_zero_le h0
  exact hour_bytes ⟨n, by omega⟩

theorem bcd_eq {x : Int} (h0 : 0 ≤ x) (h : x < 100) :
    bcd x = BitVec.ofInt 8 (x / 10 * 16 + x % 10) := by
  obtain ⟨n, rfl⟩ := Int.eq_ofNat_of_zero_le h0
  exact (Mode.bcd_code ⟨n, by omega⟩).1

/-- The number of the year register. -/
theorem yearNumber {arc : Bool} {t : Tm} (hr : InRange arc t) :
    (if arc then t.year - 80 else t.year.tmod 100) = (if arc then t.year - 80 else t.year % 100) ∧
      0 ≤ (if arc then t.year - 80 else t.year % 100) ∧
      (if arc then t.year - 80 else t.year % 100) < 100 := by
  cases arc with
  | true =>
    have hr : 80 ≤ t.year ∧ t.year < 180 := hr
    simp only [if_true]
    exact ⟨trivial, by omega, by omega⟩
  | false =>
    have hr : 70 ≤ t.year ∧ t.year < 170 := hr
    simp only [Bool.false_eq_true, if_false, Int.tmod_eq_emod_of_nonneg (show 0 ≤ t.year by omega)]
    exact ⟨trivial, by omega, by omega⟩

/-- The registers show the time, where the year register can. -/
theorem timeRam_reg {secs : Int} (hr : InRange s.arcYearCompat (Lib.Calendar.ofSeconds secs)) :
    s.timeRam secs f.reg = s.mode.encode s.arcYearCompat f (Lib.Calendar.ofSeconds secs) := by
  have hv := (Lib.Calendar.ofSeconds_valid secs).1
  obtain ⟨hy, hy0, hy100⟩ := yearNumber hr
  have hs := hv.sec
  have hm := hv.min
  have hmon := hv.mon
  have hd := hv.mday
  have hd31 := Mode.Valid.mday_le hv
  obtain ⟨hbin, hbcd⟩ := hour_byte hv.hour.1 hv.hour.2
  unfold timeRam
  simp only [hy]
  generalize Lib.Calendar.ofSeconds secs = t at *
  have h4 {a b c d e : BitVec 8} {ram : BitVec 8 → BitVec 8} :
      put (put (put (put (put ram 4 a) 6 b) 7 c) 8 d) 9 e 4 = a := by simp [put]
  by_cases hb : s.ram 0x0b &&& 4 ≠ 0
  · rw [if_pos hb]
    have hmode : s.mode.binary = true := decide_eq_true hb
    cases f with
    | hour =>
      refine h4.trans ?_
      by_cases h2 : s.ram 0x0b &&& 2 ≠ 0
      · have hm : s.mode = ⟨true, true⟩ :=
          congrArg₂ Mode.mk (decide_eq_true hb) (decide_eq_true h2)
        rw [if_pos h2, hm]
        rfl
      · have hm : s.mode = ⟨true, false⟩ :=
          congrArg₂ Mode.mk (decide_eq_true hb) (decide_eq_false h2)
        rw [if_neg h2, hm]
        exact hbin
    | _ => simp [Field.reg, put, Mode.encode, Mode.code, hmode]
  · rw [if_neg hb]
    have hmode : s.mode.binary = false := decide_eq_false hb
    cases f with
    | hour =>
      refine h4.trans ?_
      by_cases h2 : s.ram 0x0b &&& 2 ≠ 0
      · have hm : s.mode = ⟨false, true⟩ :=
          congrArg₂ Mode.mk (decide_eq_false hb) (decide_eq_true h2)
        rw [if_pos h2, hm]
        exact bcd_eq hv.hour.1 (by have := hv.hour; omega)
      · have hm : s.mode = ⟨false, false⟩ :=
          congrArg₂ Mode.mk (decide_eq_false hb) (decide_eq_false h2)
        rw [if_neg h2, hm]
        exact hbcd
    | year => simp [Field.reg, put, Mode.encode, Mode.code, hmode, bcd_eq hy0 hy100]
    | sec => simp [Field.reg, put, Mode.encode, Mode.code, hmode, bcd_eq hs.1 (by omega)]
    | min => simp [Field.reg, put, Mode.encode, Mode.code, hmode, bcd_eq hm.1 (by omega)]
    | mday =>
      simp [Field.reg, put, Mode.encode, Mode.code, hmode,
        bcd_eq (show 0 ≤ t.mday by omega) (by omega)]
    | mon =>
      simp [Field.reg, put, Mode.encode, Mode.code, hmode,
        bcd_eq (show 0 ≤ t.mon + 1 by omega) (by omega)]

/-! ## What an access does -/

/-- What a port access does to the clock: register B is written, a field, or neither. -/
inductive Kind where
  | control (v : BitVec 8)
  | field (f : Field) (v : BitVec 8)
  | other
  deriving DecidableEq

def fieldOf (r : BitVec 8) : Option Field := Field.all.find? fun f => f.reg == r

def kindOf (s : Mc146818) : ToyOp → Kind
  | .write port v =>
    if port = 1 then
      if s.selected = 0x0b then .control v
      else match fieldOf s.selected with
        | some f => .field f v
        | none => .other
    else .other
  | .read _ => .other

/-- The byte of a field's register that a write of `v` stores. -/
def stored (f : Field) (v : BitVec 8) : BitVec 8 := if f = .sec then v &&& 0x7f else v

/-- The clock's setting is the same: the registers of the fields are while SET is on, as are register
B and the offset. -/
structure Same (s s' : Mc146818) : Prop where
  offset : s'.offset = s.offset
  control : s'.ram 0x0b = s.ram 0x0b
  fields : s.setOn = true → ∀ f : Field, s'.ram f.reg = s.ram f.reg
  arc : s'.arcYearCompat = s.arcYearCompat

theorem Same.refl (s : Mc146818) : Same s s := ⟨rfl, rfl, fun _ _ => rfl, rfl⟩

theorem setOn_of {s s' : Mc146818} (h : s'.ram 0x0b = s.ram 0x0b) : s'.setOn = s.setOn := by
  rw [setOn, setOn, h]

theorem Same.trans {s s' s'' : Mc146818} (h : Same s s') (h' : Same s' s'') : Same s s'' :=
  ⟨h'.offset.trans h.offset, h'.control.trans h.control,
    fun hs f => (h'.fields ((setOn_of h.control).trans hs) f).trans (h.fields hs f),
    h'.arc.trans h.arc⟩

theorem same_setPort {port : Fin 4} : Same s (s.setPort port v) := ⟨rfl, rfl, fun _ _ => rfl, rfl⟩

/-- A register that is none of the clock's is written. -/
theorem same_put (hb : r ≠ 0x0b) (hf : ∀ f : Field, f.reg ≠ r) :
    Same s { s with ram := put s.ram r v } :=
  ⟨rfl, put_other hb.symm, fun _ f => put_other (hf f), rfl⟩

theorem same_generateTime (hs : s.setOn = false) : Same s (s.generateTime c) := by
  refine ⟨rfl, ?_, fun h => absurd (hs.symm.trans h) (by decide), rfl⟩
  unfold generateTime timeRam
  simp only
  split <;> simp [put]

theorem same_updatePf : Same s (s.updatePf c) := by
  unfold updatePf
  extract_lets ratePow freq freq' s1 elapsed due
  split
  · exact .refl s
  · have h1 : Same s s1 := by
      simp only [s1]
      split
      · exact .refl s
      · exact ⟨rfl, rfl, fun _ _ => rfl, rfl⟩
    split
    · exact h1
    · have h2 : Same s1 { s1 with ram := put s1.ram 0x0c (s1.ram 0x0c ||| 0x40) } :=
        same_put (by decide) fun f => by cases f <;> decide
      exact h1.trans ⟨h2.offset, h2.control, h2.fields, h2.arc⟩

theorem same_registerLocked : Same s (s.registerLocked c r).2 := by
  unfold registerLocked
  split
  · have h1 : Same s (if s.setOn then s else
        generateTime { s with ram := put s.ram 0x0d 0x80 } c) := by
      split
      · exact .refl s
      · rename_i hs
        have h0 : Same s { s with ram := put s.ram 0x0d 0x80 } :=
          same_put (by decide) fun f => by cases f <;> decide
        exact h0.trans (same_generateTime ((setOn_of h0.control).trans (by simpa using hs)))
    simp only
    split
    · exact (h1.trans same_updatePf).trans (same_put (by decide) fun f => by cases f <;> decide)
    · exact h1
  · exact .refl s

theorem same_read {port : Fin 4} : Same s (s.read c port).2 := by
  unfold read
  split
  · exact same_registerLocked.trans same_setPort
  split
  · exact same_setPort
  · exact .refl s

theorem fieldOf_some (h : fieldOf r = some f) : r = f.reg := by
  have := List.find?_some h
  exact (beq_iff_eq.mp this).symm

theorem fieldOf_none (h : fieldOf r = none) (f : Field) : f.reg ≠ r := by
  have := List.find?_eq_none.mp h f f.mem_all
  simpa using this

theorem isTimeRegister_reg : isTimeRegister f.reg = true := by cases f <;> rfl

theorem isTimeRegister_of (h : isTimeRegister r = true) : ∃ f, fieldOf r = some f := by
  simp only [isTimeRegister, Bool.or_eq_true, beq_iff_eq] at h
  obtain ((((rfl | rfl) | rfl) | rfl) | rfl) | rfl := h <;> exact ⟨_, rfl⟩

/-- A write to a register that is neither B nor a field's. -/
theorem same_writeRegister (hb : r ≠ 0x0b) (hf : fieldOf r = none) :
    Same s (s.writeRegister c r v) := by
  have ht : ¬ (s.setOn = false ∧ isTimeRegister r = true) := fun ⟨_, h⟩ => by
    obtain ⟨f, hsome⟩ := isTimeRegister_of h
    rw [hf] at hsome
    exact nomatch hsome
  unfold writeRegister
  split
  · exact .refl s
  · simp only [hb, false_and, if_false, if_neg ht]
    exact same_put hb (fieldOf_none hf)

/-- The upper bytes of RAM are no registers. -/
theorem upper_ne {x r : BitVec 8} (hr : r.msb = false) : r ≠ 0x80 + (x &&& 0x7f) := by
  have hm : ∀ x : BitVec 8, (0x80 + (x &&& 0x7f)).msb = true := by decide +kernel
  rintro rfl
  rw [hm] at hr
  exact nomatch hr

/-- An access that writes neither register B nor a field keeps the setting. -/
theorem same_step {o : HostClocks × ToyOp} (h : kindOf s o.2 = .other) : Same s (s.step o) := by
  obtain ⟨c, op⟩ := o
  cases op with
  | read port => exact same_read
  | write port v =>
    simp only [kindOf] at h
    have hp : Same s (s.setPort port v) := same_setPort
    show Same s (s.write c port v)
    unfold write
    split
    · rename_i h1
      subst h1
      rw [if_pos rfl] at h
      have hsel : (s.setPort 1 v).selected = s.selected := rfl
      simp only [hsel]
      split at h
      · exact nomatch h
      · rename_i hb
        split at h
        · exact nomatch h
        · rename_i hf
          exact hp.trans (same_writeRegister hb hf)
    split
    · exact hp.trans (same_put (upper_ne rfl).symm fun f => upper_ne (by cases f <;> rfl))
    · exact hp

/-! ## Settings -/

theorem setTime_eq {b : BitVec 8} : s.setTimeFromRegisters c b =
    if Lib.Calendar.seconds ((modeOf b).date s.arcYearCompat s.ram) ≠ -1 then
      { s with offset := Lib.Calendar.seconds ((modeOf b).date s.arcYearCompat s.ram) -
          hostSeconds c.real }
    else s := rfl

theorem setTime_frame {b : BitVec 8} : (s.setTimeFromRegisters c b).ram = s.ram ∧
    (s.setTimeFromRegisters c b).arcYearCompat = s.arcYearCompat := by
  rw [setTime_eq]
  split <;> exact ⟨rfl, rfl⟩

/-- The clock has the time of the registers, from 1970 on. -/
theorem setTime_time {b : BitVec 8}
    (h : 0 ≤ Lib.Calendar.seconds ((modeOf b).date s.arcYearCompat s.ram)) :
    (s.setTimeFromRegisters c b).time c =
      Lib.Calendar.seconds ((modeOf b).date s.arcYearCompat s.ram) := by
  rw [setTime_eq, if_pos (by omega), time]
  simp only
  omega

theorem kindOf_control {op : ToyOp} (h : kindOf s op = .control v) :
    op = .write 1 v ∧ s.selected = 0x0b := by
  cases op with
  | read port => exact nomatch h
  | write port w =>
    simp only [kindOf] at h
    split at h
    · rename_i h1
      split at h
      · rename_i hb
        obtain rfl := Kind.control.inj h
        exact ⟨by rw [h1], hb⟩
      · split at h <;> exact nomatch h
    · exact nomatch h

theorem kindOf_field {op : ToyOp} (h : kindOf s op = .field f v) :
    op = .write 1 v ∧ s.selected = f.reg := by
  cases op with
  | read port => exact nomatch h
  | write port w =>
    simp only [kindOf] at h
    split at h
    · rename_i h1
      split at h
      · exact nomatch h
      · split at h
        · rename_i g hg
          obtain ⟨rfl, rfl⟩ := Kind.field.inj h
          exact ⟨by rw [h1], fieldOf_some hg⟩
        · exact nomatch h
    · exact nomatch h

/-- A write to the data port. -/
theorem step_write : s.step (c, .write 1 v) = (s.setPort 1 v).writeRegister c s.selected v := rfl

/-- A setting depends on the registers of the fields. -/
theorem setTime_congr {s' : Mc146818} {b : BitVec 8} (ho : s'.offset = s.offset)
    (ha : s'.arcYearCompat = s.arcYearCompat) (hf : ∀ f : Field, s'.ram f.reg = s.ram f.reg) :
    (s'.setTimeFromRegisters c b).offset = (s.setTimeFromRegisters c b).offset := by
  have hd : (modeOf b).date s'.arcYearCompat s'.ram = (modeOf b).date s.arcYearCompat s.ram :=
    tm_ext fun f => by rw [Mode.getField_date, Mode.getField_date, ha, hf]
  rw [setTime_eq, setTime_eq, hd]
  split
  · rfl
  · exact ho

theorem writeRegister_control : s.writeRegister c 0x0b v =
    let s1 := if v &&& 0x40 ≠ 0 then { s with ram := put s.ram 0x0c 0xf0 } else s
    let s2 := if s1.setOn = true ∧ v &&& 0x80 = 0 then s1.setTimeFromRegisters c v else s1
    let s3 := if v &&& 0x80 ≠ 0 then { s2 with ram := put s2.ram 0x0a (s2.ram 0x0a &&& 0x7f) }
      else s2
    { s3 with ram := put s3.ram 0x0b v } := by
  unfold writeRegister
  rw [if_neg (by decide)]
  have hd : (if (0x0b : BitVec 8) = 0x0a ∨ (0x0b : BitVec 8) = 0x00 then v &&& 0x7f else v) = v :=
    if_neg (by decide)
  have ht : isTimeRegister 0x0b = false := rfl
  simp only [hd, ht, true_and, Bool.false_eq_true, and_false, if_false]

/-- What a write to register B does. -/
theorem step_control {o : HostClocks × ToyOp} (h : kindOf s o.2 = .control v) :
    (s.step o).ram 0x0b = v ∧ (∀ f : Field, (s.step o).ram f.reg = s.ram f.reg) ∧
      (s.step o).arcYearCompat = s.arcYearCompat ∧
      (s.step o).offset = if s.setOn = true ∧ v &&& 0x80 = 0 then
        (s.setTimeFromRegisters o.1 v).offset else s.offset := by
  obtain ⟨c, op⟩ := o
  obtain ⟨rfl, hb⟩ := kindOf_control h
  rw [step_write, hb, writeRegister_control]
  extract_lets s1 s2 s3
  have h1 : s1.offset = s.offset ∧ s1.arcYearCompat = s.arcYearCompat ∧ s1.setOn = s.setOn ∧
      ∀ f : Field, s1.ram f.reg = s.ram f.reg := by
    simp only [s1]
    split
    · exact ⟨rfl, rfl, rfl, fun f => put_other (by cases f <;> decide)⟩
    · exact ⟨rfl, rfl, rfl, fun _ => rfl⟩
  obtain ⟨ho1, ha1, hs1, hf1⟩ := h1
  have h2 : s2.ram = s1.ram ∧ s2.arcYearCompat = s.arcYearCompat ∧
      s2.offset = if s.setOn = true ∧ v &&& 0x80 = 0 then (s.setTimeFromRegisters c v).offset
        else s.offset := by
    simp only [s2, hs1]
    split
    · exact ⟨setTime_frame.1, setTime_frame.2.trans ha1, setTime_congr ho1 ha1 hf1⟩
    · exact ⟨rfl, ha1, ho1⟩
  obtain ⟨hr2, ha2, ho2⟩ := h2
  have h3 : (∀ f : Field, s3.ram f.reg = s2.ram f.reg) ∧ s3.arcYearCompat = s2.arcYearCompat ∧
      s3.offset = s2.offset := by
    simp only [s3]
    split
    · exact ⟨fun f => put_other (by cases f <;> decide), rfl, rfl⟩
    · exact ⟨fun _ => rfl, rfl, rfl⟩
  obtain ⟨hf3, ha3, ho3⟩ := h3
  refine ⟨?_, fun f => ?_, ha3.trans ha2, ho3.trans ho2⟩
  · show put s3.ram 0x0b v 0x0b = v
    exact put_same s3.ram
  · rw [← hf1, ← hr2, ← hf3]
    exact put_other (by cases f <;> decide)

theorem reg_ne : f.reg ≠ 0x0a ∧ f.reg ≠ 0x0b ∧ f.reg ≠ 0x0c ∧ f.reg ≠ 0x0d := by
  cases f <;> decide

/-- The registers as they are made show the time. -/
theorem generateTime_reg (hr : InRange s.arcYearCompat (Lib.Calendar.ofSeconds (s.time c))) :
    (s.generateTime c).ram f.reg =
      s.mode.encode s.arcYearCompat f (Lib.Calendar.ofSeconds (s.time c)) :=
  (put_other reg_ne.1).trans (timeRam_reg hr)

theorem writeRegister_field : s.writeRegister c f.reg v =
    if s.setOn = false then
      let s1 := s.generateTime c
      let s2 := { s1 with ram := put s1.ram f.reg (stored f v) }
      s2.setTimeFromRegisters c (s2.ram 0x0b)
    else { s with ram := put s.ram f.reg (stored f v) } := by
  obtain ⟨ha, hb, hc, hd⟩ := reg_ne (f := f)
  have hst : (if f.reg = 0x0a ∨ f.reg = 0x00 then v &&& 0x7f else v) = stored f v := by
    cases f <;> rfl
  unfold writeRegister
  rw [if_neg (by simp only [hc, hd, or_self, not_false_iff])]
  simp only [hst, hb, false_and, if_false, isTimeRegister_reg, and_true]

/-- What a write to a field does while SET is on. -/
theorem step_field_on {o : HostClocks × ToyOp} (h : kindOf s o.2 = .field f v)
    (hs : s.setOn = true) : (s.step o).ram 0x0b = s.ram 0x0b ∧
      (∀ g : Field, (s.step o).ram g.reg = if g = f then stored f v else s.ram g.reg) ∧
      (s.step o).arcYearCompat = s.arcYearCompat ∧ (s.step o).offset = s.offset := by
  obtain ⟨c, op⟩ := o
  obtain ⟨rfl, hf⟩ := kindOf_field h
  have hs' : (s.setPort 1 v).setOn = true := hs
  rw [step_write, hf, writeRegister_field, if_neg (by rw [hs']; decide)]
  refine ⟨put_other (reg_ne.2.1.symm), fun g => ?_, rfl, rfl⟩
  split
  · rename_i hg
    rw [hg]
    exact put_same _
  · rename_i hg
    exact put_other fun he => hg (Field.reg_inj he)

/-- What a write to a field does while SET is clear: the clock's date has that field replaced. -/
theorem step_field_off {o : HostClocks × ToyOp} (h : kindOf s o.2 = .field f v)
    (hs : s.setOn = false) (hr : InRange s.arcYearCompat (Lib.Calendar.ofSeconds (s.time o.1)))
    (h0 : 0 ≤ Lib.Calendar.seconds (setField (Lib.Calendar.ofSeconds (s.time o.1)) f
      (s.mode.decode s.arcYearCompat f (stored f v)))) :
    (s.step o).ram 0x0b = s.ram 0x0b ∧ (s.step o).arcYearCompat = s.arcYearCompat ∧
      (s.step o).time o.1 = Lib.Calendar.seconds (setField (Lib.Calendar.ofSeconds (s.time o.1)) f
        (s.mode.decode s.arcYearCompat f (stored f v))) := by
  obtain ⟨c, op⟩ := o
  obtain ⟨rfl, hf⟩ := kindOf_field h
  have hs' : (s.setPort 1 v).setOn = false := hs
  rw [step_write, hf, writeRegister_field, if_pos hs']
  extract_lets s1 s2
  have hsame : Same s s1 := same_setPort.trans (same_generateTime hs')
  have hb2 : s2.ram 0x0b = s.ram 0x0b := (put_other reg_ne.2.1.symm).trans hsame.control
  have hdate : (modeOf (s2.ram 0x0b)).date s2.arcYearCompat s2.ram =
      setField (Lib.Calendar.ofSeconds (s.time c)) f
        (s.mode.decode s.arcYearCompat f (stored f v)) := by
    refine tm_ext fun g => ?_
    rw [Mode.getField_date, getField_setField, hb2]
    split
    · rename_i hg
      rw [hg]
      exact congrArg _ (put_same s1.ram)
    · rename_i hg
      have hreg : s2.ram g.reg = s.mode.encode s.arcYearCompat g (Lib.Calendar.ofSeconds (s.time c)) :=
        (put_other fun he => hg (Field.reg_inj he)).trans (generateTime_reg hr)
      rw [hreg]
      exact Mode.decode_encode (Lib.Calendar.ofSeconds_valid _).1 hr g
  refine ⟨?_, ?_, ?_⟩
  · rw [setTime_frame.1, hb2]
  · rw [setTime_frame.2]
    exact hsame.arc
  · rw [setTime_time (by rw [hdate]; exact h0), hdate]

theorem selected_select : (s.setPort 0 v).selected = v &&& 0x7f := by
  show Function.update s.ports 0 v 0 &&& 0x7f = _
  rw [Function.update_self]

theorem selected_reg : (s.setPort 0 f.reg).selected = f.reg := by
  rw [selected_select]
  cases f <;> rfl

/-- A field reads as it is made. -/
theorem reading_reg (hs : s.setOn = false)
    (hr : InRange s.arcYearCompat (Lib.Calendar.ofSeconds (s.time c))) :
    s.reading c f.reg = s.mode.encode s.arcYearCompat f (Lib.Calendar.ofSeconds (s.time c)) := by
  have hlt : f.reg < 0x0e := by cases f <;> decide
  have hs' : (s.setPort 0 f.reg).setOn = false := hs
  show ((s.setPort 0 f.reg).registerLocked c (s.setPort 0 f.reg).selected).1 = _
  rw [selected_reg, registerLocked, if_pos hlt, if_neg reg_ne.2.2.1, hs']
  simp only [Bool.false_eq_true, if_false]
  have h0 : Same s { s.setPort 0 f.reg with ram := put (s.setPort 0 f.reg).ram 0x0d 0x80 } :=
    same_setPort.trans (same_put (by decide) fun g => reg_ne.2.2.2)
  have ht : ({ s.setPort 0 f.reg with ram := put (s.setPort 0 f.reg).ram 0x0d 0x80 } :
      Mc146818).mode = s.mode := congrArg modeOf h0.control
  rw [← ht]
  exact generateTime_reg hr

/-! ## Runs -/

variable {ops : List (HostClocks × ToyOp)}

/-- `P` holds of every access of a run, in the state before it. -/
def Along (P : Mc146818 → HostClocks × ToyOp → Prop) :
    Mc146818 → List (HostClocks × ToyOp) → Prop
  | _, [] => True
  | s, o :: ops => P s o ∧ Along P (s.step o) ops

/-- Register B is not written. -/
def KeepsControl (s : Mc146818) (o : HostClocks × ToyOp) : Prop := ∀ v, kindOf s o.2 ≠ .control v

/-- SET is not set and no field is written. -/
def Quiet (s : Mc146818) (o : HostClocks × ToyOp) : Prop :=
  match kindOf s o.2 with
  | .control v => v &&& 0x80 = 0
  | .field _ _ => False
  | .other => True

/-- The last byte that a run writes to a field. -/
def written : Mc146818 → List (HostClocks × ToyOp) → Field → Option (BitVec 8)
  | _, [], _ => none
  | s, o :: ops, f => (written (s.step o) ops f).or
      (match kindOf s o.2 with
      | .field g v => if g = f then some v else none
      | _ => none)

/-- While SET is on, the registers have what was written to them last. -/
theorem run_written (hs : s.setOn = true) (h : Along KeepsControl s ops) :
    (s.run ops).ram 0x0b = s.ram 0x0b ∧ (s.run ops).arcYearCompat = s.arcYearCompat ∧
      (s.run ops).offset = s.offset ∧
      ∀ f, (s.run ops).ram f.reg = ((written s ops f).map (stored f)).getD (s.ram f.reg) := by
  induction ops generalizing s with
  | nil => exact ⟨rfl, rfl, rfl, fun _ => rfl⟩
  | cons o ops ih =>
    obtain ⟨ho, h⟩ := h
    have hrun : s.run (o :: ops) = (s.step o).run ops := rfl
    rw [hrun]
    cases hk : kindOf s o.2 with
    | control v => exact absurd hk (ho v)
    | field g v =>
      obtain ⟨h1, h2, h3, h4⟩ := step_field_on hk hs
      obtain ⟨i1, i2, i3, i4⟩ := ih ((setOn_of h1).trans hs) h
      refine ⟨i1.trans h1, i2.trans h3, i3.trans h4, fun f => (i4 f).trans ?_⟩
      simp only [written, hk, h2]
      cases written (s.step o) ops f with
      | some w => rfl
      | none =>
        by_cases hg : g = f
        · subst hg
          simp
        · simp [hg, Ne.symm hg]
    | other =>
      have hsame := same_step hk
      obtain ⟨i1, i2, i3, i4⟩ := ih ((setOn_of hsame.control).trans hs) h
      refine ⟨i1.trans hsame.control, i2.trans hsame.arc, i3.trans hsame.offset, fun f => ?_⟩
      rw [i4 f, hsame.fields hs f]
      simp only [written, hk, Option.or_none]

theorem setOn_iff : s.setOn = true ↔ s.ram 0x0b &&& 0x80 ≠ 0 := decide_eq_true_iff

theorem setOn_false_iff : s.setOn = false ↔ s.ram 0x0b &&& 0x80 = 0 := by
  rw [← Bool.not_eq_true, setOn_iff, not_not]

/-- A run that sets nothing keeps the clock going. -/
theorem run_quiet (hs : s.setOn = false) (h : Along Quiet s ops) :
    (s.run ops).setOn = false ∧ (s.run ops).offset = s.offset ∧
      (s.run ops).arcYearCompat = s.arcYearCompat := by
  induction ops generalizing s with
  | nil => exact ⟨hs, rfl, rfl⟩
  | cons o ops ih =>
    obtain ⟨ho, h⟩ := h
    have hrun : s.run (o :: ops) = (s.step o).run ops := rfl
    rw [hrun]
    rw [Quiet] at ho
    cases hk : kindOf s o.2 with
    | control v =>
      rw [hk] at ho
      obtain ⟨h1, -, h3, h4⟩ := step_control hk
      rw [hs, if_neg (by simp)] at h4
      obtain ⟨i1, i2, i3⟩ := ih (setOn_false_iff.mpr (by rw [h1]; exact ho)) h
      exact ⟨i1, i2.trans h4, i3.trans h3⟩
    | field g v =>
      rw [hk] at ho
      exact absurd ho id
    | other =>
      have hsame := same_step hk
      obtain ⟨i1, i2, i3⟩ := ih ((setOn_of hsame.control).trans hs) h
      exact ⟨i1, i2.trans hsame.offset, i3.trans hsame.arc⟩

/-! ## Setting the clock -/

/-- What a setting of register B does. -/
theorem setting_control : (s.setting c 0x0b v).ram 0x0b = v ∧
    (∀ f : Field, (s.setting c 0x0b v).ram f.reg = s.ram f.reg) ∧
    (s.setting c 0x0b v).arcYearCompat = s.arcYearCompat ∧
    (s.setting c 0x0b v).offset = if s.setOn = true ∧ v &&& 0x80 = 0 then
      (s.setTimeFromRegisters c v).offset else s.offset := by
  have hk : kindOf (s.setPort 0 0x0b) (.write 1 v) = .control v := by
    rw [kindOf, if_pos rfl, selected_select]
    exact if_pos (by decide)
  obtain ⟨h1, h2, h3, h4⟩ := step_control (o := (c, .write 1 v)) hk
  refine ⟨h1, h2, h3, h4.trans ?_⟩
  have hc : ((s.setPort 0 0x0b).setTimeFromRegisters c v).offset =
      (s.setTimeFromRegisters c v).offset := setTime_congr rfl rfl fun _ => rfl
  rw [hc]
  rfl

theorem seconds_nonneg_of {arc : Bool} {t : Tm} (h : t.Valid) (hr : InRange arc t) :
    0 ≤ Lib.Calendar.seconds t := by
  refine Lib.Calendar.seconds_nonneg ?_ h.mon.1 h.mday.1 h.hour.1 h.min.1 h.sec.1
  cases arc with
  | true => exact Int.le_trans (by decide) (show 80 ≤ t.year from hr.1)
  | false => exact hr.1

/-- SET is cleared with the fields of a date in the registers. -/
theorem time_clear {d : Tm} (hs : s.setOn = true) (hv : v &&& 0x80 = 0)
    (h0 : 0 ≤ Lib.Calendar.seconds d) (hd : (modeOf v).date s.arcYearCompat s.ram = d) :
    (s.setting c 0x0b v).setOn = false ∧ (s.setting c 0x0b v).arcYearCompat = s.arcYearCompat ∧
      (s.setting c 0x0b v).time c = Lib.Calendar.seconds d := by
  obtain ⟨h1, -, h3, h4⟩ := @setting_control s c v
  refine ⟨setOn_false_iff.mpr (by rw [h1]; exact hv), h3, ?_⟩
  rw [if_pos ⟨hs, hv⟩] at h4
  rw [← hd, ← setTime_time (by rw [hd]; exact h0), time, time, h4]

theorem stored_encode {m : Mode} {arc : Bool} {d : Tm} (h : d.Valid) :
    stored f (m.encode arc f d) = m.encode arc f d := by
  unfold stored
  split
  · rename_i hf
    subst hf
    have hlow : ∀ (b h : Bool) (n : Fin 60),
        Mode.code ⟨b, h⟩ n.val &&& 0x7f = Mode.code ⟨b, h⟩ n.val := by decide +kernel
    obtain ⟨n, hn⟩ := Int.eq_ofNat_of_zero_le h.sec.1
    have hlt := h.sec.2
    rw [Mode.encode, hn]
    exact hlow m.binary m.h24 ⟨n, by omega⟩
  · rfl

/-- The clock's date goes on with the host's seconds. -/
theorem clock_set_all {b : BitVec 8} {quiet : List (HostClocks × ToyOp)} {c0 c1 : HostClocks} {d : Tm}
    {k : Nat} (hs : s.setOn = true) (hops : Along KeepsControl s ops) (hb : b &&& 0x80 = 0)
    (hd : d.Valid) (hr : InRange s.arcYearCompat d)
    (hw : ∀ f, written s ops f = some ((modeOf b).encode s.arcYearCompat f d))
    (hq : Along Quiet ((s.run ops).setting c0 0x0b b) quiet)
    (hk : hostSeconds c1.real = hostSeconds c0.real + k)
    (hr' : InRange s.arcYearCompat (Lib.Calendar.ofSeconds (Lib.Calendar.seconds d + k))) :
    (((s.run ops).setting c0 0x0b b).run quiet).reading c1 f.reg =
      (((s.run ops).setting c0 0x0b b).run quiet).mode.encode s.arcYearCompat f
        (Lib.Calendar.ofSeconds (Lib.Calendar.seconds d + k)) := by
  obtain ⟨w1, w2, -, w4⟩ := run_written hs hops
  have hdate : (modeOf b).date (s.run ops).arcYearCompat (s.run ops).ram = d :=
    tm_ext fun g => by
      rw [Mode.getField_date, w4, hw, w2, Option.map_some, Option.getD_some, stored_encode hd]
      exact Mode.decode_encode hd hr g
  obtain ⟨z1, z2, z3⟩ := @time_clear (s.run ops) c0 b d ((setOn_of w1).trans hs) hb
    (seconds_nonneg_of hd hr) hdate
  obtain ⟨q1, q2, q3⟩ := run_quiet z1 hq
  have harc : (((s.run ops).setting c0 0x0b b).run quiet).arcYearCompat = s.arcYearCompat :=
    q3.trans (z2.trans w2)
  have htime : (((s.run ops).setting c0 0x0b b).run quiet).time c1 =
      Lib.Calendar.seconds d + k := by
    rw [time, q2, hk, ← z3, time]
    omega
  rw [← htime, ← harc] at hr' ⊢
  exact reading_reg q1 hr'

end Mc146818

end Alphabox.Isa
