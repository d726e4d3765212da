import Alphabox.Lib.Numerals
import Mathlib.Algebra.Order.Group.Int
import Mathlib.Data.Int.ConditionallyCompleteOrder
import Mathlib.Data.Int.SuccPred
import Mathlib.Order.SuccPred.IntervalSucc
import Mathlib.Tactic.IntervalCases
import Mathlib.Data.Nat.Find

/-!
# The calendar

Days and seconds since the start of 1970, and the date of each (Gregorian). `seconds` takes any
numbers for the fields of a date, as the C library's `timegm` does, and counts on from where the
calendar ends; `ofSeconds` is `gmtime`. On dates of the calendar they are inverse.
-/

namespace Lib.Calendar

/-! ## Years -/

def isLeap (y : Int) : Bool := y % 4 == 0 && (y % 100 != 0 || y % 400 == 0)

/-- The days from the start of 1970 to the start of the year `y`. -/
def yearStart (y : Int) : Int :=
  365 * (y - 1970) + (y - 1) / 4 - (y - 1) / 100 + (y - 1) / 400 - 477

def yearLength (y : Int) : Int := if isLeap y then 366 else 365

/-- The year that the day `n` is in: the one that an even pace gives, or one next to it. -/
def yearOf (n : Int) : Int :=
  let y := 1970 + 400 * n / 146097
  if n < yearStart y then y - 1 else if yearStart (y + 1) ≤ n then y + 1 else y

theorem yearStart_succ (y : Int) : yearStart (y + 1) = yearStart y + yearLength y := by
  unfold yearStart yearLength
  split
  · rename_i h
    simp only [isLeap, Bool.and_eq_true, Bool.or_eq_true, beq_iff_eq, bne_iff_ne] at h
    omega
  · rename_i h
    simp only [isLeap, Bool.and_eq_true, Bool.or_eq_true, beq_iff_eq, bne_iff_ne] at h
    omega

theorem yearStart_lt_succ (y : Int) : yearStart y < yearStart (y + 1) := by
  rw [yearStart_succ, yearLength]
  split <;> omega

theorem yearStart_strictMono : StrictMono yearStart := strictMono_int_of_lt_succ yearStart_lt_succ

theorem yearOf_spec (n : Int) : yearStart (yearOf n) ≤ n ∧ n < yearStart (yearOf n + 1) := by
  unfold yearOf
  simp only
  split
  · rename_i h
    rw [Int.sub_add_cancel]
    refine ⟨?_, h⟩
    unfold yearStart
    omega
  split
  · rename_i h
    refine ⟨h, ?_⟩
    unfold yearStart
    omega
  · omega

theorem yearOf_eq {y n : Int} (h1 : yearStart y ≤ n) (h2 : n < yearStart (y + 1)) :
    yearOf n = y := by
  obtain ⟨h3, h4⟩ := yearOf_spec n
  have hlt := yearStart_strictMono.lt_iff_lt.mp (Int.lt_of_le_of_lt h1 h4)
  have hgt := yearStart_strictMono.lt_iff_lt.mp (Int.lt_of_le_of_lt h3 h2)
  omega

/-! ## Months -/

/-- The days of a year before the month `m`, January being month 0. -/
def monthStart (leap : Bool) (m : Nat) : Nat :=
  [0, 31, 59, 90, 120, 151, 181, 212, 243, 273, 304, 334].getD m 365 +
    if leap && decide (2 ≤ m) then 1 else 0

def monthLength (leap : Bool) (m : Nat) : Nat := monthStart leap (m + 1) - monthStart leap m

/-- The month that the day `d` of a year is in: the last one that has started. -/
def monthOf (leap : Bool) (d : Nat) : Nat := Nat.findGreatest (fun m => monthStart leap m ≤ d) 11

theorem monthStart_zero (leap : Bool) : monthStart leap 0 = 0 := by cases leap <;> rfl

theorem monthStart_lt_succ (leap : Bool) {m : Nat} (hm : m < 12) :
    monthStart leap m < monthStart leap (m + 1) := by
  cases leap <;> interval_cases m <;> decide

theorem one_le_monthLength (leap : Bool) {m : Nat} (hm : m < 12) : 1 ≤ monthLength leap m := by
  have := monthStart_lt_succ leap hm
  unfold monthLength
  omega

theorem monthStart_le (leap : Bool) {m n : Nat} (h : m ≤ n) (hn : n ≤ 12) :
    monthStart leap m ≤ monthStart leap n := by
  induction n, h using Nat.le_induction with
  | base => exact Nat.le_refl _
  | succ n _ ih => exact Nat.le_trans (ih (by omega)) (Nat.le_of_lt (monthStart_lt_succ leap hn))

theorem monthOf_eq {leap : Bool} {m d : Nat} (hm : m < 12) (h1 : monthStart leap m ≤ d)
    (h2 : d < monthStart leap (m + 1)) : monthOf leap d = m := by
  refine Nat.findGreatest_eq_iff.mpr ⟨by omega, fun _ => h1, fun n hn hle h => ?_⟩
  have := monthStart_le leap (show m + 1 ≤ n from hn) (by omega)
  omega

theorem monthOf_spec {leap : Bool} {d : Nat} (hd : d < monthStart leap 12) :
    monthOf leap d < 12 ∧ monthStart leap (monthOf leap d) ≤ d ∧
      d < monthStart leap (monthOf leap d + 1) := by
  have hle : monthOf leap d ≤ 11 := Nat.findGreatest_le 11
  have hst : monthStart leap (monthOf leap d) ≤ d :=
    @Nat.findGreatest_spec 0 (fun m => monthStart leap m ≤ d) _ 11 (Nat.zero_le _)
      (by rw [monthStart_zero]; exact Nat.zero_le _)
  refine ⟨by omega, hst, Nat.lt_of_not_le fun hc => ?_⟩
  by_cases h11 : monthOf leap d + 1 ≤ 11
  · exact Nat.findGreatest_is_greatest (Nat.lt_succ_self _) h11 hc
  · rw [show monthOf leap d + 1 = 12 by omega] at hc
    omega

/-! ## Dates -/

/-- A date and a time of day, as the C library's `tm` has them: January is month 0, and years are
counted from 1900. -/
@[ext]
structure Tm where
  sec : Int
  min : Int
  hour : Int
  mday : Int
  mon : Int
  year : Int
  deriving DecidableEq

namespace Tm

def leap (t : Tm) : Bool := isLeap (t.year + 1900)

/-- A date of the calendar. -/
structure Valid (t : Tm) : Prop where
  sec : 0 ≤ t.sec ∧ t.sec < 60
  min : 0 ≤ t.min ∧ t.min < 60
  hour : 0 ≤ t.hour ∧ t.hour < 24
  mon : 0 ≤ t.mon ∧ t.mon < 12
  mday : 1 ≤ t.mday ∧ t.mday ≤ monthLength t.leap t.mon.toNat

instance (t : Tm) : Decidable t.Valid :=
  decidable_of_iff ((0 ≤ t.sec ∧ t.sec < 60) ∧ (0 ≤ t.min ∧ t.min < 60) ∧
    (0 ≤ t.hour ∧ t.hour < 24) ∧ (0 ≤ t.mon ∧ t.mon < 12) ∧
    (1 ≤ t.mday ∧ t.mday ≤ monthLength t.leap t.mon.toNat))
    ⟨fun ⟨h1, h2, h3, h4, h5⟩ => ⟨h1, h2, h3, h4, h5⟩, fun ⟨h1, h2, h3, h4, h5⟩ =>
      ⟨h1, h2, h3, h4, h5⟩⟩

end Tm

/-- The days from the start of 1970 to the start of a month, which may be outside its year. -/
def monthDay (year mon : Int) : Int :=
  yearStart (year + mon / 12) + monthStart (isLeap (year + mon / 12)) (mon % 12).toNat

/-- `timegm`. -/
def seconds (t : Tm) : Int :=
  (monthDay (t.year + 1900) t.mon + t.mday - 1) * 86400 + t.hour * 3600 + t.min * 60 + t.sec

/-- `gmtime`. -/
def ofSeconds (s : Int) : Tm :=
  let n := s / 86400
  let r := s % 86400
  let y := yearOf n
  let d := (n - yearStart y).toNat
  let m := monthOf (isLeap y) d
  ⟨r % 60, r / 60 % 60, r / 3600, d - monthStart (isLeap y) m + 1, m, y - 1900⟩

/-- The day of the week, Sunday being day 0. -/
def weekday (s : Int) : Int := (s / 86400 + 4) % 7

theorem monthStart_twelve (y : Int) : (monthStart (isLeap y) 12 : Int) = yearLength y := by
  rw [yearLength]
  cases isLeap y <;> rfl

theorem monthDay_eq {year mon : Int} (h0 : 0 ≤ mon) (h : mon < 12) :
    monthDay year mon = yearStart year + monthStart (isLeap year) mon.toNat := by
  rw [monthDay, Int.ediv_eq_zero_of_lt h0 h, Int.emod_eq_of_lt h0 h, Int.add_zero]

theorem ofSeconds_seconds {t : Tm} (h : t.Valid) : ofSeconds (seconds t) = t := by
  obtain ⟨⟨hs0, hs⟩, ⟨hm0, hm⟩, ⟨hh0, hh⟩, ⟨hmon0, hmon⟩, hd1, hd⟩ := h
  have hmn : t.mon.toNat < 12 := by omega
  have hlt := monthStart_lt_succ t.leap hmn
  have hle := monthStart_le t.leap (show t.mon.toNat + 1 ≤ 12 by omega) (Nat.le_refl _)
  have hy := yearStart_succ (t.year + 1900)
  have h12 := monthStart_twelve (t.year + 1900)
  have hday : seconds t / 86400 = yearStart (t.year + 1900) + monthStart t.leap t.mon.toNat +
      (t.mday - 1) := by
    rw [seconds, monthDay_eq hmon0 hmon, Tm.leap]
    omega
  have hrest : seconds t % 86400 = t.hour * 3600 + t.min * 60 + t.sec := by
    rw [seconds]
    omega
  rw [monthLength] at hd
  change (monthStart t.leap 12 : Int) = _ at h12
  have hyear : yearOf (seconds t / 86400) = t.year + 1900 := by
    rw [hday]
    exact yearOf_eq (by omega) (by omega)
  have hdn : (seconds t / 86400 - yearStart (t.year + 1900)).toNat =
      monthStart t.leap t.mon.toNat + (t.mday - 1).toNat := by
    rw [hday]
    omega
  have hmonth : monthOf t.leap (monthStart t.leap t.mon.toNat + (t.mday - 1).toNat) =
      t.mon.toNat := monthOf_eq hmn (by omega) (by omega)
  have hl : isLeap (t.year + 1900) = t.leap := rfl
  simp only [ofSeconds, hyear, hdn, hl, hmonth, hrest]
  apply Tm.ext <;> dsimp only <;> omega

theorem ofSeconds_valid (s : Int) : (ofSeconds s).Valid ∧ seconds (ofSeconds s) = s := by
  obtain ⟨h1, h2⟩ := yearOf_spec (s / 86400)
  have hy := yearStart_succ (yearOf (s / 86400))
  have h12 := monthStart_twelve (yearOf (s / 86400))
  have hd : ((s / 86400 - yearStart (yearOf (s / 86400))).toNat : Int) =
      s / 86400 - yearStart (yearOf (s / 86400)) := Int.toNat_of_nonneg (by omega)
  have hdl : (s / 86400 - yearStart (yearOf (s / 86400))).toNat <
      monthStart (isLeap (yearOf (s / 86400))) 12 := by omega
  obtain ⟨hm, hst, hend⟩ := monthOf_spec hdl
  simp only [ofSeconds, seconds]
  generalize (s / 86400 - yearStart (yearOf (s / 86400))).toNat = d at *
  generalize monthOf (isLeap (yearOf (s / 86400))) d = m at *
  have hl : isLeap (yearOf (s / 86400) - 1900 + 1900) = isLeap (yearOf (s / 86400)) := by
    rw [Int.sub_add_cancel]
  refine ⟨⟨by dsimp only; omega, by dsimp only; omega, by dsimp only; omega,
    by dsimp only; omega, ?_⟩, ?_⟩
  · simp only [Tm.leap, hl, Int.toNat_natCast, monthLength]
    omega
  · rw [monthDay_eq (by omega) (by omega), hl, Int.sub_add_cancel, Int.toNat_natCast]
    omega

/-! ## Months outside a year -/

theorem monthDay_lt_succ (year mon : Int) : monthDay year mon < monthDay year (mon + 1) := by
  unfold monthDay
  by_cases h : mon % 12 = 11
  · have hd : (mon + 1) / 12 = mon / 12 + 1 := by omega
    have hm : (mon + 1) % 12 = 0 := by omega
    have h12 := monthStart_twelve (year + mon / 12)
    have hlt : monthStart (isLeap (year + mon / 12)) 11 < monthStart (isLeap (year + mon / 12)) 12 :=
      monthStart_lt_succ _ (by decide)
    have hy := yearStart_succ (year + mon / 12)
    have h0 := monthStart_zero (isLeap (year + mon / 12 + 1))
    rw [hd, hm, h, ← Int.add_assoc]
    simp only [Int.toNat_zero, h0, show (11 : Int).toNat = 11 from rfl]
    omega
  · have hd : (mon + 1) / 12 = mon / 12 := by omega
    have hm : ((mon + 1) % 12).toNat = (mon % 12).toNat + 1 := by omega
    have hlt := monthStart_lt_succ (isLeap (year + mon / 12)) (show (mon % 12).toNat < 12 by omega)
    rw [hd, hm]
    omega

theorem monthDay_strictMono (year : Int) : StrictMono (monthDay year) :=
  strictMono_int_of_lt_succ (monthDay_lt_succ year)

theorem yearStart_nonneg {y : Int} (h : 1970 ≤ y) : 0 ≤ yearStart y :=
  yearStart_strictMono.le_iff_le.mpr h

/-- From 1970 on, seconds are not negative. -/
theorem seconds_nonneg {t : Tm} (hy : 70 ≤ t.year) (hm : 0 ≤ t.mon) (hd : 1 ≤ t.mday)
    (hh : 0 ≤ t.hour) (hn : 0 ≤ t.min) (hs : 0 ≤ t.sec) : 0 ≤ seconds t := by
  have h1 : 0 ≤ monthDay (t.year + 1900) t.mon := by
    have := yearStart_nonneg (show 1970 ≤ t.year + 1900 + t.mon / 12 by omega)
    unfold monthDay
    omega
  unfold seconds
  omega

end Lib.Calendar
