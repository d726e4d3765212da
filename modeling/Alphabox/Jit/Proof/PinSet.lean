import Alphabox.Jit.PinSet
import Alphabox.Lib.TopSum
import Mathlib.Data.List.Perm.Basic

/-!
# The pins are sound in every run

Whatever blocks the dispatcher enters, the set that compiled code uses has distinct registers, none
of them R31 or in the shadow bank, so it is one of `Pins`; every compiled body alive was compiled
for it; and `pin_decide` stages a set that covers as much as any could, with counts that stay far
below 2^64.
-/

namespace Alphabox.Jit

open Fp Cpu

variable {s : PinState} {use : GReg → Nat} {g : List (Option GReg)} {w : Ins} {r : GReg}

/-- A set of pins: a slot each, no register twice, none that cannot be pinned. -/
structure PinSet (g : List (Option GReg)) : Prop where
  slots : g.length = kPinSlots
  distinct : g.Pairwise fun a b => a = none ∨ a ≠ b
  regs : ∀ r, some r ∈ g → r ≠ 31 ∧ shadowReg r = false

/-- It is one that code can be compiled for. -/
def PinSet.pins (hg : PinSet g) : Pins :=
  ⟨g, hg.slots, hg.distinct, fun h31 => (hg.regs 31 h31).1 rfl⟩

theorem pinDefaults_set : PinSet pinDefaults := by
  refine ⟨by decide, by decide, fun r hr => ?_⟩
  revert r
  decide

/-! ## The order -/

theorem pinRegs_nodup : pinRegs.Nodup := by decide

theorem mem_pinRegs : ∀ r : GReg, r ∈ pinRegs ↔ r ≠ 31 := by decide

/-- The sorted registers that may be pinned. -/
def hotRegs (use : GReg → Nat) : List GReg :=
  (pinRegs.mergeSort fun x y => decide (use y ≤ use x)).filter (!shadowReg ·)

theorem mem_hotRegs : r ∈ hotRegs use ↔ r ≠ 31 ∧ shadowReg r = false := by
  unfold hotRegs
  rw [List.mem_filter, List.mem_mergeSort, mem_pinRegs, Bool.not_eq_true']

theorem hotRegs_nodup : (hotRegs use).Nodup :=
  ((List.mergeSort_perm pinRegs _).nodup_iff.2 pinRegs_nodup).filter _

theorem hotRegs_length : (hotRegs use).length = 23 := by
  have hperm : (hotRegs use).Perm (pinRegs.filter (!shadowReg ·)) :=
    (List.mergeSort_perm pinRegs _).filter _
  rw [hperm.length_eq]
  decide

/-- The hottest come first. -/
theorem hotRegs_sorted : (hotRegs use).Pairwise fun a b => use b ≤ use a := by
  have h : (pinRegs.mergeSort fun x y => decide (use y ≤ use x)).Pairwise
      fun a b => decide (use b ≤ use a) = true := by
    refine List.pairwise_mergeSort (fun a b c hab hbc => ?_) (fun a b => ?_) pinRegs
    · rw [decide_eq_true_iff] at *
      exact Nat.le_trans hbc hab
    · rw [Bool.or_eq_true, decide_eq_true_iff, decide_eq_true_iff]
      exact Nat.le_total _ _
  exact (h.imp fun hab => of_decide_eq_true hab).filter _

/-- The first sixteen are the hottest of those that may be pinned. -/
theorem pinOrder_take : (pinOrder use).take kPinSlots = (hotRegs use).take kPinSlots := by
  refine List.take_append_of_le_length ?_
  change kPinSlots ≤ (hotRegs use).length
  rw [hotRegs_length]
  decide

/-! ## Sets -/

theorem filterMap_nodup (hd : g.Pairwise fun a b => a = none ∨ a ≠ b) :
    (g.filterMap id).Nodup := by
  induction g with
  | nil => exact List.nodup_nil
  | cons a g ih =>
    have ha {b : Option GReg} (hb : b ∈ g) := List.rel_of_pairwise_cons hd hb
    have hg := ih (List.Pairwise.of_cons hd)
    cases a with
    | none => exact hg
    | some r =>
      refine List.nodup_cons.2 ⟨fun hr => ?_, hg⟩
      obtain ⟨b, hb, he⟩ := List.mem_filterMap.1 hr
      rcases ha hb with hn | hne
      · cases hn
      · exact hne he.symm

/-- No set covers more than the hottest sixteen do. -/
theorem covered_le (hg : PinSet g) : covered use g ≤ pinBest use := by
  unfold covered pinBest
  rw [pinOrder_take]
  refine Lib.sum_le_take hotRegs_sorted (filterMap_nodup hg.distinct) (fun r hr => ?_) ?_
  · obtain ⟨a, ha, he⟩ := List.mem_filterMap.1 hr
    rw [show a = some r from he] at ha
    exact mem_hotRegs.2 (hg.regs r ha)
  · exact (List.length_filterMap_le id g).trans hg.slots.le

/-- The set that `pin_decide` stages. -/
theorem pinNext_set : PinSet (pinNext use) := by
  unfold pinNext
  rw [pinOrder_take]
  have hmem {r : GReg} {a : Option GReg} (ha : a ∈ ((hotRegs use).take kPinSlots).map fun r =>
      if use r ≠ 0 then some r else none) (he : a = some r) : r ∈ hotRegs use := by
    obtain ⟨q, hq, hqa⟩ := List.mem_map.1 ha
    rw [he] at hqa
    split at hqa
    · cases hqa
      exact List.mem_of_mem_take hq
    · cases hqa
  refine ⟨?_, ?_, fun r hr => mem_hotRegs.1 (hmem hr rfl)⟩
  · rw [List.length_map, List.length_take, hotRegs_length]
    decide
  · refine List.pairwise_map.2 ((List.Pairwise.take hotRegs_nodup).imp fun {a b} hab => ?_)
    by_cases ha : use a ≠ 0
    · rw [if_pos ha]
      refine Or.inr fun he => ?_
      split at he
      · exact hab (Option.some.inj he)
      · cases he
    · exact Or.inl (if_neg ha)

/-- It covers what the hottest sixteen do: those left out were not used. -/
theorem covered_pinNext : covered use (pinNext use) = pinBest use := by
  unfold covered pinNext pinBest
  generalize (pinOrder use).take kPinSlots = l
  induction l with
  | nil => rfl
  | cons r l ih =>
    rw [List.map_cons, List.map_cons, List.sum_cons, ← ih]
    by_cases hr : use r ≠ 0
    · rw [if_pos hr]
      rfl
    · rw [if_neg hr, not_not.1 hr, Nat.zero_add]
      rfl

/-! ## Counts -/

/-- The most that one sample counts of a register. -/
def sampleMax : Nat := 3 * 2 ^ 32

theorem pinCount_length (w : Ins) (pal : Bool) : (pinCount w pal).length ≤ 3 := by
  unfold pinCount
  refine (List.length_filter_le _ _).trans ?_
  repeat' split
  all_goals simp

theorem named_length (words : List Ins) (pal : Bool) :
    (words.flatMap fun w => pinCount w pal).length ≤ 3 * words.length := by
  induction words with
  | nil => exact Nat.le_refl 0
  | cons w words ih =>
    have h := pinCount_length w pal
    rw [List.flatMap_cons, List.length_append, List.length_cons]
    omega

theorem named_count {words : List Ins} (fits : words.length < 2 ^ 32) (pal : Bool) (r : GReg) :
    (words.flatMap fun w => pinCount w pal).count r ≤ sampleMax := by
  have h := (List.count_le_length (a := r)).trans (named_length words pal)
  unfold sampleMax
  omega

/-! ## Runs -/

/-- What holds between the dispatcher's steps. -/
structure PinInv (s : PinState) : Prop where
  guest : PinSet s.guest
  next : s.staged = true → PinSet s.next
  bodies : ∀ g ∈ s.bodies, g = s.guest
  use_le : ∀ r, s.use r ≤ sampleMax * (kPinWindow + s.samples) + 1
  samples : s.samples < kPinWindow
  countdown : 0 < s.countdown

theorem kPinWindow_pos : 0 < kPinWindow := by decide

theorem kPinEvery_pos : 0 < kPinEvery := by decide

theorem pinInv_start : PinInv PinState.start where
  guest := pinDefaults_set
  next := fun h => by cases h
  bodies := fun g hg => absurd hg List.not_mem_nil
  use_le := fun _ => Nat.zero_le _
  samples := kPinWindow_pos
  countdown := kPinEvery_pos

/-- A decision at the end of a window. -/
theorem pinInv_decide (hguest : PinSet s.guest) (hnext : s.staged = true → PinSet s.next)
    (hbodies : ∀ g ∈ s.bodies, g = s.guest)
    (huse : ∀ r, s.use r ≤ sampleMax * (kPinWindow + kPinWindow) + 1) (hcount : 0 < s.countdown) :
    PinInv s.pinDecide := by
  have hhalf (r : GReg) : s.use r - s.use r / 2 ≤ sampleMax * (kPinWindow + 0) + 1 := by
    have h := huse r
    rw [Nat.mul_add] at h
    rw [Nat.add_zero]
    generalize sampleMax * kPinWindow = A at h ⊢
    omega
  unfold PinState.pinDecide
  dsimp only
  split
  · exact ⟨hguest, fun _ => pinNext_set, hbodies, hhalf, kPinWindow_pos, hcount⟩
  · exact ⟨hguest, hnext, hbodies, hhalf, kPinWindow_pos, hcount⟩

theorem pinInv_enter (hs : PinInv s) (tag : Word) {words : List Ins}
    (fits : words.length < 2 ^ 32) : PinInv (s.pinSample tag words) := by
  have huse (r : GReg) :
      s.use r + (words.flatMap fun w => pinCount w (tag.getLsbD 0)).count r ≤
        sampleMax * (kPinWindow + (s.samples + 1)) + 1 := by
    have h := hs.use_le r
    have hc := named_count fits (tag.getLsbD 0) r
    rw [← Nat.add_assoc, Nat.mul_succ]
    omega
  unfold PinState.pinSample
  dsimp only
  by_cases h0 : s.countdown - 1 = 0
  · rw [if_pos h0]
    unfold PinState.pinSampleSlow
    dsimp only
    by_cases hw : kPinWindow ≤ s.samples + 1
    · rw [if_pos hw]
      have he : s.samples + 1 = kPinWindow := Nat.le_antisymm hs.samples hw
      rw [he] at huse
      exact pinInv_decide hs.guest hs.next hs.bodies huse kPinEvery_pos
    · rw [if_neg hw]
      exact ⟨hs.guest, hs.next, hs.bodies, huse, Nat.lt_of_not_le hw, kPinEvery_pos⟩
  · rw [if_neg h0]
    exact ⟨hs.guest, hs.next, hs.bodies, hs.use_le, hs.samples, Nat.pos_of_ne_zero h0⟩

/-- A reclaim frees all code before another set is the one to compile for. -/
theorem pinInv_reclaim (hs : PinInv s) : PinInv s.reclaimIfPending := by
  have hno (g : List (Option GReg)) (g' : List (Option GReg)) (hg : g ∈ []) : g = g' :=
    absurd hg List.not_mem_nil
  unfold PinState.reclaimIfPending
  split
  · unfold PinState.reclaimCode
    dsimp only
    split
    · rename_i hstaged
      exact ⟨hs.next hstaged, fun h => absurd h Bool.false_ne_true, fun g => hno g _, hs.use_le,
        hs.samples, hs.countdown⟩
    · exact ⟨hs.guest, hs.next, fun g => hno g _, hs.use_le, hs.samples, hs.countdown⟩
  · exact hs

theorem pinInv_step (hs : PinInv s) (e : PinEvent) : PinInv (s.step e) := by
  cases e with
  | enter tag words fits => exact pinInv_enter hs tag fits
  | compile =>
    refine ⟨hs.guest, hs.next, fun g hg => ?_, hs.use_le, hs.samples, hs.countdown⟩
    rcases List.mem_cons.1 hg with rfl | hg
    · rfl
    · exact hs.bodies g hg
  | request => exact ⟨hs.guest, hs.next, hs.bodies, hs.use_le, hs.samples, hs.countdown⟩
  | reclaim => exact pinInv_reclaim hs

theorem pinInv_run (events : List PinEvent) : PinInv (pinRun events) := by
  unfold pinRun
  generalize hs : PinState.start = s
  have hinv : PinInv s := hs ▸ pinInv_start
  clear hs
  induction events generalizing s with
  | nil => exact hinv
  | cons e events ih => exact ih _ (pinInv_step hinv e)

/-- The counts' total, in hundredths as the decision compares it, stays in a word. -/
theorem PinInv.total_lt (hs : PinInv s) : pinTotal s.use * 100 < 2 ^ 64 := by
  have hle (l : List GReg) : (l.map s.use).sum ≤
      (sampleMax * (kPinWindow + kPinWindow) + 1) * l.length := by
    induction l with
    | nil => exact Nat.zero_le _
    | cons r l ih =>
      have hr : s.use r ≤ sampleMax * (kPinWindow + kPinWindow) + 1 :=
        (hs.use_le r).trans (Nat.add_le_add_right
          (Nat.mul_le_mul_left _ (Nat.add_le_add_left hs.samples.le _)) 1)
      rw [List.map_cons, List.sum_cons, List.length_cons, Nat.mul_succ]
      omega
  have h := hle pinRegs
  have hlen : pinRegs.length = 31 := by decide
  rw [hlen] at h
  unfold pinTotal
  unfold sampleMax kPinWindow at h
  omega

/-- In every run: compiled code's pins are a set it can be compiled for, all code alive was compiled
for them, none is in the shadow bank, no set covers more of what was counted than the one
`pin_decide` would stage, and its sums stay in a word. -/
theorem pins_run (events : List PinEvent) :
    (∃ pins : Pins, pins.guest = (pinRun events).guest) ∧
    (∀ g ∈ (pinRun events).bodies, g = (pinRun events).guest) ∧
    (∀ r, some r ∈ (pinRun events).guest → shadowReg r = false) ∧
    (∀ g, PinSet g →
      covered (pinRun events).use g ≤ covered (pinRun events).use (pinNext (pinRun events).use)) ∧
    covered (pinRun events).use (pinRun events).guest ≤ pinBest (pinRun events).use ∧
    pinTotal (pinRun events).use * 100 < 2 ^ 64 := by
  have hinv := pinInv_run events
  refine ⟨⟨hinv.guest.pins, rfl⟩, hinv.bodies, fun r hr => (hinv.guest.regs r hr).2,
    fun g hg => ?_, covered_le hinv.guest, hinv.total_lt⟩
  rw [covered_pinNext]
  exact covered_le hg

end Alphabox.Jit
