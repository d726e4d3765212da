import Mathlib.Data.List.Induction
import Mathlib.Tactic.SplitIfs
import Alphabox.Platform.Flash

/-!
# The firmware flash: its parts

A step of the device is a step of the part that it reaches (`part_step`), so the parts go their own
ways; a part's state says how its writes so far end (`Trail`), so that only complete commands change
bytes.
-/

namespace Alphabox.Platform

/-! ## Places -/

theorem place_inj {p a : Nat} {x : Fin CHIP_SIZE} :
    place p x = a ↔ p = a / CHIP_SIZE ∧ x = offsetOf a := by
  have := x.isLt
  rw [Fin.ext_iff]
  unfold place offsetOf CHIP_SIZE at *
  dsimp only
  omega

theorem place_lt {chips p : Nat} (hp : p < chips) (x : Fin CHIP_SIZE) :
    place p x < CHIP_SIZE * chips := by
  have := x.isLt
  unfold place
  calc CHIP_SIZE * p + x.val < CHIP_SIZE * p + CHIP_SIZE := by omega
    _ = CHIP_SIZE * (p + 1) := by rw [Nat.mul_succ]
    _ ≤ CHIP_SIZE * chips := Nat.mul_le_mul_left _ hp

theorem offset_mod (a : Nat) : (offsetOf a).val % 0x800 = a % 0x800 := by
  unfold offsetOf CHIP_SIZE
  dsimp only
  omega

theorem mem_sector {p a : Nat} {x : Fin CHIP_SIZE} :
    (a - a % 0x10000 ≤ place p x ∧ place p x < a - a % 0x10000 + 0x10000) ↔
      p = a / CHIP_SIZE ∧ x.val / 0x10000 = (offsetOf a).val / 0x10000 := by
  have := x.isLt
  unfold place offsetOf CHIP_SIZE at *
  dsimp only
  omega

theorem mem_chip {p a : Nat} {x : Fin CHIP_SIZE} :
    (CHIP_SIZE * (a / CHIP_SIZE) ≤ place p x ∧
      place p x < CHIP_SIZE * (a / CHIP_SIZE) + CHIP_SIZE) ↔ p = a / CHIP_SIZE := by
  have := x.isLt
  unfold place CHIP_SIZE at *
  omega

/-! ## A step of the device and its parts -/

namespace CFlash

variable (s : CFlash)

theorem cycle_eq (a : Nat) (byte : BitVec 8) (at' : Nat) {with' : BitVec 8}
    (hf : with' ≠ 0xf0 ∧ with' ≠ 0xff) (m : FlashMode) : s.cycle a byte at' with' m =
      s.setMode a (if a % 0x800 = at' ∧ byte = with' then m else .read) := by
  unfold cycle
  by_cases habort : byte = 0xf0 ∨ byte = 0xff
  · have hne : ¬ (a % 0x800 = at' ∧ byte = with') := by
      intro h
      obtain habort | habort := habort
      · exact hf.1 (h.2.symm.trans habort)
      · exact hf.2 (h.2.symm.trans habort)
    rw [if_pos habort, if_neg hne]
  · rw [if_neg habort]
    split_ifs <;> rfl

/-- What a write that reaches a part does: the part's mode, its bytes, and the flag. -/
structure Wrote (s s' : CFlash) (a : Nat) (byte : BitVec 8) : Prop where
  chips : s'.chips = s.chips
  mode : s'.mode = Function.update s.mode (a / CHIP_SIZE)
    (FlashPart.next ⟨offsetOf a, byte⟩ (s.mode (a / CHIP_SIZE)))
  flash : ∀ p x, s'.flash (place p x) =
    if p = a / CHIP_SIZE then
      FlashPart.change ⟨offsetOf a, byte⟩ (s.part p).bytes (s.mode p) x
    else s.flash (place p x)
  dirty : s'.dirty = true ∨ s'.dirty = s.dirty ∧ s'.flash = s.flash

variable {s}

/-- A write that only leads to another mode. -/
theorem wrote_setMode {a : Nat} {byte : BitVec 8} {m : FlashMode}
    (hm : FlashPart.next ⟨offsetOf a, byte⟩ (s.mode (a / CHIP_SIZE)) = m)
    (hc : FlashPart.change ⟨offsetOf a, byte⟩ (s.part (a / CHIP_SIZE)).bytes
      (s.mode (a / CHIP_SIZE)) = (s.part (a / CHIP_SIZE)).bytes) :
    Wrote s (s.setMode a m) a byte := by
  refine ⟨rfl, by rw [← hm]; rfl, fun p x => ?_, .inr ⟨rfl, rfl⟩⟩
  split
  · rename_i hp
    subst hp
    rw [hc]
    rfl
  · rfl

/-- An erase of what `inside` says. -/
theorem wrote_erase {a start n : Nat} {byte : BitVec 8} {m : FlashMode}
    (hm : FlashPart.next ⟨offsetOf a, byte⟩ (s.mode (a / CHIP_SIZE)) = m)
    (inside : Fin CHIP_SIZE → Prop) [DecidablePred inside]
    (hplace : ∀ p x, (start ≤ place p x ∧ place p x < start + n) ↔ p = a / CHIP_SIZE ∧ inside x)
    (hc : ∀ x, FlashPart.change ⟨offsetOf a, byte⟩ (s.part (a / CHIP_SIZE)).bytes
      (s.mode (a / CHIP_SIZE)) x = if inside x then 0xff else (s.part (a / CHIP_SIZE)).bytes x) :
    Wrote s ((s.erase start n).setMode a m) a byte := by
  refine ⟨rfl, by rw [← hm]; rfl, fun p x => ?_, .inl rfl⟩
  show (if start ≤ place p x ∧ place p x < start + n then 0xff else s.flash (place p x)) = _
  by_cases hp : p = a / CHIP_SIZE
  · subst hp
    rw [if_pos rfl, hc]
    simp only [hplace, true_and]
    rfl
  · rw [if_neg hp, if_neg fun h => hp ((hplace p x).1 h).1]

/-- A write that does not abort: the setup bytes are none of those that do. -/
theorem setup_mod {a : Nat} {byte c : BitVec 8} :
    FlashWrite.Setup ⟨offsetOf a, byte⟩ c ↔ a % 0x800 = 0x555 ∧ byte = c := by
  rw [FlashWrite.Setup, offset_mod]

theorem confirm_mod {a : Nat} {byte : BitVec 8} :
    FlashWrite.Confirm ⟨offsetOf a, byte⟩ ↔ a % 0x800 = 0x2aa ∧ byte = 0x55 := by
  rw [FlashWrite.Confirm, offset_mod]

/-- **A write that reaches a part.** -/
theorem writeMem_wrote {address : BitVec 64} (hr : byteOf address < s.size)
    (hl : address &&& 4 = 0) (data : BitVec 64) :
    Wrote s (s.writeMem address data) (byteOf address) (data.setWidth 8) := by
  unfold writeMem
  dsimp only
  rw [if_neg (not_not.2 hr), if_neg (not_not.2 hl)]
  generalize byteOf address = a at *
  generalize data.setWidth 8 = byte
  cases hmode : s.mode (a / CHIP_SIZE) with
  -- modes that wait for the first cycle of a command
  | read | autosel | confirm0 | confirm1 =>
    dsimp only
    rw [cycle_eq s a byte 0x555 (by decide) .step1]
    refine wrote_setMode ?_ ?_
    · rw [hmode, FlashPart.next]
      simp only [setup_mod]
    · rw [hmode]
      rfl
  | step1 =>
    dsimp only
    rw [cycle_eq s a byte 0x2aa (by decide) .step2]
    refine wrote_setMode ?_ ?_
    · rw [hmode, FlashPart.next]
      simp only [confirm_mod]
    · rw [hmode]
      rfl
  | eraseStep3 =>
    dsimp only
    rw [cycle_eq s a byte 0x555 (by decide) .eraseStep4]
    refine wrote_setMode ?_ ?_
    · rw [hmode, FlashPart.next]
      simp only [setup_mod]
    · rw [hmode]
      rfl
  | eraseStep4 =>
    dsimp only
    rw [cycle_eq s a byte 0x2aa (by decide) .eraseStep5]
    refine wrote_setMode ?_ ?_
    · rw [hmode, FlashPart.next]
      simp only [confirm_mod]
    · rw [hmode]
      rfl
  | step2 =>
    have hc : FlashPart.change ⟨offsetOf a, byte⟩ (s.part (a / CHIP_SIZE)).bytes
        (s.mode (a / CHIP_SIZE)) = (s.part (a / CHIP_SIZE)).bytes := by
      rw [hmode]
      rfl
    dsimp only
    -- the command byte, or an abort, chooses the next mode
    split_ifs with habort hat h90 ha0 h80
    all_goals
      refine wrote_setMode ?_ hc
      rw [hmode, FlashPart.next]
      simp only [setup_mod]
    · obtain rfl | rfl := habort <;> simp
    · simp [hat]
    · simp [not_not.1 hat, h90]
    · simp [not_not.1 hat, ha0]
    · simp [not_not.1 hat, h80]
    · rw [if_neg fun h => h90 h.2, if_neg fun h => ha0 h.2, if_neg fun h => h80 h.2]
  | program =>
    dsimp only
    refine ⟨?_, ?_, fun p x => ?_, ?_⟩
    · split <;> rfl
    · rw [hmode]
      split <;> rfl
    · -- programming only clears bits, so a byte that stays needs no write
      have hbytes : (setMode (if s.flash a &&& byte ≠ s.flash a then
          { s with flash := Function.update s.flash a (s.flash a &&& byte), dirty := true }
          else s) a .read).flash = Function.update s.flash a (s.flash a &&& byte) := by
        split_ifs with hne
        · rfl
        · rw [not_not.1 hne, Function.update_eq_self]
          rfl
      rw [hbytes]
      by_cases hp : p = a / CHIP_SIZE
      · subst hp
        rw [if_pos rfl, hmode, FlashPart.change]
        have ha : place (a / CHIP_SIZE) (offsetOf a) = a := place_inj.2 ⟨rfl, rfl⟩
        by_cases hx : x = offsetOf a
        · subst hx
          dsimp only
          rw [ha, Function.update_self, Function.update_self]
          show s.flash a &&& byte = s.flash (place (a / CHIP_SIZE) (offsetOf a)) &&& byte
          rw [ha]
        · rw [Function.update_of_ne fun h => hx (place_inj.1 h).2, Function.update_of_ne hx]
          rfl
      · rw [if_neg hp, Function.update_of_ne fun h => hp (place_inj.1 h).1]
    · split_ifs
      · exact .inl rfl
      · exact .inr ⟨rfl, rfl⟩
  | eraseStep5 =>
    dsimp only
    split_ifs with habort hchip hsector
    · refine wrote_setMode ?_ (funext fun x => ?_)
      · rw [hmode, FlashPart.next]
        simp only [setup_mod]
        obtain rfl | rfl := habort <;> simp
      · rw [hmode, FlashPart.change]
        simp only [setup_mod]
        obtain rfl | rfl := habort <;> simp
    · -- the whole chip
      refine wrote_erase ?_ (fun _ => True) (fun p x => ?_) fun x => ?_
      · rw [hmode, FlashPart.next, if_pos (.inl (setup_mod.2 hchip))]
      · rw [mem_chip, and_true]
      · rw [hmode]
        dsimp only [FlashPart.change]
        rw [if_pos (setup_mod.2 hchip), if_pos trivial]
    · -- one sector
      refine wrote_erase ?_ (fun x => x.val / 0x10000 = (offsetOf a).val / 0x10000)
        (fun p x => mem_sector) fun x => ?_
      · rw [hmode, FlashPart.next, if_pos (.inr hsector)]
      · rw [hmode]
        dsimp only [FlashPart.change]
        rw [if_neg fun h => hchip (setup_mod.1 h)]
        simp only [hsector, true_and]
    · refine wrote_setMode ?_ (funext fun x => ?_)
      · rw [hmode, FlashPart.next, if_neg]
        rw [setup_mod]
        exact fun h => h.elim hchip hsector
      · rw [hmode]
        dsimp only [FlashPart.change]
        rw [if_neg fun h => hchip (setup_mod.1 h), if_neg fun h => hsector h.1]

theorem setMode_self (a : Nat) : s.setMode a (s.mode (a / CHIP_SIZE)) = s := by
  rw [setMode, Function.update_eq_self]

theorem part_setMode_self (s : CFlash) (a : Nat) (m : FlashMode) :
    (s.setMode a m).part (a / CHIP_SIZE) = { s.part (a / CHIP_SIZE) with mode := m } := by
  have hmode : (s.setMode a m).mode (a / CHIP_SIZE) = m := Function.update_self _ _ _
  rw [part, hmode]
  rfl

theorem part_setMode_other (s : CFlash) {a p : Nat} (hp : p ≠ a / CHIP_SIZE) (m : FlashMode) :
    (s.setMode a m).part p = s.part p := by
  have hmode : (s.setMode a m).mode p = s.mode p := Function.update_of_ne hp _ _
  rw [part, hmode]
  rfl

/-- What a read that reaches a part returns. -/
theorem readMem_eq {address : BitVec 64} (hr : byteOf address < s.size) (hl : address &&& 4 = 0) :
    s.readMem address =
      (s.part (byteOf address / CHIP_SIZE)).data (offsetOf (byteOf address)) := by
  rw [readMem]
  rw [if_neg (not_not.2 hr), if_neg (not_not.2 hl)]
  generalize byteOf address = a
  have hoff : (offsetOf a).val % 0x100 = a % 0x100 := by
    unfold offsetOf CHIP_SIZE
    dsimp only
    omega
  have hbyte : (s.part (a / CHIP_SIZE)).bytes (offsetOf a) = s.flash a :=
    congrArg s.flash (place_inj.2 ⟨rfl, rfl⟩)
  have hmode : (s.part (a / CHIP_SIZE)).mode = s.mode (a / CHIP_SIZE) := rfl
  rw [FlashPart.data, hmode, hoff, hbyte]

/-- What a read leaves: another mode at most. -/
theorem afterRead_eq (address : BitVec 64) : s.afterRead address =
    if byteOf address < s.size ∧ address &&& 4 = 0 then
      s.setMode (byteOf address) (FlashPart.afterRead (s.mode (byteOf address / CHIP_SIZE)))
    else s := by
  rw [afterRead]
  by_cases hr : byteOf address < s.size
  · by_cases hl : address &&& 4 = 0
    · rw [if_neg (not_not.2 hr), if_neg (not_not.2 hl), if_pos ⟨hr, hl⟩]
      have hself := s.setMode_self (byteOf address)
      cases hm : s.mode (byteOf address / CHIP_SIZE) with
      | confirm0 | confirm1 => rfl
      | autosel | read | step1 | step2 | program | eraseStep3 | eraseStep4 | eraseStep5 =>
        rw [hm] at hself
        exact hself.symm
    · rw [if_neg (not_not.2 hr), if_pos hl, if_neg fun h => hl h.2]
  · rw [if_pos hr, if_neg fun h => hr h.1]

theorem afterRead_frame (address : BitVec 64) :
    (s.afterRead address).chips = s.chips ∧ (s.afterRead address).flash = s.flash ∧
      (s.afterRead address).dirty = s.dirty := by
  rw [afterRead_eq]
  split
  · exact ⟨rfl, rfl, rfl⟩
  · exact ⟨rfl, rfl, rfl⟩

theorem writeMem_missed {address : BitVec 64} (h : ¬ (byteOf address < s.size ∧ address &&& 4 = 0))
    (data : BitVec 64) : s.writeMem address data = s := by
  unfold writeMem
  dsimp only
  by_cases hr : byteOf address < s.size
  · rw [if_neg (not_not.2 hr), if_pos fun hl => h ⟨hr, hl⟩]
  · rw [if_pos hr]

theorem restored_chips (image : List (BitVec 8)) : (s.restored image).chips = s.chips := by
  dsimp only [restored]

theorem restored_dirty (image : List (BitVec 8)) : (s.restored image).dirty = s.dirty := by
  dsimp only [restored]

theorem writeMem_chips (address data : BitVec 64) :
    (s.writeMem address data).chips = s.chips := by
  by_cases h : byteOf address < s.size ∧ address &&& 4 = 0
  · exact (writeMem_wrote h.1 h.2 data).chips
  · rw [writeMem_missed h]

end CFlash

/-! ## The parts go their own ways -/

section Parts

variable {T : Type} [DecidableEq T] {s : FlashRun T} {p : Nat}

/-- The steps of a flush change neither contents nor modes. -/
theorem flush_dev (s : FlashRun T) {act : FlashAct T} (h : opOn s.dev.chips p act = none)
    (hmem : (∀ address, act ≠ .read address) ∧ ∀ address data, act ≠ .write address data) :
    (s.step act).dev.chips = s.dev.chips ∧ (s.step act).dev.part p = s.dev.part p := by
  cases act with
  | read address => exact absurd rfl (hmem.1 address)
  | write address data => exact absurd rfl (hmem.2 address data)
  | restore image => nomatch h
  | flush t =>
    dsimp only [FlashRun.step]
    split
    · split <;> exact ⟨rfl, rfl⟩
    · exact ⟨rfl, rfl⟩
  | openTmp t ok =>
    dsimp only [FlashRun.step]
    split
    · split <;> exact ⟨rfl, rfl⟩
    · exact ⟨rfl, rfl⟩
  | copy t =>
    dsimp only [FlashRun.step]
    split
    · split <;> exact ⟨rfl, rfl⟩
    · exact ⟨rfl, rfl⟩
  | finish t ok =>
    dsimp only [FlashRun.step]
    split <;> exact ⟨rfl, rfl⟩

theorem reaches_iff {chips : Nat} {address : BitVec 64}
    (h : CFlash.byteOf address < CHIP_SIZE * chips ∧ address &&& 4 = 0) :
    Reaches chips p address ↔ p = CFlash.byteOf address / CHIP_SIZE := by
  unfold Reaches
  constructor
  · exact fun hr => hr.2.2.symm
  · exact fun hp => ⟨h.1, h.2, hp.symm⟩

/-- What a step is to a part, when it changes the device alone. -/
def partAfter (q : FlashPart) : Option PartOp → FlashPart
  | some op => q.step op
  | none => q

theorem part_read (s : CFlash) (address : BitVec 64) : (s.afterRead address).part p =
    partAfter (s.part p) (if Reaches s.chips p address then
      some (.read (offsetOf (CFlash.byteOf address))) else none) := by
  by_cases h : CFlash.byteOf address < s.size ∧ address &&& 4 = 0
  · rw [CFlash.afterRead_eq, if_pos h]
    by_cases hpa : p = CFlash.byteOf address / CHIP_SIZE
    · rw [if_pos ((reaches_iff h).2 hpa)]
      subst hpa
      exact CFlash.part_setMode_self s _ _
    · rw [if_neg fun hr => hpa ((reaches_iff h).1 hr)]
      exact CFlash.part_setMode_other s hpa _
  · rw [CFlash.afterRead_eq, if_neg h,
      if_neg fun hr : Reaches s.chips p address => h ⟨hr.1, hr.2.1⟩]
    rfl

theorem part_write (s : CFlash) (address data : BitVec 64) : (s.writeMem address data).part p =
    partAfter (s.part p) (if Reaches s.chips p address then
      some (.write ⟨offsetOf (CFlash.byteOf address), data.setWidth 8⟩) else none) := by
  by_cases h : CFlash.byteOf address < s.size ∧ address &&& 4 = 0
  · obtain ⟨-, hmode, hflash, -⟩ := CFlash.writeMem_wrote h.1 h.2 data
    by_cases hpa : p = CFlash.byteOf address / CHIP_SIZE
    · rw [if_pos ((reaches_iff h).2 hpa), CFlash.part, hmode, hpa, Function.update_self]
      rw [partAfter, FlashPart.step]
      congr 1
      funext x
      rw [hflash, if_pos rfl]
      rfl
    · rw [if_neg fun hr => hpa ((reaches_iff h).1 hr), CFlash.part, hmode,
        Function.update_of_ne hpa, partAfter, CFlash.part]
      congr 1
      funext x
      rw [hflash, if_neg hpa]
  · rw [CFlash.writeMem_missed h, if_neg fun hr : Reaches s.chips p address => h ⟨hr.1, hr.2.1⟩]
    rfl

theorem part_restore (s : CFlash) (image : List (BitVec 8)) (hp : p < s.chips) :
    (s.restored image).part p =
      partAfter (s.part p) (some (.restore fun x => image[place p x]?)) := by
  rw [partAfter, FlashPart.step, CFlash.restored]
  have hbytes (x : Fin CHIP_SIZE) : (if place p x < s.size then
      image.getD (place p x) (s.flash (place p x)) else s.flash (place p x)) =
      image[place p x]?.getD ((s.part p).bytes x) := by
    have hlt : place p x < s.size := place_lt hp x
    rw [if_pos hlt, List.getD_eq_getElem?_getD]
    rfl
  exact congrArg (FlashPart.mk (s.mode p)) (funext hbytes)

theorem dev_read (s : FlashRun T) (address : BitVec 64) :
    (s.step (.read address)).dev = s.dev.afterRead address :=
  rfl

theorem dev_write (s : FlashRun T) (address data : BitVec 64) :
    (s.step (.write address data)).dev = s.dev.writeMem address data :=
  rfl

theorem dev_restore (s : FlashRun T) (image : List (BitVec 8)) :
    (s.step (.restore image)).dev = s.dev.restored image :=
  rfl

/-- **A step of the device is a step of the part that it reaches**, and of no other. -/
theorem part_step (s : FlashRun T) (act : FlashAct T) (hp : p < s.dev.chips) :
    (s.step act).dev.chips = s.dev.chips ∧
      (s.step act).dev.part p = partAfter (s.dev.part p) (opOn s.dev.chips p act) := by
  cases act with
  | read address =>
    rw [dev_read, opOn]
    exact ⟨(CFlash.afterRead_frame address).1, part_read s.dev address⟩
  | write address data =>
    rw [dev_write, opOn]
    exact ⟨CFlash.writeMem_chips address data, part_write s.dev address data⟩
  | restore image =>
    rw [dev_restore, opOn]
    exact ⟨CFlash.restored_chips image, part_restore s.dev image hp⟩
  | flush t => exact flush_dev s rfl ⟨nofun, nofun⟩
  | openTmp t ok => exact flush_dev s rfl ⟨nofun, nofun⟩
  | copy t => exact flush_dev s rfl ⟨nofun, nofun⟩
  | finish t ok => exact flush_dev s rfl ⟨nofun, nofun⟩

/-- **The parts are independent**: each is what its own accesses, and its own share of the restores,
make of it. -/
theorem part_run (s : FlashRun T) (acts : List (FlashAct T)) (hp : p < s.dev.chips) :
    (acts.foldl FlashRun.step s).dev.chips = s.dev.chips ∧
      (acts.foldl FlashRun.step s).dev.part p =
        (acts.filterMap (opOn s.dev.chips p)).foldl FlashPart.step (s.dev.part p) := by
  induction acts generalizing s with
  | nil => exact ⟨rfl, rfl⟩
  | cons act acts ih =>
    obtain ⟨hchips, hpart⟩ := part_step s act hp
    obtain ⟨ihc, ihp⟩ := ih (s.step act) (hchips ▸ hp)
    refine ⟨ihc.trans hchips, ihp.trans ?_⟩
    rw [hchips, hpart, List.filterMap_cons]
    cases opOn s.dev.chips p act with
    | none => rfl
    | some op => rfl

/-- So a read in a run returns what the part that it reaches does, after its own accesses alone. -/
theorem readMem_run (s : FlashRun T) (acts : List (FlashAct T)) {address : BitVec 64}
    (hr : CFlash.byteOf address < s.dev.size) (hl : address &&& 4 = 0) :
    (acts.foldl FlashRun.step s).dev.readMem address =
      FlashPart.data ((acts.filterMap (opOn s.dev.chips (CFlash.byteOf address / CHIP_SIZE))).foldl
        FlashPart.step (s.dev.part (CFlash.byteOf address / CHIP_SIZE)))
        (offsetOf (CFlash.byteOf address)) := by
  have hp : CFlash.byteOf address / CHIP_SIZE < s.dev.chips := Nat.div_lt_of_lt_mul hr
  obtain ⟨hchips, hpart⟩ := part_run s acts hp
  have hsize : (acts.foldl FlashRun.step s).dev.size = s.dev.size := by
    rw [CFlash.size, hchips, CFlash.size]
  rw [CFlash.readMem_eq (hsize.symm ▸ hr) hl, hpart]

end Parts

/-! ## Only complete commands change bytes -/

section Commands

/-- How the writes to a part end in each state of a command. -/
def Trail (past : List FlashWrite) : FlashMode → Prop
  | .step1 => ∃ u rest, past = u :: rest ∧ u.Setup 0xaa
  | .step2 => ∃ u v rest, past = v :: u :: rest ∧ u.Setup 0xaa ∧ v.Confirm
  | .program => ProgramSet past
  | .eraseStep3 => ∃ u v w rest, past = w :: v :: u :: rest ∧ u.Setup 0xaa ∧ v.Confirm ∧
      w.Setup 0x80
  | .eraseStep4 => ∃ u v w x rest, past = x :: w :: v :: u :: rest ∧ u.Setup 0xaa ∧ v.Confirm ∧
      w.Setup 0x80 ∧ x.Setup 0xaa
  | .eraseStep5 => EraseSet past
  | _ => True

theorem trail_next {past : List FlashWrite} {m : FlashMode} (h : Trail past m) (w : FlashWrite) :
    Trail (w :: past) (FlashPart.next w m) := by
  cases m with
  | read | autosel | confirm0 | confirm1 =>
    rw [FlashPart.next]
    split
    · rename_i hw
      exact ⟨w, past, rfl, hw⟩
    · exact trivial
  | step1 =>
    obtain ⟨u, rest, rfl, hu⟩ := h
    rw [FlashPart.next]
    split
    · rename_i hw
      exact ⟨u, w, rest, rfl, hu, hw⟩
    · exact trivial
  | step2 =>
    obtain ⟨u, v, rest, rfl, hu, hv⟩ := h
    rw [FlashPart.next]
    split_ifs with h90 ha0 h80
    · exact trivial
    · exact ⟨u, v, w, rest, rfl, hu, hv, ha0⟩
    · exact ⟨u, v, w, rest, rfl, hu, hv, h80⟩
    · exact trivial
  | program => exact trivial
  | eraseStep3 =>
    obtain ⟨u, v, x, rest, rfl, hu, hv, hx⟩ := h
    rw [FlashPart.next]
    split
    · rename_i hw
      exact ⟨u, v, x, w, rest, rfl, hu, hv, hx, hw⟩
    · exact trivial
  | eraseStep4 =>
    obtain ⟨u, v, x, y, rest, rfl, hu, hv, hx, hy⟩ := h
    rw [FlashPart.next]
    split
    · rename_i hw
      exact ⟨u, v, x, y, w, rest, rfl, hu, hv, hx, hy, hw⟩
    · exact trivial
  | eraseStep5 =>
    rw [FlashPart.next]
    split
    · exact trivial
    · exact trivial

theorem trail_afterRead {past : List FlashWrite} {m : FlashMode} (h : Trail past m) :
    Trail past (FlashPart.afterRead m) := by
  cases m with
  | confirm0 | confirm1 => exact trivial
  | read | step1 | step2 | autosel | program | eraseStep3 | eraseStep4 | eraseStep5 => exact h

theorem writesOf_snoc (ops : List PartOp) (op : PartOp) : writesOf (ops ++ [op]) =
    match op with
    | .write w => w :: writesOf ops
    | _ => writesOf ops := by
  rw [writesOf, List.filterMap_append, List.reverse_append]
  cases op <;> rfl

/-- **A part's state says how its writes end.** -/
theorem trail_run (bytes : Fin CHIP_SIZE → BitVec 8) (ops : List PartOp) :
    Trail (writesOf ops) (FlashPart.run bytes ops).mode := by
  induction ops using List.reverseRecOn with
  | nil => exact trivial
  | append_singleton ops op ih =>
    rw [FlashPart.run, List.foldl_append, writesOf_snoc]
    cases op with
    | read offset => exact trail_afterRead ih
    | write w => exact trail_next ih w
    | restore image => exact ih

/-- A write that changes a byte completes a command. -/
theorem change_completes {past : List FlashWrite} {m : FlashMode} (h : Trail past m)
    (w : FlashWrite) (bytes : Fin CHIP_SIZE → BitVec 8) (x : Fin CHIP_SIZE)
    (hne : FlashPart.change w bytes m x ≠ bytes x) :
    Completes past w x (bytes x) (FlashPart.change w bytes m x) := by
  cases m with
  | program =>
    refine .inl ⟨h, ?_⟩
    rw [FlashPart.change] at hne ⊢
    by_cases hx : x = w.offset
    · subst hx
      exact ⟨rfl, Function.update_self _ _ _⟩
    · exact absurd (Function.update_of_ne hx _ _) hne
  | eraseStep5 =>
    refine .inr ⟨h, ?_⟩
    dsimp only [FlashPart.change] at hne ⊢
    split_ifs at hne ⊢ with hchip hsector
    · exact ⟨.inl hchip, rfl⟩
    · exact ⟨.inr hsector, rfl⟩
    · exact absurd rfl hne
  | read | step1 | step2 | autosel | eraseStep3 | eraseStep4 | confirm0 | confirm1 =>
    exact absurd rfl hne

end Commands

end Alphabox.Platform
