import Alphabox.Platform.Proof.FlashParts

/-!
# The firmware flash: what its flushes keep

`SaveInv`: no two flushes at a time, and the flag, the flash file or the flush under way has every
change. A save that fails and a state restore may break it, and `Keeps` says when they do not.
-/

namespace Alphabox.Platform

section Saving

variable {T : Type} [DecidableEq T] {s : FlashRun T}

/-- What one flush at a time keeps: the flag, the file or the flush under way has every change. -/
structure SaveInv (s : FlashRun T) : Prop where
  alone : ∀ t u, s.pc t ≠ .out → s.pc u ≠ .out → t = u
  file_lt : s.files.file < s.files.fresh
  tmp : ∀ o, s.files.tmp = some o → o < s.files.fresh ∧ o ≠ s.files.file
  idle : (∀ t, s.pc t = .out) → s.dev.dirty = true ∨ s.Saved
  writing : ∀ t o i, s.pc t = .writing o i → s.files.tmp = some o ∧ i ≤ s.dev.size ∧
    (s.files.image o).length = i ∧
      (s.dev.dirty = true ∨ ∀ j < i, (s.files.image o).byte j = s.dev.flash j)

omit [DecidableEq T] in
/-- A step of the device: the flag is set, or no byte changes but those still to be copied. -/
theorem SaveInv.dev (h : SaveInv s) {dev : CFlash} (hchips : dev.chips = s.dev.chips)
    (hdev : dev.dirty = true ∨ (dev.dirty = s.dev.dirty ∧
      ∀ i < s.dev.size, s.Pending i ∨ dev.flash i = s.dev.flash i)) :
    SaveInv { s with dev } := by
  have hsize : dev.size = s.dev.size := by rw [CFlash.size, hchips]; rfl
  refine ⟨h.alone, h.file_lt, h.tmp, fun hout => ?_, fun t o i hpc => ?_⟩
  · obtain hd | ⟨hd, hflash⟩ := hdev
    · exact .inl hd
    obtain hdirty | ⟨hlen, hbytes⟩ := h.idle hout
    · exact .inl (hd.trans hdirty)
    refine .inr ⟨hlen.trans hsize.symm, fun i hi => ?_⟩
    have hi : i < s.dev.size := hsize ▸ hi
    obtain ⟨t, ht⟩ | heq := hflash i hi
    · have hpct : s.pc t = .out := hout t
      rw [hpct] at ht
      exact ht.elim
    · exact (hbytes i hi).trans heq.symm
  · obtain ⟨htmp, hle, hlen, hbytes⟩ := h.writing t o i hpc
    refine ⟨htmp, hle.trans hsize.ge, hlen, ?_⟩
    obtain hd | ⟨hd, hflash⟩ := hdev
    · exact .inl hd
    obtain hdirty | hbytes := hbytes
    · exact .inl (hd.trans hdirty)
    refine .inr fun j hj => ?_
    obtain ⟨u, hu⟩ | heq := hflash j (hj.trans_le hle)
    · -- the flush that has still to copy the byte is this one, which has copied it
      have hut : u = t := by
        refine h.alone u t (fun hout => ?_) fun hout => ?_
        · rw [hout] at hu
          exact hu
        · have := hpc.symm.trans hout
          cases this
      have hpc : s.pc u = .writing o i := hut ▸ hpc
      rw [hpc] at hu
      exact absurd hu (Nat.not_le.2 hj)
    · exact (hbytes j hj).trans heq.symm

theorem goto_self (s : FlashRun T) (t : T) (pc : SavePc) : (s.goto t pc).pc t = pc :=
  Function.update_self _ _ _

theorem goto_other (s : FlashRun T) {t u : T} (pc : SavePc) (h : u ≠ t) :
    (s.goto t pc).pc u = s.pc u :=
  Function.update_of_ne h _ _

/-- What a thread's place in a flush says, when no other thread is in one. -/
def Stage (s : FlashRun T) : SavePc → Prop
  | .out => s.dev.dirty = true ∨ s.Saved
  | .begun => True
  | .writing o i => s.files.tmp = some o ∧ i ≤ s.dev.size ∧ (s.files.image o).length = i ∧
      (s.dev.dirty = true ∨ ∀ j < i, (s.files.image o).byte j = s.dev.flash j)

omit [DecidableEq T] in
theorem SaveInv.of_stage {t : T} (hothers : ∀ u, u ≠ t → s.pc u = .out)
    (hlt : s.files.file < s.files.fresh)
    (htmp : ∀ o, s.files.tmp = some o → o < s.files.fresh ∧ o ≠ s.files.file)
    (hstage : Stage s (s.pc t)) : SaveInv s := by
  have hself {u : T} (hu : s.pc u ≠ .out) : u = t := by
    by_contra hne
    exact hu (hothers u hne)
  refine ⟨fun u v hu hv => (hself hu).trans (hself hv).symm, hlt, htmp, fun hout => ?_,
    fun u o i hpc => ?_⟩
  · rw [hout t] at hstage
    exact hstage
  · obtain rfl : u = t := hself fun hout => by cases hpc.symm.trans hout
    rw [hpc] at hstage
    exact hstage

omit [DecidableEq T] in
theorem SaveInv.others (h : SaveInv s) {t : T} (ht : s.pc t ≠ .out) (u : T) (hu : u ≠ t) :
    s.pc u = .out := by
  by_contra hne
  exact hu (h.alone u t hne ht)

theorem stage_goto {s' : FlashRun T} {t : T} {pc : SavePc} (hpc : s'.pc = (s.goto t pc).pc)
    (h : Stage s' pc) : Stage s' (s'.pc t) := by
  rw [hpc, goto_self]
  exact h

theorem others_goto {t : T} (h : ∀ u, u ≠ t → s.pc u = .out) (pc : SavePc) (u : T) (hu : u ≠ t) :
    (s.goto t pc).pc u = .out :=
  (goto_other s pc hu).trans (h u hu)

theorem create_spec (f : FlashFiles) (hlt : f.file < f.fresh)
    (htmp : ∀ o, f.tmp = some o → o < f.fresh ∧ o ≠ f.file) :
    (FlashRun.create f).2.tmp = some (FlashRun.create f).1 ∧
      (FlashRun.create f).2.file = f.file ∧ f.file < (FlashRun.create f).2.fresh ∧
      (FlashRun.create f).1 < (FlashRun.create f).2.fresh ∧ (FlashRun.create f).1 ≠ f.file ∧
      ((FlashRun.create f).2.image (FlashRun.create f).1).length = 0 := by
  rw [FlashRun.create]
  cases hf : f.tmp with
  | some o =>
    obtain ⟨ho, hne⟩ := htmp o hf
    exact ⟨rfl, rfl, hlt, ho, hne, congrArg _ (Function.update_self _ _ _)⟩
  | none =>
    exact ⟨rfl, rfl, hlt.trans (Nat.lt_succ_self _), Nat.lt_succ_self _, hlt.ne',
      congrArg _ (Function.update_self _ _ _)⟩

theorem put_length (f : FlashFiles) (o i : Nat) (b : BitVec 8) :
    ((FlashRun.put f o i b).image o).length = max (f.image o).length (i + 1) :=
  congrArg _ (Function.update_self _ _ _)

theorem put_byte (f : FlashFiles) (o i : Nat) (b : BitVec 8) :
    ((FlashRun.put f o i b).image o).byte = Function.update (f.image o).byte i b :=
  congrArg _ (Function.update_self _ _ _)

theorem replace_true {f : FlashFiles} {o : Nat} (h : f.tmp = some o) :
    FlashRun.replace f true = { f with file := o, tmp := none } := by
  obtain ⟨file, tmp, image, fresh⟩ := f
  obtain rfl : tmp = some o := h
  rfl

theorem replace_false (f : FlashFiles) : FlashRun.replace f false = { f with tmp := none } := by
  rw [FlashRun.replace]
  exact nofun

/-- **Every step that keeps up with the changes** keeps the flag or the file. -/
theorem saveInv_step (h : SaveInv s) (act : FlashAct T) (hok : s.Keeps act) :
    SaveInv (s.step act) := by
  cases act with
  | read address =>
    obtain ⟨hchips, hflash, hdirty⟩ := @CFlash.afterRead_frame s.dev address
    exact h.dev hchips (.inr ⟨hdirty, fun i _ => .inr (congrFun hflash i)⟩)
  | write address data =>
    by_cases hr : CFlash.byteOf address < s.dev.size ∧ address &&& 4 = 0
    · obtain ⟨hchips, -, -, hdirty⟩ := CFlash.writeMem_wrote hr.1 hr.2 data
      refine h.dev hchips ?_
      obtain hdirty | ⟨hdirty, hflash⟩ := hdirty
      · exact .inl hdirty
      · exact .inr ⟨hdirty, fun i _ => .inr (congrFun hflash i)⟩
    · rw [FlashRun.step, CFlash.writeMem_missed hr]
      exact h
  | restore image =>
    refine h.dev (CFlash.restored_chips image) ?_
    obtain hdirty | hsame := hok
    · exact .inl hdirty
    · exact .inr ⟨CFlash.restored_dirty image, hsame⟩
  | flush t =>
    dsimp only [FlashRun.step]
    split
    · split
      · rename_i hdirty
        exact .of_stage (others_goto (fun u _ => hok hdirty u) .begun) h.file_lt h.tmp
          (stage_goto rfl trivial)
      · exact h
    · exact h
  -- a save under way: the flag was cleared when it began, so the image must reach the file
  | openTmp t ok =>
    dsimp only [FlashRun.step]
    split
    · rename_i hpc
      have hothers := h.others (t := t) fun hout => by cases hpc.symm.trans hout
      cases ok with
      | true =>
        rw [if_pos rfl]
        obtain ⟨htmp, hfile, hlt, hfresh, hne, hlen⟩ := create_spec s.files h.file_lt h.tmp
        refine .of_stage (others_goto hothers _) (hfile ▸ hlt) (fun o ho => ?_)
          (stage_goto rfl ⟨htmp, Nat.zero_le _, hlen, .inr fun j hj => by cases hj⟩)
        obtain rfl : _ = o := Option.some.inj (htmp.symm.trans ho)
        exact ⟨hfresh, hfile ▸ hne⟩
      | false =>
        rw [if_neg (by decide)]
        refine .of_stage (others_goto hothers _) h.file_lt h.tmp (stage_goto rfl ?_)
        obtain hok | hok := hok hpc
        · cases hok
        · exact hok
    · exact h
  | copy t =>
    dsimp only [FlashRun.step]
    split
    · rename_i o i hpc
      have hothers := h.others (t := t) fun hout => by cases hpc.symm.trans hout
      obtain ⟨htmp, hle, hlen, hbytes⟩ := h.writing t o i hpc
      split
      · rename_i hlt
        refine .of_stage (others_goto hothers _) h.file_lt h.tmp
          (stage_goto rfl ⟨htmp, hlt, ?_, ?_⟩)
        · exact (put_length s.files o i _).trans (by rw [hlen]; omega)
        · obtain hdirty | hbytes := hbytes
          · exact .inl hdirty
          refine .inr fun j hj => ?_
          show ((FlashRun.put s.files o i _).image o).byte j = _
          rw [put_byte]
          -- the byte put now, and those put before that have not changed since
          by_cases hji : j = i
          · rw [hji, Function.update_self]
            rfl
          · rw [Function.update_of_ne hji]
            exact hbytes j (by omega)
      · exact h
    · exact h
  | finish t ok =>
    dsimp only [FlashRun.step]
    split
    · rename_i o i hpc
      have hothers := h.others (t := t) fun hout => by cases hpc.symm.trans hout
      obtain ⟨htmp, hle, hlen, hbytes⟩ := h.writing t o i hpc
      obtain ⟨hfresh, hne⟩ := h.tmp o htmp
      -- only a whole image takes the place of the file
      by_cases hdone : ok = true ∧ i = s.dev.size
      · obtain ⟨rfl, rfl⟩ := hdone
        rw [Bool.true_and, beq_self_eq_true, replace_true htmp]
        refine .of_stage (others_goto hothers _) hfresh nofun (stage_goto rfl ?_)
        obtain hdirty | hbytes := hbytes
        · exact .inl hdirty
        · exact .inr ⟨hlen, hbytes⟩
      · have hfalse : (ok && i == s.dev.size) = false := by
          rw [Bool.and_eq_false_iff, beq_eq_false_iff_ne]
          by_cases hok : ok = true
          · exact .inr fun hi => hdone ⟨hok, hi⟩
          · exact .inl (Bool.eq_false_of_not_eq_true hok)
        rw [hfalse, replace_false]
        refine .of_stage (others_goto hothers _) h.file_lt nofun (stage_goto rfl ?_)
        obtain hdone' | hok := hok o i hpc
        · exact absurd hdone' hdone
        · exact hok
    · exact h

/-! ## A flush by itself -/

/-- A flush copies on to a byte of the flash, with nothing in between. -/
theorem copies_run {t : T} {o i n : Nat} (hpc : s.pc t = .writing o i) (hn : i + n ≤ s.dev.size) :
    ((List.replicate n (FlashAct.copy t)).foldl FlashRun.step s).dev = s.dev ∧
      ((List.replicate n (FlashAct.copy t)).foldl FlashRun.step s).pc t = .writing o (i + n) ∧
      Lib.Allowed FlashRun.Keeps FlashRun.step s (List.replicate n (FlashAct.copy t)) := by
  induction n generalizing s i with
  | zero => exact ⟨rfl, hpc, trivial⟩
  | succ n ih =>
    have hstep : s.step (.copy t) = { s.goto t (.writing o (i + 1)) with
        files := FlashRun.put s.files o i (s.dev.flash i) } := by
      simp only [FlashRun.step, hpc]
      rw [if_pos (by omega)]
    have hpc' : (s.step (.copy t)).pc t = .writing o (i + 1) := by
      rw [hstep]
      exact Function.update_self ..
    have hdev : (s.step (.copy t)).dev = s.dev := by
      rw [hstep]
      rfl
    obtain ⟨hd, hp, hok⟩ := ih hpc' (by rw [hdev]; omega)
    refine ⟨hd.trans hdev, ?_, trivial, hok⟩
    rw [List.replicate_succ, List.foldl_cons, hp, Nat.add_right_comm, Nat.add_assoc]

/-- What is left of a flush that has opened its file: the copy of `n` bytes, and the new file. -/
def flushSteps (t : T) (n : Nat) : List (FlashAct T) :=
  List.replicate n (.copy t) ++ [.finish t true]

theorem flush_run {t : T} {o n : Nat} (hpc : s.pc t = .writing o 0) (hn : n = s.dev.size) :
    ((flushSteps t n).foldl FlashRun.step s).dev = s.dev ∧
      ((flushSteps t n).foldl FlashRun.step s).pc t = .out ∧
      Lib.Allowed FlashRun.Keeps FlashRun.step s (flushSteps t n) := by
  obtain ⟨hdev, hpc', hok⟩ := copies_run hpc (show 0 + n ≤ s.dev.size by omega)
  rw [Nat.zero_add] at hpc'
  have hkeeps : FlashRun.Keeps ((List.replicate n (FlashAct.copy t)).foldl FlashRun.step s)
      (.finish t true) := fun o' i hpc => by
    injection hpc'.symm.trans hpc with _ hi
    exact Or.inl ⟨rfl, by rw [← hi, hdev, hn]⟩
  refine ⟨?_, ?_, hok.append ⟨hkeeps, trivial⟩⟩ <;>
    simp only [flushSteps, List.foldl_append, List.foldl_cons, List.foldl_nil, FlashRun.step, hpc']
  · exact hdev
  · exact Function.update_self ..

end Saving

/-! ## Whole runs -/

section Runs

variable {T : Type} [DecidableEq T]

omit [DecidableEq T] in
theorem saveInv_start (chips : Nat) (data : Nat → BitVec 8) :
    SaveInv (FlashRun.start chips data : FlashRun T) :=
  ⟨fun _ _ ht => absurd rfl ht, Nat.one_pos, nofun, fun _ => .inr ⟨rfl, fun _ _ => rfl⟩,
    fun _ _ _ hpc => by cases hpc⟩

/-- The byte that a step changes is one that a state restore brings, or one that a write gives its
new value with a complete command. -/
theorem change_run (chips : Nat) (data : Nat → BitVec 8) (acts : List (FlashAct T))
    (act : FlashAct T) {p : Nat} (hp : p < chips) (x : Fin CHIP_SIZE)
    (hact : ∀ image, act ≠ .restore image)
    (hne : (((FlashRun.run chips data acts).step act).dev.part p).bytes x ≠
      ((FlashRun.run chips data acts).dev.part p).bytes x) :
    ∃ w, opOn chips p act = some (.write w) ∧
      Completes (writesOf (acts.filterMap (opOn chips p))) w x
        (((FlashRun.run chips data acts).dev.part p).bytes x)
        ((((FlashRun.run chips data acts).step act).dev.part p).bytes x) := by
  obtain ⟨hchips, hpart⟩ := part_run (FlashRun.start chips data : FlashRun T) acts hp
  have hrun : (FlashRun.run chips data acts).dev.chips = chips := hchips
  obtain ⟨-, hstep⟩ := part_step (FlashRun.run chips data acts) act (hrun.symm ▸ hp)
  rw [hrun] at hstep
  have htrail : Trail (writesOf (acts.filterMap (opOn chips p)))
      ((FlashRun.run chips data acts).dev.part p).mode := by
    rw [show (FlashRun.run chips data acts).dev.part p = _ from hpart]
    exact trail_run _ _
  rw [hstep] at hne ⊢
  cases hop : opOn chips p act with
  | none =>
    rw [hop] at hne
    exact absurd rfl hne
  | some op =>
    rw [hop] at hne
    cases op with
    | read offset => exact absurd rfl hne
    | write w => exact ⟨w, rfl, change_completes htrail w _ x hne⟩
    | restore image =>
      cases act with
      | restore image => exact absurd rfl (hact image)
      | read address =>
        rw [opOn] at hop
        split at hop <;> cases hop
      | write address d =>
        rw [opOn] at hop
        split at hop <;> cases hop
      | flush t => cases hop
      | openTmp t ok => cases hop
      | copy t => cases hop
      | finish t ok => cases hop

theorem saveInv_run (chips : Nat) (data : Nat → BitVec 8) (acts : List (FlashAct T))
    (hok : Lib.Allowed FlashRun.Keeps FlashRun.step (FlashRun.start chips data) acts) :
    SaveInv (FlashRun.run chips data acts) := by
  have hreach := (@Lib.Reach.start _ _ (· = (FlashRun.start chips data : FlashRun T))
    FlashRun.Keeps FlashRun.step _ rfl).run acts hok
  refine hreach.inv ?_ fun s act h hact => saveInv_step h act hact
  rintro s rfl
  exact saveInv_start chips data

/-- **The flash changes only by complete commands**, part by part, whatever the accesses, restores
and flushes; and its file is up to date when the flag is clear and no flush is under way, as long as
saving keeps up. -/
theorem flash_saved_while_saving_keeps_up (chips : Nat) (data : Nat → BitVec 8)
    (acts : List (FlashAct T)) :
    (∀ p < chips, (FlashRun.run chips data acts).dev.part p =
      FlashPart.run (fun x => data (place p x)) (acts.filterMap (opOn chips p))) ∧
    (∀ act, (∀ image, act ≠ .restore image) → ∀ p < chips, ∀ x,
      (((FlashRun.run chips data acts).step act).dev.part p).bytes x ≠
        ((FlashRun.run chips data acts).dev.part p).bytes x →
      ∃ w, opOn chips p act = some (.write w) ∧
        Completes (writesOf (acts.filterMap (opOn chips p))) w x
          (((FlashRun.run chips data acts).dev.part p).bytes x)
          ((((FlashRun.run chips data acts).step act).dev.part p).bytes x)) ∧
    (Lib.Allowed FlashRun.Keeps FlashRun.step (FlashRun.start chips data) acts →
      (FlashRun.run chips data acts).dev.dirty = false →
      (∀ t, (FlashRun.run chips data acts).pc t = .out) → (FlashRun.run chips data acts).Saved) := by
  refine ⟨fun p hp => ?_, fun act hact p hp x hne => ?_, fun hok hdirty hout => ?_⟩
  · exact (part_run (FlashRun.start chips data : FlashRun T) acts hp).2
  · exact change_run chips data acts act hp x hact hne
  · obtain hset | hsaved := (saveInv_run chips data acts hok).idle hout
    · rw [hdirty] at hset
      cases hset
    · exact hsaved

end Runs

/-- A byte is programmed, a state restore brings another while the flag is set, and a flush takes
the flag and opens its file. -/
def programActs : List (FlashAct Unit) :=
  [.write 0x15540 0xaa, .write 0xaa80 0x55, .write 0x15540 0xa0, .write 0 0x12,
    .restore [0x12, 0x34], .flush (), .openTmp () true]

/-- And the flush copies the `n` bytes of the flash. -/
def programFlush (n : Nat) : List (FlashAct Unit) :=
  programActs ++ flushSteps () n

theorem flash_saved_while_saving_keeps_up_programmed :
    (FlashRun.run 1 (fun _ => 0xff) (programFlush CHIP_SIZE)).Saved ∧
      (FlashRun.run 1 (fun _ => 0xff) (programFlush CHIP_SIZE)).dev.flash 0 = 0x12 := by
  suffices h : ∀ n, n = CHIP_SIZE → (FlashRun.run 1 (fun _ => 0xff) (programFlush n)).Saved ∧
      (FlashRun.run 1 (fun _ => 0xff) (programFlush n)).dev.flash 0 = 0x12 from h _ rfl
  intro n hn
  have hpc : (FlashRun.run 1 (fun _ => 0xff) programActs).pc () = .writing 1 0 := by decide +kernel
  have hsize : (FlashRun.run 1 (fun _ => 0xff) programActs).dev.size = CHIP_SIZE := by
    decide +kernel
  obtain ⟨hdev, hout, hflush⟩ := flush_run hpc (hn.trans hsize.symm)
  have hrun : FlashRun.run 1 (fun _ => 0xff) (programFlush n) =
      (flushSteps () n).foldl FlashRun.step (FlashRun.run 1 (fun _ => 0xff) programActs) := List.foldl_append
  rw [← hrun] at hdev hout
  have hprogram : Lib.Allowed FlashRun.Keeps FlashRun.step (FlashRun.start 1 fun _ => 0xff)
      programActs := by
    refine ⟨trivial, trivial, trivial, trivial, Or.inl ?_, fun _ u => ?_, fun _ => Or.inl rfl,
      trivial⟩
    · decide +kernel
    · cases u
      decide +kernel
  refine ⟨(flash_saved_while_saving_keeps_up 1 (fun _ => 0xff) (programFlush n)).2.2
    (hprogram.append hflush) ?_ fun u => ?_, ?_⟩
  · rw [hdev]
    decide +kernel
  · cases u
    exact hout
  · rw [hdev]
    decide +kernel

/-- A byte programmed, and a flush that cannot open its file: the change is lost. -/
theorem flash_loses_failed_save :
    ∃ acts : List (FlashAct Unit), (FlashRun.run 1 (fun _ => 0xff) acts).dev.dirty = false ∧
      (∀ t, (FlashRun.run 1 (fun _ => 0xff) acts).pc t = .out) ∧
      ¬ (FlashRun.run 1 (fun _ => 0xff) acts).Saved := by
  refine ⟨[.write 0x15540 0xaa, .write 0xaa80 0x55, .write 0x15540 0xa0, .write 0 0x12,
    .flush (), .openTmp () false], by decide +kernel, fun ⟨⟩ => by decide +kernel,
    fun h => ?_⟩
  have hbyte := h.2 0 (by decide +kernel)
  revert hbyte
  decide +kernel

end Alphabox.Platform
