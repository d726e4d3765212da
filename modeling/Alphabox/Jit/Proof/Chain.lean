import Alphabox.Jit.Proof.Block

/-!
# Chains of compiled blocks

The entry loads the pins, each block runs as the interpreter does (`emitFrom_spec`), links between
blocks keep what the next block needs, and the exit stores the pins: `jit_chain` is about all of it.
-/

namespace Alphabox.Jit

open Fp Cpu

variable {E : Emit} {s s' : IntState} {h h' : Host} {v n : Word} {u : Word → Word}
  {fetch : Word → Ins} {cache : Word → Option (List Ins)} {l : List (Option GReg × XReg)}
  {m : ModelId} {x y z : IntState × Word}

/-! ## Entry and exit -/

/-- Loads fill the slots' registers and leave the others alone. -/
theorem loads_spec (hl : Distinct l) (hhost : ∀ a ∈ l, a.2 ∈ pinHosts) (h : Host) :
    (run E.table u (l.filterMap fun a => a.1.map fun r => .ldr a.2 (r.setWidth 6)) h).r = h.r ∧
    (∀ r p, (some r, p) ∈ l → (run E.table u
      (l.filterMap fun a => a.1.map fun r => .ldr a.2 (r.setWidth 6)) h).get p =
        h.r (r.setWidth 6)) ∧
    ∀ q, (∀ a ∈ l, a.2 ≠ q) → (run E.table u
      (l.filterMap fun a => a.1.map fun r => .ldr a.2 (r.setWidth 6)) h).get q = h.get q := by
  induction l generalizing h with
  | nil => exact ⟨rfl, fun r p hp => absurd hp List.not_mem_nil, fun q _ => rfl⟩
  | cons a l ih =>
    have hl' := List.Pairwise.of_cons hl
    have hhost' (b) (hb : b ∈ l) := hhost b (List.mem_cons_of_mem a hb)
    cases ha : a.1 with
    | none =>
      rw [List.filterMap_cons_none (by rw [ha]; rfl)]
      obtain ⟨hr, hp, hq⟩ := ih hl' hhost' h
      refine ⟨hr, fun r p hm => ?_, fun q hn => hq q fun b hb => hn b (List.mem_cons_of_mem a hb)⟩
      rcases List.mem_cons.1 hm with rfl | hm
      · cases ha
      · exact hp r p hm
    | some r₀ =>
      rw [List.filterMap_cons_some (by rw [ha]; rfl), run_cons]
      have h31 := (pinHosts_ne (hhost a List.mem_cons_self)).2.2.2
      obtain ⟨hr, hp, hq⟩ := ih hl' hhost' (step E.table u h (.ldr a.2 (r₀.setWidth 6)))
      have hrest (b) (hb : b ∈ l) : b.2 ≠ a.2 := ((List.rel_of_pairwise_cons hl hb).2).symm
      refine ⟨hr.trans (Host.set_r ..), fun r p hm => ?_, fun q hn => ?_⟩
      · rcases List.mem_cons.1 hm with he | hm
        · cases he
          cases ha
          rw [hq p hrest]
          exact Host.get_set_self h h31
        · rw [hp r p hm]
          exact congrFun (Host.set_r ..) _
      · rw [hq q fun b hb => hn b (List.mem_cons_of_mem a hb)]
        exact Host.get_set_of_ne h (hn a List.mem_cons_self).symm

/-- Stores put the slots' registers in memory and leave the rest of it alone. -/
theorem stores_spec (hl : Distinct l) (h : Host) :
    (∀ r p, (some r, p) ∈ l → (run E.table u
      (l.filterMap fun a => a.1.map fun r => .str a.2 (r.setWidth 6)) h).r (r.setWidth 6) =
        h.get p) ∧
    (∀ i, (∀ r p, (some r, p) ∈ l → r.setWidth 6 ≠ i) → (run E.table u
      (l.filterMap fun a => a.1.map fun r => .str a.2 (r.setWidth 6)) h).r i = h.r i) ∧
    ∀ q, (run E.table u
      (l.filterMap fun a => a.1.map fun r => .str a.2 (r.setWidth 6)) h).get q = h.get q := by
  induction l generalizing h with
  | nil => exact ⟨fun r p hp => absurd hp List.not_mem_nil, fun i _ => rfl, fun q => rfl⟩
  | cons a l ih =>
    have hl' := List.Pairwise.of_cons hl
    cases ha : a.1 with
    | none =>
      rw [List.filterMap_cons_none (by rw [ha]; rfl)]
      obtain ⟨hp, hi, hq⟩ := ih hl' h
      refine ⟨fun r p hm => ?_,
        fun i hn => hi i fun r p hm => hn r p (List.mem_cons_of_mem a hm), hq⟩
      rcases List.mem_cons.1 hm with rfl | hm
      · cases ha
      · exact hp r p hm
    | some r₀ =>
      rw [List.filterMap_cons_some (by rw [ha]; rfl), run_cons]
      obtain ⟨hp, hi, hq⟩ := ih hl' (step E.table u h (.str a.2 (r₀.setWidth 6)))
      refine ⟨fun r p hm => ?_, fun i hn => ?_, fun q => (hq q).trans rfl⟩
      · rcases List.mem_cons.1 hm with he | hm
        · have hr : r = r₀ := Option.some.inj ((congrArg Prod.fst he).trans ha)
          rw [hi (r.setWidth 6) fun r' p' hm' he' => ?_, hr, show p = a.2 from congrArg Prod.snd he]
          · exact Function.update_self ..
          · have hr' : r' = r₀ := by
              rw [← (slot_low r').2, he', (slot_low r).2, hr]
            exact Distinct.not_mem hl ha p' (hr' ▸ hm')
        · exact (hp r p hm).trans rfl
      · rw [hi i fun r p hm => hn r p (List.mem_cons_of_mem a hm)]
        refine Function.update_of_ne (fun he => ?_) _ _
        exact hn r₀ a.2 (List.mem_cons.2 (Or.inl (Prod.ext ha.symm rfl))) he.symm

/-- What a slot of `state.r` is, by the pins' table. -/
theorem guest_cases (E : Emit) (i : BitVec 6) :
    (∃ r p, (some r, p) ∈ E.pins.table ∧ r.setWidth 6 = i ∧ ∀ h, E.guest h i = h.get p) ∨
    (∀ r p, (some r, p) ∈ E.pins.table → r.setWidth 6 ≠ i) ∧ ∀ h, E.guest h i = h.r i := by
  unfold Emit.guest
  by_cases hi : i < 32
  · rw [if_pos hi]
    cases hp : E.pins.host (i.setWidth 5) with
    | some p => exact Or.inl ⟨_, p, Pins.host_iff.1 hp, low_slot i hi, fun _ => rfl⟩
    | none =>
      refine Or.inr ⟨fun r p hm he => ?_, fun _ => rfl⟩
      rw [← he, (slot_low r).2, Pins.host_iff.2 hm] at hp
      cases hp
  · rw [if_neg hi]
    exact Or.inr ⟨fun r p _ he => hi (he ▸ (slot_low r).1), fun _ => rfl⟩

theorem table_host {a : Option GReg × XReg} (ha : a ∈ E.pins.table) : a.2 ∈ pinHosts :=
  (List.of_mem_zip (a := a.1) (b := a.2) ha).2

/-- The entry: the guest's registers where the code looks for them, and nothing counted. -/
theorem prologue_spec (hmem : ∀ i, i ≠ 31 → h.r i = s.r i) :
    Rep E s 0 (run E.table u (prologue E.pins) h) := by
  obtain ⟨hr, hp, hq⟩ := loads_spec (E := E) (u := u) E.pins.table_distinct
    (fun a => table_host) (h.set 27 0)
  rw [Host.set_r] at hr hp
  refine ⟨fun i hi => ?_, ?_⟩
  · rw [← hmem i hi]
    rcases guest_cases E i with ⟨r, p, hm, he, hg⟩ | ⟨-, hg⟩
    · rw [hg, ← he]
      exact hp r p hm
    · rw [hg]
      exact congrFun hr i
  · refine (hq 27 fun a ha => (pinHosts_ne (table_host ha)).2.2.1).trans ?_
    exact Host.get_set_self h (by decide)

/-- The exit: memory has the guest's registers. -/
theorem epilogue_spec (hrep : Rep E s n h) :
    (∀ i, i ≠ 31 → (run E.table u (epilogue E.pins) h).r i = s.r i) ∧
    (run E.table u (epilogue E.pins) h).get 27 = n := by
  obtain ⟨hp, hi, hq⟩ := stores_spec (E := E) (u := u) E.pins.table_distinct h
  refine ⟨fun i hne => ?_, (hq 27).trans hrep.count⟩
  rw [← hrep.regs i hne]
  rcases guest_cases E i with ⟨r, p, hm, he, hg⟩ | ⟨hn, hg⟩
  · rw [hg, ← he]
    exact hp r p hm
  · rw [hg]
    exact hi i hn

/-! ## Runs of the interpreter -/

theorem interp_succ {k : Nat} : interp m fetch (k + 1) x =
    match execute m uemul64 x.1 x.2 (fetch x.2) with
    | none => none
    | some y => interp m fetch k y := rfl

theorem interp_add {a b : Nat} (ha : interp m fetch a x = some y) :
    interp m fetch (a + b) x = interp m fetch b y := by
  induction a generalizing x with
  | zero =>
    cases ha
    rw [Nat.zero_add]
  | succ a ih =>
    rw [Nat.succ_add, interp_succ]
    rw [interp_succ] at ha
    cases hx : execute m uemul64 x.1 x.2 (fetch x.2) with
    | none =>
      rw [hx] at ha
      cases ha
    | some z =>
      rw [hx] at ha
      exact ih ha

/-- A run keeps the mode and the PC's low bits. -/
theorem interp_frame {k : Nat} (hk : interp m fetch k x = some y) :
    SameMode x.1 y.1 ∧ SameLow y.2 x.2 := by
  induction k generalizing x with
  | zero =>
    cases hk
    exact ⟨⟨rfl, rfl, rfl⟩, rfl⟩
  | succ k ih =>
    rw [interp_succ] at hk
    cases hx : execute m uemul64 x.1 x.2 (fetch x.2) with
    | none =>
      rw [hx] at hk
      cases hk
    | some z =>
      rw [hx] at hk
      obtain ⟨t, pc⟩ := z
      obtain ⟨hm, hl⟩ := execute_frame hx
      obtain ⟨hm', hl'⟩ := ih hk
      exact ⟨⟨hm'.1.trans hm.1, hm'.2.1.trans hm.2.1, hm'.2.2.trans hm.2.2⟩, hl'.trans hl⟩

theorem SameLow.bit {a b : Word} (hl : SameLow a b) : a.getLsbD 0 = b.getLsbD 0 := by
  have h := congrArg (BitVec.getLsbD · 0) hl
  simpa using h

/-! ## Chains -/

/-- The code for a PC: PAL blocks have odd tags. -/
def Emit.at (E : Emit) (pc : Word) : Emit := { E with pal := pc.getLsbD 0 }

theorem rep_at {pc : Word} : Rep (E.at pc) s n h ↔ Rep E s n h :=
  ⟨fun hrep => ⟨hrep.regs, hrep.count⟩, fun hrep => ⟨hrep.regs, hrep.count⟩⟩

/-- The blocks' words are the ones in memory, and no branch within a block tests R31. -/
def Fresh (E : Emit) (fetch : Word → Ins) (cache : Word → Option (List Ins)) : Prop :=
  ∀ pc src, cache pc = some src →
    Here fetch pc 0 (scan E.ext src) ∧ NoR31 E.ext (scan E.ext src)

theorem Rep.linked (hrep : Rep E s n h) (hl : Linked E.pins h h') : Rep E s n h' := by
  refine ⟨fun i hi => ?_, hl.count.trans hrep.count⟩
  rw [← hrep.regs i hi]
  rcases guest_cases E i with ⟨r, p, hm, -, hg⟩ | ⟨hn, hg⟩
  · rw [hg, hg]
    exact hl.pinned r p hm
  · rw [hg, hg]
    exact hl.memory i hn

/-- A link that asks a helper for the next block: the pins that the helper may overwrite are in
memory meanwhile. -/
theorem linked_helper {helper : Host → Host}
    (hx : ∀ g q, q ∈ pinHosts.take kA64CalleeSlots ∨ q = 27 → (helper g).get q = g.get q)
    (hr : ∀ g, (helper g).r = g.r) (h : Host) :
    Linked E.pins h (run E.table u (reloadPins E.pins)
      (helper (run E.table u (spillPins E.pins) h))) := by
  have hall := E.pins.table_distinct
  rw [← List.take_append_drop kA64CalleeSlots E.pins.table] at hall
  obtain ⟨-, hdrop, happ⟩ := List.pairwise_append.1 hall
  obtain ⟨hsp, hsi, hsq⟩ := stores_spec (E := E) (u := u) hdrop h
  obtain ⟨hlr, hlp, hlq⟩ := loads_spec (E := E) (u := u) hdrop
    (fun a ha => table_host (List.mem_of_mem_drop ha))
    (helper (run E.table u (spillPins E.pins) h))
  refine ⟨fun r p hm => ?_, ?_, fun i hn => ?_⟩
  · rw [← List.take_append_drop kA64CalleeSlots E.pins.table] at hm
    rcases List.mem_append.1 hm with hm | hm
    · -- the helper keeps this one
      have hp : p ∈ pinHosts.take kA64CalleeSlots := by
        rw [Pins.table, List.zip_eq_zipWith, List.take_zipWith] at hm
        exact (List.of_mem_zip hm).2
      exact ((hlq p fun a ha => (happ _ hm a ha).2.symm).trans (hx _ p (Or.inl hp))).trans (hsq p)
    · exact (hlp r p hm).trans ((congrFun (hr _) _).trans (hsp r p hm))
  · refine ((hlq 27 fun a ha => ?_).trans (hx _ 27 (Or.inr rfl))).trans (hsq 27)
    exact (pinHosts_ne (table_host (List.mem_of_mem_drop ha))).2.2.1
  · refine (congrFun (hlr.trans (hr _)) i).trans (hsi i fun r p hm => ?_)
    exact hn r p (List.mem_of_mem_drop hm)

/-- One block. -/
theorem block_spec {src : List Ins} {pc : Word} (hf : Here fetch pc 0 (scan E.ext src))
    (hn : NoR31 E.ext (scan E.ext src)) (hne : scan E.ext src ≠ []) (hrep : Rep E s n h)
    (hs : (E.at pc).For s) :
    ∃ k s', 0 < k ∧ interp E.model fetch k (s, pc) = some (s', (runBlock E.table u
        (assembleBlock E pc src).1 (assembleBlock E pc src).2 h).2) ∧
      Rep E s' (n + BitVec.ofNat 64 k) (runBlock E.table u
        (assembleBlock E pc src).1 (assembleBlock E pc src).2 h).1 := by
  have hat : At (E.at pc) none s n h := ⟨rep_at.2 hrep, fun r e => by cases e⟩
  have hpc : addrOf pc 0 = pc := by
    unfold addrOf
    rw [BitVec.mul_zero, BitVec.add_zero]
  obtain ⟨k, s', hk, hrep', -, hpos⟩ := emitFrom_spec (E := E.at pc) (u := u) src hf hn hat hs
  rw [hpc] at hk
  rw [Nat.zero_add] at hrep'
  exact ⟨k, s', hpos hne, hk, rep_at.1 hrep'⟩

/-- A chain of blocks, between entry and exit. -/
theorem chain_spec (hfresh : Fresh E fetch cache) {k : Nat} {c c' : Host × Word}
    (hchain : Chain E u cache k c c') (hrep : Rep E s n c.1) (hs : (E.at c.2).For s) :
    ∃ j s', k ≤ j ∧ interp E.model fetch j (s, c.2) = some (s', c'.2) ∧
      Rep E s' (n + BitVec.ofNat 64 j) c'.1 := by
  induction hchain generalizing s n with
  | leave c => exact ⟨0, s, Nat.le_refl 0, rfl, by rwa [BitVec.add_zero]⟩
  | @block k h h' pc src y hcache hne hlinked _ ih =>
    obtain ⟨hf, hn⟩ := hfresh pc src hcache
    obtain ⟨a, t, ha, hrun, hrep'⟩ := block_spec (u := u) hf hn hne (hrep.linked hlinked) hs
    obtain ⟨⟨hfp, hpal, hsde⟩, hlow⟩ := interp_frame hrun
    have hbit := SameLow.bit hlow
    have hev : t.ev8n = s.ev8n := congrArg FpState.ev8n hfp
    -- the next block's mode is this one's
    have ht : (E.at _).For t := ⟨hpal.trans (hs.pal.trans hbit.symm),
      fun hp => hsde.trans (hs.sde (hbit.symm.trans hp)),
      fun hp => hev.trans (hs.palNative (hbit.symm.trans hp)), hev.trans hs.native, hs.ev8⟩
    obtain ⟨j, s', hle, hrun', hrep''⟩ := ih hrep' ht
    refine ⟨a + j, s', by omega, (interp_add hrun).trans hrun', ?_⟩
    rw [BitVec.ofNat_add, ← BitVec.add_assoc]
    exact hrep''

/-- From the guest's registers in memory to the exit's: any chain of compiled blocks, from the entry
on, leaves memory, the mode and the PC as the interpreter leaves them after as many instructions as
`x27` counts, at least one for each block. -/
theorem jit_chain (hfresh : Fresh E fetch cache) {k : Nat} {pc pc' : Word}
    (hs : (E.at pc).For s) (hmem : ∀ i, i ≠ 31 → h.r i = s.r i)
    (hchain : Chain E u cache k (run E.table u (prologue E.pins) h, pc) (h', pc')) :
    ∃ j s', k ≤ j ∧ interp E.model fetch j (s, pc) = some (s', pc') ∧ SameMode s s' ∧
      (∀ i, i ≠ 31 → (run E.table u (epilogue E.pins) h').r i = s'.r i) ∧
      (run E.table u (epilogue E.pins) h').get 27 = BitVec.ofNat 64 j := by
  obtain ⟨j, s', hle, hrun, hrep⟩ := chain_spec hfresh hchain (prologue_spec hmem) hs
  obtain ⟨hr, h27⟩ := epilogue_spec (u := u) hrep
  exact ⟨j, s', hle, hrun, (interp_frame hrun).1, hr, h27.trans (BitVec.zero_add _)⟩

/-! ## A loop -/

/-- R1 pinned, on a processor without extensions. -/
def loopEmit : Emit where
  pal := false
  pins := ⟨some 1 :: List.replicate 15 none, by decide, by decide, by decide⟩
  logicalImm := fun _ => false
  table := 0x100000
  model := ⟨0, 2, false⟩
  ext := ⟨false, false⟩

/-- `SUBQ R1, #1, R1` at 1000, and BNE back to it. -/
def loopFetch (a : Word) : Ins := if a = 0x1000 then 0x40203521 else 0xf43ffffe

def loopCache (a : Word) : Option (List Ins) :=
  if a = 0x1000 then some [0x40203521, 0xf43ffffe] else none

def loopHost : Host := ⟨fun _ => 5, ⟨false, false, false, false⟩, fun i => if i = 1 then 2 else 0⟩

def loopState : IntState where
  fpcr := 0
  excSum := 0
  palArith := false
  noIne := false
  vecDefer := false
  vecTrap := 0
  ev8n := false
  r := loopHost.r
  palMode := false
  sde := false

/-- The block's code. -/
def loopBlock (h : Host) : Host × Word :=
  runBlock loopEmit.table id (assembleBlock loopEmit 0x1000 [0x40203521, 0xf43ffffe]).1
    (assembleBlock loopEmit 0x1000 [0x40203521, 0xf43ffffe]).2 h

/-- After the first time round the link writes R1, which has a pin, to memory. -/
def loopAgain : Host :=
  let h := (loopBlock (run loopEmit.table id (prologue loopEmit.pins) loopHost)).1
  { h with r := Function.update h.r 1 (h.get 21) }

def loopEnd : Host × Word := loopBlock loopAgain

theorem loop_fresh : Fresh loopEmit loopFetch loopCache := by
  intro pc src hc
  unfold loopCache at hc
  split at hc
  · rename_i hpc
    cases hc
    cases hpc
    have hscan : scan loopEmit.ext [0x40203521, 0xf43ffffe] = [0x40203521, 0xf43ffffe] := by
      decide
    rw [hscan]
    refine ⟨fun j w hj => ?_, fun w hw op hc hbr => ?_⟩
    · rcases j with - | - | j
      · cases hj
        decide
      · cases hj
        decide
      · cases hj
    · have hsubq : classify loopEmit.ext 0x40203521 = some .subq := by decide
      rw [List.mem_singleton.1 hw, hsubq] at hc
      cases hc
      cases hbr
  · cases hc

theorem loop_linked : Linked loopEmit.pins
    (loopBlock (run loopEmit.table id (prologue loopEmit.pins) loopHost)).1 loopAgain := by
  refine ⟨fun _ _ _ => rfl, rfl, fun i hn => Function.update_of_ne (fun hi => ?_) _ _⟩
  exact hn 1 21 (by decide) hi.symm

theorem jit_chain_loop : loopEnd.2 = 0x1008 ∧ ∃ j s', 2 ≤ j ∧
    interp loopEmit.model loopFetch j (loopState, 0x1000) = some (s', loopEnd.2) ∧
      SameMode loopState s' ∧
      (∀ i, i ≠ 31 → (run loopEmit.table id (epilogue loopEmit.pins) loopEnd.1).r i = s'.r i) ∧
      (run loopEmit.table id (epilogue loopEmit.pins) loopEnd.1).get 27 = BitVec.ofNat 64 j :=
  ⟨by decide, jit_chain loop_fresh ⟨rfl, by decide, by decide, rfl, rfl⟩ (fun _ _ => rfl)
    (Chain.block rfl (by decide) ⟨fun _ _ _ => rfl, rfl, fun _ _ => rfl⟩
      (Chain.block rfl (by decide) loop_linked (Chain.leave loopEnd)))⟩

/-- With `BNE R31` between `ADDQ R1, #1, R2` and `ADDQ R2, #0, R3`, the code has zero for R2. -/
example : (runBlock loopEmit.table id
      (assembleBlock loopEmit 0x1000 [0x40203402, 0xf7e00008, 0x40401403]).1
      (assembleBlock loopEmit 0x1000 [0x40203402, 0xf7e00008, 0x40401403]).2
      (run loopEmit.table id (prologue loopEmit.pins) loopHost)).1.r 3 = 0 ∧
    (interp loopEmit.model (fun a => if a = 0x1000 then 0x40203402
      else if a = 0x1004 then 0xf7e00008 else 0x40401403) 3 (loopState, 0x1000)).map
      (·.1.r 3) = some 3 := by decide

end Alphabox.Jit
