import Alphabox.Jit.Proof.Host
import Alphabox.Jit.Proof.Pins

/-!
# The guest's registers in the host

`Rep E s n h`: every guest register but R31 is where code compiled under `E` looks for it, its pin
or its slot in memory, and `x27` counts `n` instructions; `At` adds that `x0` holds the register it
is said to hold. Operands are fetched from there (`op1Src_spec`, `op2Src_spec`), and a result put
there (`rcDone_spec`, `rcX0_spec`) is the same update of the guest's registers.
-/

namespace Alphabox.Jit

open Fp Cpu

/-! ## Where a register is -/

namespace Emit

variable (E : Emit)

/-- The value of a slot of `state.r`: its pin's, if it is pinned. -/
def guest (h : Host) (i : BitVec 6) : Word :=
  match if i < 32 then E.pins.host (i.setWidth 5) else none with
  | some p => h.get p
  | none => h.r i

/-- The register `r` as an operand. -/
def val (s : IntState) (r : GReg) : Word := if r = 31 then 0 else s.r (E.slotOf r)

/-- The processor state that the code is for: the same mode, and PAL blocks run with the shadow
registers enabled and not on the 21464. -/
structure For (s : IntState) : Prop where
  pal : s.palMode = E.pal
  sde : E.pal = true → s.sde = true
  palNative : E.pal = true → s.ev8n = false
  native : s.ev8n = E.ext.native8
  ev8 : E.model.ev8 = E.ext.ev8

end Emit

/-- Every register but R31 is in its place, and the count in `x27`. -/
structure Rep (E : Emit) (s : IntState) (n : Word) (h : Host) : Prop where
  regs : ∀ i, i ≠ 31 → E.guest h i = s.r i
  count : h.get 27 = n

/-- So is the register that `x0` holds. -/
structure At (E : Emit) (prev : Option GReg) (s : IntState) (n : Word) (h : Host) : Prop where
  rep : Rep E s n h
  x0 : ∀ r, prev = some r → r ≠ 31 ∧ h.get 0 = E.val s r

/-- `s'` is `s` with `v` in `r`, R31 apart. -/
def Puts (E : Emit) (s : IntState) (r : GReg) (v : Word) (s' : IntState) : Prop :=
  ∀ i, i ≠ 31 → s'.r i = if i = E.slotOf r then v else s.r i

variable {E : Emit} {prev : Option GReg} {s s' : IntState} {h h' : Host} {r r' : GReg} {p : XReg}
  {w : Ins} {v n : Word} {u : Word → Word}

/-! ## Names -/

theorem shadow_iff : ∀ r : GReg, shadowReg r = (r &&& 0xc == 4) := by decide

theorem slotOf_31 : E.slotOf 31 = 31 := by
  unfold Emit.slotOf
  cases E.pal <;> decide

theorem slotOf_inj (hr : E.slotOf r = E.slotOf r') : r = r' := by
  unfold Emit.slotOf at hr
  revert r r'
  cases E.pal <;> decide

theorem slotOf_ne (hr : r ≠ 31) : E.slotOf r ≠ 31 := by
  intro he
  exact hr (slotOf_inj (he.trans slotOf_31.symm))

theorem slot_low : ∀ r : GReg, r.setWidth 6 < (32 : BitVec 6) ∧ (r.setWidth 6).setWidth 5 = r := by
  decide

theorem slot_shadow : ∀ r : GReg, (r &&& 0xc == 4) = true →
    ¬r.setWidth 6 + 32 < (32 : BitVec 6) := by
  decide

theorem low_slot : ∀ i : BitVec 6, i < 32 → (i.setWidth 5).setWidth 6 = i := by decide

theorem hostOf_some (hp : E.hostOf r = some p) :
    E.pins.host r = some p ∧ E.slotOf r = r.setWidth 6 := by
  unfold Emit.hostOf at hp
  unfold Emit.slotOf
  rw [shadow_iff] at hp
  split at hp
  · cases hp
  · rename_i hn
    rw [if_neg hn]
    exact ⟨hp, rfl⟩

theorem hostOf_mem (hp : E.hostOf r = some p) : p ∈ pinHosts :=
  E.pins.mem (hostOf_some hp).1

/-- A register with a pin is in it. -/
theorem guest_pin (hp : E.hostOf r = some p) : E.guest h (E.slotOf r) = h.get p := by
  obtain ⟨hh, hs⟩ := hostOf_some hp
  obtain ⟨hlt, hw⟩ := slot_low r
  unfold Emit.guest
  rw [hs, if_pos hlt, hw, hh]

/-- A register without one is in memory. -/
theorem guest_mem (hp : E.hostOf r = none) : E.guest h (E.slotOf r) = h.r (E.slotOf r) := by
  unfold Emit.guest Emit.slotOf
  unfold Emit.hostOf at hp
  rw [shadow_iff] at hp
  obtain ⟨hlt, hw⟩ := slot_low r
  by_cases hc : (E.pal && r &&& 0xc == 4) = true
  · rw [if_pos hc, if_neg (slot_shadow r (Bool.and_eq_true_iff.1 hc).2)]
  · rw [if_neg hc] at hp
    rw [if_neg hc, if_pos hlt, hw, hp]

/-- A slot depends on its pin, or on the memory there. -/
theorem guest_congr {i : BitVec 6} (hx : ∀ q ∈ pinHosts, E.pins.host (i.setWidth 5) = some q →
    i < 32 → h'.get q = h.get q) (hr : h'.r i = h.r i) : E.guest h' i = E.guest h i := by
  unfold Emit.guest
  split
  · rename_i q hq
    split at hq
    · rename_i hlt
      exact hx q (E.pins.mem hq) hq hlt
    · cases hq
  · exact hr

/-! ## Effects -/

/-- Code that writes scratch registers changes no guest register. -/
theorem Rep.scratch {d : XReg} {code : List Instr} {t : Word} (hrep : Rep E s n h)
    (hd : d ∈ scratchRegs) (hc : Only d code) : Rep E s n (run t u code h) := by
  have hget {q : XReg} (hq : q ∉ scratchRegs) : (run t u code h).get q = h.get q :=
    hc.get hq fun e => hq (e ▸ hd)
  refine ⟨fun i hi => ?_, (hget (by decide)).trans hrep.count⟩
  refine Eq.trans (guest_congr (fun q hq _ _ => hget (not_scratch hq)) ?_) (hrep.regs i hi)
  rw [hc.r]

/-- A pin that is written is the register it is the pin of. -/
theorem Rep.pin (hrep : Rep E s n h) (hp : E.hostOf r = some p) (hx : ∀ q, q ∉ scratchRegs →
    q ≠ p → h'.get q = h.get q) (hm : h'.r = h.r) (hv : h'.get p = v) (hs : Puts E s r v s') :
    Rep E s' n h' := by
  have h27 : (27 : XReg) ≠ p := (pinHosts_ne (hostOf_mem hp)).2.2.1.symm
  refine ⟨fun i hi => ?_, (hx 27 (by decide) h27).trans hrep.count⟩
  rw [hs i hi]
  split
  · rename_i he
    rw [he, guest_pin hp, hv]
  · rename_i hne
    refine Eq.trans (guest_congr (fun q hq hqi hlt => hx q (not_scratch hq) fun e => hne ?_)
      (by rw [hm])) (hrep.regs i hi)
    obtain ⟨hh, hslot⟩ := hostOf_some hp
    rw [hslot, E.pins.inj hh (e ▸ hqi), low_slot i hlt]

/-- A slot that is written is the register that is there. -/
theorem Rep.mem (hrep : Rep E s n h) (hp : E.hostOf r = none) (hx : ∀ q, q ∉ scratchRegs →
    h'.get q = h.get q) (hm : h'.r = Function.update h.r (E.slotOf r) v) (hs : Puts E s r v s') :
    Rep E s' n h' := by
  refine ⟨fun i hi => ?_, (hx 27 (by decide)).trans hrep.count⟩
  rw [hs i hi]
  split
  · rename_i he
    rw [he, guest_mem hp, hm, Function.update_self]
  · rename_i hne
    refine Eq.trans (guest_congr (fun q hq _ _ => hx q (not_scratch hq)) ?_) (hrep.regs i hi)
    rw [hm, Function.update_of_ne hne]

theorem Rep.congr (hrep : Rep E s n h) (hs : Puts E s 31 v s') : Rep E s' n h := by
  refine ⟨fun i hi => ?_, hrep.count⟩
  rw [hs i hi, if_neg (by rwa [slotOf_31]), hrep.regs i hi]

theorem val_of_ne (hr : r ≠ 31) : E.val s r = s.r (E.slotOf r) := if_neg hr

theorem val_31 : E.val s 31 = 0 := if_pos rfl

theorem Puts.val (hs : Puts E s r v s') (hr : r ≠ 31) : E.val s' r = v := by
  rw [val_of_ne hr, hs _ (slotOf_ne hr), if_pos rfl]

theorem At.none (hrep : Rep E s n h) : At E none s n h := by
  refine ⟨hrep, fun r e => ?_⟩
  cases e

/-! ## Operands -/

/-- The register that `x0` or a pin holds, or memory. -/
theorem Rep.val_pin (hrep : Rep E s n h) (hr : r ≠ 31) (hp : E.hostOf r = some p) :
    h.get p = E.val s r := by
  rw [val_of_ne hr, ← hrep.regs _ (slotOf_ne hr), guest_pin hp]

theorem Rep.val_mem (hrep : Rep E s n h) (hr : r ≠ 31) (hp : E.hostOf r = none) :
    h.r (E.slotOf r) = E.val s r := by
  rw [val_of_ne hr, ← hrep.regs _ (slotOf_ne hr), guest_mem hp]

/-- `movFromReg` into a scratch register. -/
theorem movFromReg_spec {d : XReg} (hrep : Rep E s n h) (hr : r ≠ 31) (hd : d ≠ 31) :
    Only d (movFromReg E d r) ∧ (run E.table u (movFromReg E d r) h).get d = E.val s r ∧
    ∀ q, q ≠ d → (run E.table u (movFromReg E d r) h).get q = h.get q := by
  unfold movFromReg
  cases hp : E.hostOf r with
  | some p =>
    refine ⟨?_, ?_, fun q hq => Host.get_set_of_ne h hq⟩
    · simp [Instr.stores, Instr.dest]
    · exact (Host.get_set_self h hd).trans (hrep.val_pin hr hp)
  | none =>
    refine ⟨?_, ?_, fun q hq => Host.get_set_of_ne h hq⟩
    · simp [Instr.stores, Instr.dest]
    · exact (Host.get_set_self h hd).trans (hrep.val_mem hr hp)

/-- Where an operand is once it has been fetched: its register holds it, and only `scratch` was
written. -/
structure Fetched (E : Emit) (u : Word → Word) (h : Host) (scratch : XReg)
    (c : List Instr × XReg) (v : Word) : Prop where
  only : Only scratch c.1
  src : c.2 = scratch ∨ c.2 ∈ pinHosts
  value : (run E.table u c.1 h).get c.2 = v
  others : ∀ q, q ≠ scratch → (run E.table u c.1 h).get q = h.get q

theorem srcReg_spec {scratch : XReg} {may : Bool} (hrep : Rep E s n h)
    (hx0 : may = true → scratch = 0 ∧ (prev = some r → h.get 0 = E.val s r))
    (hd : scratch ≠ 31) :
    Fetched E u h scratch (srcReg E prev r scratch may) (E.val s r) := by
  unfold srcReg
  by_cases hr : r = 31
  · rw [if_pos hr, hr, val_31]
    refine ⟨?_, Or.inl rfl, Host.get_set_self h hd, fun q hq => Host.get_set_of_ne h hq⟩
    simp [Instr.stores, Instr.dest]
  rw [if_neg hr]
  by_cases hf : may = true ∧ prev = some r
  · rw [if_pos hf]
    obtain ⟨h0, hv⟩ := hx0 hf.1
    exact ⟨only_nil, Or.inl h0.symm, hv hf.2, fun _ _ => rfl⟩
  rw [if_neg hf]
  cases hp : E.hostOf r with
  | some p => exact ⟨only_nil, Or.inr (hostOf_mem hp), hrep.val_pin hr hp, fun _ _ => rfl⟩
  | none =>
    obtain ⟨ho, hv, hq⟩ := movFromReg_spec (u := u) (d := scratch) hrep hr hd
    unfold movFromReg at ho hv hq
    rw [hp] at ho hv hq
    exact ⟨ho, Or.inl rfl, hv, hq⟩

/-- The first operand. -/
theorem op1Src_spec (hat : At E prev s n h) :
    Fetched E u h 0 (op1Src E prev w) (E.val s (raOf w)) :=
  srcReg_spec hat.rep (fun _ => ⟨rfl, fun e => (hat.x0 _ e).2⟩) (by decide)

/-- The second, a register. -/
theorem op2Src_spec (hrep : Rep E s n h) :
    Fetched E u h 1 (op2Src E prev w) (E.val s (rbOf w)) :=
  srcReg_spec hrep (fun e => Bool.noConfusion e) (by decide)

theorem scratch0 : (0 : XReg) ∈ scratchRegs := by decide

theorem scratch1 : (1 : XReg) ∈ scratchRegs := by decide

/-- Both operands, when they are registers. -/
structure Operands (E : Emit) (s : IntState) (n : Word) (h : Host) (a b : XReg) (va vb : Word) :
    Prop where
  rep : Rep E s n h
  first : h.get a = va
  second : h.get b = vb

theorem operands_spec (hat : At E prev s n h) :
    Operands E s n
      (run E.table u ((op1Src E prev w).1 ++ (op2Src E prev w).1) h)
      (op1Src E prev w).2 (op2Src E prev w).2 (E.val s (raOf w)) (E.val s (rbOf w)) := by
  have h1 : Fetched E u h 0 (op1Src E prev w) (E.val s (raOf w)) := op1Src_spec hat
  have hrep := hat.rep.scratch (u := u) (t := E.table) scratch0 h1.only
  have h2 : Fetched E u _ 1 (op2Src E prev w) (E.val s (rbOf w)) := op2Src_spec hrep
  rw [run_append]
  refine ⟨hrep.scratch scratch1 h2.only, ?_, h2.value⟩
  refine (h2.others _ ?_).trans h1.value
  rcases h1.src with h0 | hp
  · rw [h0]
    decide
  · exact (pinHosts_ne hp).2.1

theorem op1X0_spec (hat : At E prev s n h) :
    Only 0 (op1X0 E prev w) ∧
    (run E.table u (op1X0 E prev w) h).get 0 = E.val s (raOf w) ∧
    ∀ q, q ≠ 0 → (run E.table u (op1X0 E prev w) h).get q = h.get q := by
  unfold op1X0
  by_cases hf : raOf w ≠ 31 ∧ prev = some (raOf w)
  · rw [if_pos hf]
    exact ⟨only_nil, (hat.x0 _ hf.2).2, fun _ _ => rfl⟩
  rw [if_neg hf]
  by_cases hr : raOf w = 31
  · rw [if_pos hr, hr, val_31]
    refine ⟨?_, Host.get_set_self h (by decide), fun q hq => Host.get_set_of_ne h hq⟩
    simp [Instr.stores, Instr.dest]
  rw [if_neg hr]
  exact movFromReg_spec hat.rep hr (by decide)

/-- The second operand. -/
def Emit.opnd (E : Emit) (s : IntState) (w : Ins) : Word :=
  if isLit w then litOf w else E.val s (rbOf w)

theorem op2X1_spec (hrep : Rep E s n h) :
    Only 1 (op2X1 E w) ∧
    (run E.table u (op2X1 E w) h).get 1 = E.opnd s w ∧
    ∀ q, q ≠ 1 → (run E.table u (op2X1 E w) h).get q = h.get q := by
  unfold op2X1 Emit.opnd
  have himm (v : Word) : Only 1 [.movImm 1 v] ∧
      (run E.table u [.movImm 1 v] h).get 1 = v ∧
      ∀ q, q ≠ 1 → (run E.table u [.movImm 1 v] h).get q = h.get q := by
    refine ⟨?_, Host.get_set_self h (by decide), fun q hq => Host.get_set_of_ne h hq⟩
    simp [Instr.stores, Instr.dest]
  split
  · exact himm _
  split
  · rename_i hr
    rw [hr, val_31]
    exact himm 0
  · rename_i hr
    exact movFromReg_spec hrep hr (by decide)

/-! ## Results -/

variable {code : XReg → List Instr}

/-- What `dstReg` gives. -/
theorem dstReg_cases (E : Emit) (r : GReg) :
    (r = 31 ∧ dstReg E r = 0) ∨
    (r ≠ 31 ∧ E.hostOf r = some (dstReg E r) ∧ dstReg E r ∈ pinHosts) ∨
    (r ≠ 31 ∧ E.hostOf r = none ∧ dstReg E r = 0) := by
  unfold dstReg
  by_cases hr : r = 31
  · exact Or.inl ⟨hr, if_pos hr⟩
  · rw [if_neg hr]
    cases hp : E.hostOf r with
    | some p => exact Or.inr (Or.inl ⟨hr, rfl, hostOf_mem hp⟩)
    | none => exact Or.inr (Or.inr ⟨hr, rfl, rfl⟩)

/-- A scratch register, stored to the register it is the value of. -/
theorem store_spec {code : List Instr} {q : XReg} (hrep : Rep E s n h) (hr : r ≠ 31)
    (hsrc : q ∈ scratchRegs) (ho : Only q code) (hv : (run E.table u code h).get q = v)
    (hs : Puts E s r v s') :
    At E (movToReg E r q).holds s' n
      (run E.table u (code ++ (movToReg E r q).code) h) := by
  have hrep' := hrep.scratch (u := u) (t := E.table) hsrc ho
  rw [run_append]
  generalize run E.table u code h = h' at hv hrep'
  have hx0 (h'' : Host) (hget : h''.get q = h'.get q) (r' : GReg)
      (e : (movToReg E r q).holds = some r') : r' ≠ 31 ∧ h''.get 0 = E.val s' r' := by
    unfold movToReg at e
    dsimp only at e
    split at e
    · rename_i h0
      cases e
      refine ⟨hr, ?_⟩
      rw [hs.val hr, ← hv, ← hget, h0.1]
    · cases e
  unfold movToReg at hx0 ⊢
  cases hp : E.hostOf r with
  | some p =>
    have hm := hostOf_mem hp
    refine ⟨hrep'.pin hp (fun x _ hx => Host.get_set_of_ne h' hx) (Host.set_r ..)
      ((Host.get_set_self h' (pinHosts_ne hm).2.2.2).trans hv) hs, hx0 _ ?_⟩
    exact Host.get_set_of_ne h' fun e => not_scratch hm (e ▸ hsrc)
  | none =>
    exact ⟨hrep'.mem hp (fun _ _ => rfl) (congrArg (Function.update h'.r (E.slotOf r)) hv) hs,
      hx0 _ rfl⟩

/-- `dst_done`: the value is in the register `dstReg`, and everything but scratch registers is
as it was. -/
theorem dstDone_spec {code : List Instr} (hrep : Rep E s n h) (ho : Only (dstReg E r) code)
    (hv : (run E.table u code h).get (dstReg E r) = v) (hs : Puts E s r v s') :
    At E (dstDone E r (dstReg E r) code).holds s' n
      (run E.table u (dstDone E r (dstReg E r) code).code h) := by
  unfold dstDone
  rcases dstReg_cases E r with ⟨hr, hd⟩ | ⟨hr, hp, hm⟩ | ⟨hr, hp, hd⟩
  · rw [hd] at ho
    rw [if_neg fun e => e.2 hr]
    exact .none ((hrep.scratch scratch0 ho).congr (hr ▸ hs))
  · rw [if_neg fun e => (pinHosts_ne hm).1 e.1]
    exact .none (hrep.pin hp (fun q hq hne => ho.get hq hne) ho.r hv hs)
  · rw [hd] at ho hv
    rw [if_pos ⟨hd, hr⟩]
    exact store_spec hrep hr scratch0 ho hv hs

theorem rcDone_spec (hrep : Rep E s n h)
    (hc : ∀ d, d = 0 ∨ d ∈ pinHosts →
      Only d (code d) ∧ (run E.table u (code d) h).get d = v)
    (hs : Puts E s (rcOf w) v s') :
    At E (rcDone E w code).holds s' n (run E.table u (rcDone E w code).code h) := by
  have hd : dstReg E (rcOf w) = 0 ∨ dstReg E (rcOf w) ∈ pinHosts := by
    rcases dstReg_cases E (rcOf w) with ⟨-, hd⟩ | ⟨-, -, hm⟩ | ⟨-, -, hd⟩
    · exact Or.inl hd
    · exact Or.inr hm
    · exact Or.inl hd
  obtain ⟨ho, hv⟩ := hc _ hd
  exact dstDone_spec hrep ho hv hs

theorem rcX0_spec {code : List Instr} (hrep : Rep E s n h) (ho : Only 0 code)
    (hv : (run E.table u code h).get 0 = v) (hs : Puts E s (rcOf w) v s') :
    At E (rcX0 E w code).holds s' n (run E.table u (rcX0 E w code).code h) := by
  unfold rcX0
  by_cases hr : rcOf w = 31
  · rw [if_neg fun e => e hr]
    exact .none ((hrep.scratch scratch0 ho).congr (hr ▸ hs))
  · rw [if_pos hr]
    exact store_spec hrep hr scratch0 ho hv hs

/-- Nothing is emitted for a result in R31. -/
theorem none_spec (hrep : Rep E s n h) (hr : rcOf w = 31) (hs : Puts E s (rcOf w) v s') :
    At E none s' n h :=
  .none (hrep.congr (hr ▸ hs))

end Alphabox.Jit
