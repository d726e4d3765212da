import Alphabox.Debug.DebugTarget
import Alphabox.Lib.Reach

/-!
# The debugger's run control is safe

Once `stopped` has returned true nothing executes until a `resume` or `detach`, a processor told to
stay executes nothing, and no processor executes at a breakpoint that it has not reported there or
been resumed at with a step. `CpuInv` says what each processor knows at each place of its thread.

A `detach` is the weak spot: a processor that has already decided to park, to report a breakpoint of
its copy or to stop after its step does so afterwards, and nobody resumes it. `Settles` leaves out
those moments (and a `resume` that tells a processor to stay which is not parked, and a run past the
end of the address space into a breakpoint at its start).
-/

namespace Alphabox.Debug

open Function (update)

variable {n : Nat}

/-! ## Addresses -/

theorem align_mod (a : Nat) : align a % 4 = 0 := by
  unfold align
  omega

theorem align_lt (a : Nat) : align a < 2 ^ 64 := by
  unfold align
  omega

theorem align_of {a : Nat} (h4 : a % 4 = 0) (hlt : a < 2 ^ 64) : a = align a := by
  unfold align
  omega

theorem align_align (a : Nat) : align a = align (align a) := align_of (align_mod a) (align_lt a)

/-- The next breakpoint of a sorted list is before every other one ahead. -/
theorem nextBp_le {k : Cpu} {s : Finset Nat} (hk : k.bps = s.sort) {pc a : Nat} (ha : a ∈ s)
    (hlt : pc < a) : ∃ nb, k.nextBp pc = some nb ∧ pc < nb ∧ nb ≤ a := by
  have hmem : a ∈ k.bps := by
    rw [hk]
    exact (Finset.mem_sort _).mpr ha
  cases hf : k.nextBp pc with
  | none =>
    have := List.find?_eq_none.mp hf a hmem
    simp [hlt] at this
  | some nb =>
    refine ⟨nb, rfl, by simpa using List.find?_some hf, ?_⟩
    obtain ⟨-, as, bs, hsplit, hbefore⟩ := List.find?_eq_some_iff_append.mp hf
    have hsorted : k.bps.Pairwise (· ≤ ·) := by
      rw [hk]
      exact Finset.pairwise_sort s _
    rw [hsplit] at hmem hsorted
    rcases List.mem_append.mp hmem with hm | hm
    · have := hbefore a hm
      simp at this
      omega
    · rcases List.mem_cons.mp hm with rfl | hm
      · exact le_rfl
      · exact (List.pairwise_cons.mp (List.pairwise_append.mp hsorted).2.1).1 a hm

/-! ## What a processor knows where it is -/

/-- A breakpoint to skip is one this processor has reported at its PC, as long as it may get as far
as to look at it. -/
def SkipOk (t : DebugTarget n) (k : Cpu) (arr : Option Nat) : Prop :=
  ∀ p, k.skipPc = some p → arr = some p ∨ t.stopReq = true ∨ t.bps = ∅

/-- By the place of the processor's thread: its copy has the breakpoints when it looks at it, and
what it may run has none it has not reported. -/
def StageInv (t : DebugTarget n) (k : Cpu) (arr : Option Nat) : Prop :=
  match k.pos with
  | .unstarted | .dispatch => k.skipPc = none
  | .free => t.bps = ∅ ∧ k.skipPc = none
  | .loadGen | .copyBps => SkipOk t k arr
  | .loadStop => (t.bps = ∅ ∨ k.bps = t.bps.sort) ∧ SkipOk t k arr
  | .check => (t.bps = ∅ ∨ k.bps = t.bps.sort) ∧
      ∀ p, k.skipPc = some p → arr = some p ∨ t.bps = ∅
  | .released act => act ≠ .Stay ∧ (act = .Continue → ∀ p, k.skipPc = some p → arr = some p)
  | .run m => k.skipPc = none ∧ (m ≠ 0 → ∀ a ∈ t.bps, (a = k.pc → arr = some a) ∧
      (a ≠ k.pc → a < k.pc ∨ k.pc + 4 * m ≤ a))
  | _ => True

/-- A reported breakpoint is the one at the PC, and the processor is on its way to park. -/
def ReportedInv (t : DebugTarget n) (k : Cpu) (arr : Option Nat) : Prop :=
  ∀ p, k.reportedBp = some p → p = k.pc ∧ arr = some p ∧
    ((k.pos = .park ∨ k.pos = .parkWait) ∨
      t.stopReq = true ∧ (k.pos = .loadGen ∨ k.pos = .copyBps ∨ k.pos = .loadStop))

/-- A processor that a `detach` does not find about to park or to ask for a stop. -/
def Clear (k : Cpu) : Prop :=
  match k.pos with
  | .park | .report | .stepped | .released .Step => False
  | .loadStop | .check => k.hasBp k.pc = true → k.skipPc = some k.pc
  | _ => True

/-- With no debugger attached a processor does not stop, and one still parked has been let go. -/
def Harmless (t : DebugTarget n) (k : Cpu) : Prop :=
  Clear k ∧ (k.pos = .parkWait → k.seenGen ≠ t.runGen ∧ k.action = .Continue)

/-- The invariant of one processor, `arr` being the breakpoint it has reported at its PC. -/
structure CpuInv (t : DebugTarget n) (attached : Bool) (k : Cpu) (arr : Option Nat) : Prop where
  parked : k.parked = true ↔ k.pos = .parkWait
  pc : k.pc = align k.pc
  seen : k.seenGen ≤ t.runGen
  gen : ∀ g, k.bpGen = some g → g ≤ t.bpGen
  copied : k.bpGen = some t.bpGen → k.bps = t.bps.sort
  stage : StageInv t k arr
  reported : ReportedInv t k arr
  stay : k.action = .Stay → k.pos = .parkWait
  harmless : attached = false → Harmless t k

/-- The target after a request: the breakpoints and generations are the same. -/
structure Asked (t t' : DebugTarget n) : Prop where
  runGen : t'.runGen = t.runGen
  bps : t'.bps = t.bps
  bpGen : t'.bpGen = t.bpGen
  stopReq : t.stopReq = true → t'.stopReq = true

theorem Asked.rfl (t : DebugTarget n) : Asked t t := ⟨.refl _, .refl _, .refl _, id⟩

section Mono

variable {t t' : DebugTarget n} {k : Cpu} {arr : Option Nat} {attached : Bool}

theorem SkipOk.mono (h : SkipOk t k arr) (ha : Asked t t') : SkipOk t' k arr := by
  intro p hp
  rw [ha.bps]
  exact (h p hp).imp_right fun h => h.imp_left ha.stopReq

theorem StageInv.mono (h : StageInv t k arr) (ha : Asked t t') : StageInv t' k arr := by
  unfold StageInv at h ⊢
  rw [ha.bps]
  split at h
  · exact h
  · exact h
  · exact h
  · exact h.mono ha
  · exact h.mono ha
  · exact ⟨h.1, h.2.mono ha⟩
  all_goals exact h

theorem CpuInv.mono (h : CpuInv t attached k arr) (ha : Asked t t') : CpuInv t' attached k arr where
  parked := h.parked
  pc := h.pc
  seen := by rw [ha.runGen]; exact h.seen
  gen := by rw [ha.bpGen]; exact h.gen
  copied := by rw [ha.bpGen, ha.bps]; exact h.copied
  stage := h.stage.mono ha
  reported p hp := by
    obtain ⟨h1, h2, h3⟩ := h.reported p hp
    exact ⟨h1, h2, h3.imp_right fun h => ⟨ha.stopReq h.1, h.2⟩⟩
  stay := h.stay
  harmless hn := by
    obtain ⟨hc, hw⟩ := h.harmless hn
    refine ⟨hc, fun hp => ?_⟩
    rw [ha.runGen]
    exact hw hp

end Mono

/-! ## One step of a processor -/

section CpuStep

variable {t : DebugTarget n} {k : Cpu} {arr : Option Nat} {attached : Bool}

theorem reported_none (h : ReportedInv t k arr) (h1 : k.pos ≠ .park) (h2 : k.pos ≠ .parkWait)
    (h3 : t.stopReq = false ∨ k.pos ≠ .loadGen ∧ k.pos ≠ .copyBps ∧ k.pos ≠ .loadStop) :
    k.reportedBp = none := by
  cases hr : k.reportedBp with
  | none => rfl
  | some p =>
    obtain ⟨-, -, hp⟩ := h p hr
    rcases hp with hp | ⟨hs, hp⟩
    · rcases hp with hp | hp
      · exact absurd hp h1
      · exact absurd hp h2
    · rcases h3 with h3 | ⟨ha, hb, hc⟩
      · rw [hs] at h3
        cases h3
      · rcases hp with hp | hp | hp
        · exact absurd hp ha
        · exact absurd hp hb
        · exact absurd hp hc

/-- A processor that moves on and is neither parked before nor after. -/
theorem CpuInv.move (h : CpuInv t attached k arr) {t' : DebugTarget n} {k' : Cpu}
    {arr' : Option Nat} (ha : Asked t t') (hold : k.pos ≠ .parkWait) (hnew : k'.pos ≠ .parkWait)
    (hp : k'.parked = k.parked) (hseen : k'.seenGen = k.seenGen) (hact : k'.action = k.action)
    (hpc : k'.pc = align k'.pc) (hgen : ∀ g, k'.bpGen = some g → g ≤ t.bpGen)
    (hcopied : k'.bpGen = some t.bpGen → k'.bps = t.bps.sort) (hst : StageInv t' k' arr')
    (hrep : ReportedInv t' k' arr') (hclear : attached = false → Clear k') :
    CpuInv t' attached k' arr' where
  parked := by
    rw [hp, h.parked]
    exact ⟨fun h => absurd h hold, fun h => absurd h hnew⟩
  pc := hpc
  seen := by rw [hseen, ha.runGen]; exact h.seen
  gen := by rw [ha.bpGen]; exact hgen
  copied := by rw [ha.bpGen, ha.bps]; exact hcopied
  stage := hst
  reported := hrep
  stay hs := absurd (h.stay (hact.symm.trans hs)) hold
  harmless hn := ⟨hclear hn, fun hw => absurd hw hnew⟩

/-- A processor that only goes to another place, not parked and with nothing reported. -/
theorem CpuInv.goto (h : CpuInv t attached k arr) {t' : DebugTarget n} (ha : Asked t t') (p : Pos)
    (hold : k.pos ≠ .parkWait) (hnew : p ≠ .parkWait)
    (hst : StageInv t' { k with pos := p } arr) (hrep : ReportedInv t' { k with pos := p } arr)
    (hclear : attached = false → Clear { k with pos := p }) :
    CpuInv t' attached { k with pos := p } arr :=
  h.move ha hold hnew rfl rfl rfl h.pc h.gen h.copied hst hrep hclear

/-- With nothing reported there is nothing to say about it. -/
theorem ReportedInv.of_none (h : k.reportedBp = none) : ReportedInv t k arr := by
  intro p hp
  rw [h] at hp
  cases hp

theorem SkipOk.of_none (h : k.skipPc = none) : SkipOk t k arr := by
  intro p hp
  rw [h] at hp
  cases hp

/-- How far a processor may run brings it to no breakpoint but one at its PC. -/
theorem span_stage {s : Finset Nat} (hk : k.bps = s.sort) {a : Nat} (ha : a ∈ s)
    (hne : a ≠ k.pc) : a < k.pc ∨ k.pc + 4 * k.span ≤ a := by
  rcases Nat.lt_or_gt_of_ne hne with hlt | hlt
  · exact .inl hlt
  · obtain ⟨nb, hnb, hlo, hhi⟩ := nextBp_le hk ha hlt
    right
    have hspan : k.span ≤ (nb - k.pc) / 4 := by
      unfold Cpu.span
      rw [hnb]
      exact Nat.min_le_left _ _
    omega

/-- The dispatcher: with a debugger it calls `boundary`. -/
theorem CpuInv.dispatch (h : CpuInv t attached k arr) (hp : k.pos = .dispatch)
    (hidle : attached = false → t.stopReq = false ∧ t.bps = ∅)
    (hon : attached = true → k.debugOn = true) :
    CpuInv t attached { k with pos := if k.debugOn then .loadGen else .free } arr := by
  have hwait : k.pos ≠ .parkWait := by simp [hp]
  have hrep : k.reportedBp = none :=
    reported_none h.reported (by simp [hp]) hwait (.inr (by simp [hp]))
  have hst := h.stage
  simp only [StageInv, hp] at hst
  split
  · exact h.goto (.rfl t) .loadGen hwait (by simp) (.of_none hst) (.of_none hrep) fun _ => trivial
  · rename_i hoff
    refine h.goto (.rfl t) .free hwait (by simp) ⟨?_, hst⟩ (.of_none hrep) fun _ => trivial
    cases hatt : attached with
    | false => exact (hidle hatt).2
    | true => exact absurd (hon hatt) hoff

/-- `boundary` looks whether its copy of the breakpoints is the last. -/
theorem CpuInv.loadGen (h : CpuInv t attached k arr) (hp : k.pos = .loadGen)
    (hidle : attached = false → t.stopReq = false ∧ t.bps = ∅) :
    CpuInv t attached { k with pos := if k.bpGen = some t.bpGen then .loadStop else .copyBps }
      arr := by
  have hwait : k.pos ≠ .parkWait := by simp [hp]
  have hst := h.stage
  simp only [StageInv, hp] at hst
  have hreq : ∀ p, k.reportedBp = some p → t.stopReq = true := by
    intro p hr
    simpa [hp] using (h.reported p hr).2.2
  split
  · rename_i hgen
    refine h.goto (.rfl t) .loadStop hwait (by simp) ⟨.inr (h.copied hgen), hst⟩ ?_ ?_
    · intro p hr
      exact ⟨(h.reported p hr).1, (h.reported p hr).2.1, .inr ⟨hreq p hr, by simp⟩⟩
    · intro hn hhas
      have hcopy := h.copied hgen
      rw [(hidle hn).2] at hcopy
      simp [Cpu.hasBp, hcopy] at hhas
  · refine h.goto (.rfl t) .copyBps hwait (by simp) hst ?_ fun _ => trivial
    intro p hr
    exact ⟨(h.reported p hr).1, (h.reported p hr).2.1, .inr ⟨hreq p hr, by simp⟩⟩

/-- `boundary` copies the breakpoints. -/
theorem CpuInv.copyBps (h : CpuInv t attached k arr) (hp : k.pos = .copyBps)
    (hidle : attached = false → t.stopReq = false ∧ t.bps = ∅) :
    CpuInv t attached { k with bps := t.bps.sort, bpGen := some t.bpGen, pos := .loadStop }
      arr := by
  have hst := h.stage
  simp only [StageInv, hp] at hst
  refine h.move (.rfl t) (by simp [hp]) (by simp) rfl rfl rfl h.pc ?_ (fun _ => rfl)
    ⟨.inr rfl, hst⟩ ?_ ?_
  · intro g hg
    cases hg
    exact le_rfl
  · intro p hr
    obtain ⟨h1, h2, h3⟩ := h.reported p hr
    exact ⟨h1, h2, .inr ⟨by simpa [hp] using h3, by simp⟩⟩
  · intro hn hhas
    rw [(hidle hn).2] at hhas
    simp [Cpu.hasBp] at hhas

/-- `boundary` looks whether a stop is asked for. -/
theorem CpuInv.loadStop (h : CpuInv t attached k arr) (hp : k.pos = .loadStop)
    (hidle : attached = false → t.stopReq = false ∧ t.bps = ∅) :
    CpuInv t attached { k with pos := if t.stopReq then .park else .check } arr := by
  have hwait : k.pos ≠ .parkWait := by simp [hp]
  have hst := h.stage
  simp only [StageInv, hp] at hst
  cases hreq : t.stopReq with
  | true =>
    refine h.goto (.rfl t) .park hwait (by simp) trivial ?_ fun hn => ?_
    · intro p hr
      exact ⟨(h.reported p hr).1, (h.reported p hr).2.1, .inl (.inl rfl)⟩
    · rw [(hidle hn).1] at hreq
      cases hreq
  | false =>
    have hrep : k.reportedBp = none := reported_none h.reported (by simp [hp]) hwait (.inl hreq)
    refine h.goto (.rfl t) .check hwait (by simp) ⟨hst.1, fun p hsk => ?_⟩ (.of_none hrep) ?_
    · exact (hst.2 p hsk).imp_right fun h => h.resolve_left (by simp [hreq])
    · intro hn
      have hc := (h.harmless hn).1
      simp only [Clear, hp] at hc
      exact hc

/-- `boundary` at the PC of a processor with nothing reported. -/
theorem CpuInv.checkBp (h : CpuInv t attached k arr) (hp : k.pos = .check) :
    CpuInv t attached (DebugTarget.checkBp k) arr := by
  have hwait : k.pos ≠ .parkWait := by simp [hp]
  have hrep : k.reportedBp = none :=
    reported_none h.reported (by simp [hp]) hwait (.inr (by simp [hp]))
  have hst := h.stage
  simp only [StageInv, hp] at hst
  obtain ⟨hcopy, hskip⟩ := hst
  unfold DebugTarget.checkBp
  split
  · rename_i hat
    refine h.goto (.rfl t) .report hwait (by simp) trivial (.of_none hrep) fun hn => ?_
    have hclear := (h.harmless hn).1
    simp only [Clear, hp] at hclear
    exact absurd (hclear hat.1) hat.2
  · rename_i hat
    refine h.move (.rfl t) hwait (by simp) rfl rfl rfl h.pc h.gen h.copied ⟨rfl, ?_⟩
      (.of_none hrep) fun _ => trivial
    intro _ a ha
    have hne : t.bps ≠ ∅ := Finset.ne_empty_of_mem ha
    have hk := hcopy.resolve_left hne
    constructor
    · rintro rfl
      have hhas : k.hasBp k.pc = true := by
        simp only [Cpu.hasBp, hk, List.contains_iff_mem, Finset.mem_sort]
        exact ha
      have hsk : k.skipPc = some k.pc := by
        by_contra hsk
        exact hat ⟨hhas, hsk⟩
      exact (hskip _ hsk).resolve_right hne
    · exact span_stage hk ha

/-- A turn of a parked processor. -/
theorem CpuInv.parkTurn (h : CpuInv t attached k arr) (hp : k.pos = .parkWait) :
    CpuInv t attached (t.parkTurn k) arr := by
  unfold DebugTarget.parkTurn
  split
  · exact h
  rename_i hgen
  split
  · rename_i hstay
    exact {
      parked := h.parked
      pc := h.pc
      seen := le_rfl
      gen := h.gen
      copied := h.copied
      stage := by simp [StageInv, hp]
      reported := h.reported
      stay := h.stay
      harmless hn := by
        have := ((h.harmless hn).2 hp).2
        rw [hstay] at this
        cases this }
  · rename_i hstay
    exact {
      parked := by simp
      pc := h.pc
      seen := le_rfl
      gen := h.gen
      copied := h.copied
      stage := by
        refine ⟨hstay, fun _ p hsk => ?_⟩
        dsimp only at hsk
        split at hsk
        · exact (h.reported p hsk).2.1
        · cases hsk
      reported := .of_none rfl
      stay hs := absurd hs hstay
      harmless hn := by
        refine ⟨?_, fun hw => by cases hw⟩
        simp [Clear, ((h.harmless hn).2 hp).2] }

end CpuStep

section OwnStep

variable {t : DebugTarget n} {i : Fin n} {arr : Option Nat} {attached : Bool}

theorem setCpu_asked (k : Cpu) : Asked t (t.setCpu i k) := ⟨rfl, rfl, rfl, id⟩

theorem requestStop_asked (cpu signal : Nat) (swbreak : Bool) :
    Asked t (t.requestStop cpu signal swbreak) := by
  unfold DebugTarget.requestStop
  split
  · exact .rfl t
  · exact ⟨rfl, rfl, rfl, fun _ => rfl⟩

theorem requestStop_stopReq (cpu signal : Nat) (swbreak : Bool) :
    (t.requestStop cpu signal swbreak).stopReq = true := by
  unfold DebugTarget.requestStop
  split
  · assumption
  · rfl

theorem requestStop_cpus (cpu signal : Nat) (swbreak : Bool) :
    (t.requestStop cpu signal swbreak).cpus = t.cpus := by
  unfold DebugTarget.requestStop
  split <;> rfl

theorem reportBp_asked : Asked t (t.reportBp i) := by
  unfold DebugTarget.reportBp
  dsimp only
  split
  · exact setCpu_asked _
  · exact ⟨rfl, rfl, rfl, fun _ => rfl⟩

theorem cpuStep_asked : Asked t (t.cpuStep i) := by
  unfold DebugTarget.cpuStep
  dsimp only
  split
  case h_6 => exact reportBp_asked
  case h_9 => exact .rfl t
  case h_11 =>
    obtain ⟨h1, h2, h3, h4⟩ := requestStop_asked (t := t) i.val kSigTrap false
    exact ⟨h1, h2, h3, h4⟩
  case h_12 | h_13 | h_14 => exact .rfl t
  all_goals exact setCpu_asked _

theorem setCpu_other {j : Fin n} (k : Cpu) (h : j ≠ i) : (t.setCpu i k).cpus j = t.cpus j :=
  Function.update_of_ne h _ _

@[simp] theorem setCpu_self (k : Cpu) : (t.setCpu i k).cpus i = k := Function.update_self _ _ _

theorem cpuStep_other {j : Fin n} (h : j ≠ i) : (t.cpuStep i).cpus j = t.cpus j := by
  unfold DebugTarget.cpuStep
  dsimp only
  split
  case h_6 =>
    unfold DebugTarget.reportBp
    dsimp only
    split
    · exact setCpu_other _ h
    · exact setCpu_other _ h
  case h_9 | h_12 | h_13 | h_14 => rfl
  case h_11 => rw [setCpu_other _ h, requestStop_cpus]
  all_goals exact setCpu_other _ h

/-- A step of a processor keeps its own invariant. -/
theorem CpuInv.cpuStep (h : CpuInv t attached (t.cpus i) arr)
    (hidle : attached = false → t.stopReq = false ∧ t.bps = ∅)
    (hon : attached = true → (t.cpus i).debugOn = true) :
    CpuInv (t.cpuStep i) attached ((t.cpuStep i).cpus i)
      (if (t.cpus i).pos = .report ∧ t.stopReq = false then some (t.cpus i).pc else arr) := by
  have hasked := cpuStep_asked (t := t) (i := i)
  have hclear : attached = false → Clear (t.cpus i) := fun hn => (h.harmless hn).1
  cases hp : (t.cpus i).pos with
  | unstarted => simpa [DebugTarget.cpuStep, hp] using h
  | free => simpa [DebugTarget.cpuStep, hp] using h
  | run m => simpa [DebugTarget.cpuStep, hp] using h
  | dispatch =>
    rw [if_neg (by simp)]
    simp only [DebugTarget.cpuStep, hp] at hasked ⊢
    rw [setCpu_self]
    exact (h.dispatch hp hidle hon).mono hasked
  | loadGen =>
    rw [if_neg (by simp)]
    simp only [DebugTarget.cpuStep, hp] at hasked ⊢
    rw [setCpu_self]
    exact (h.loadGen hp hidle).mono hasked
  | copyBps =>
    rw [if_neg (by simp)]
    simp only [DebugTarget.cpuStep, hp] at hasked ⊢
    rw [setCpu_self]
    exact (h.copyBps hp hidle).mono hasked
  | loadStop =>
    rw [if_neg (by simp)]
    simp only [DebugTarget.cpuStep, hp] at hasked ⊢
    rw [setCpu_self]
    exact (h.loadStop hp hidle).mono hasked
  | check =>
    rw [if_neg (by simp)]
    simp only [DebugTarget.cpuStep, hp] at hasked ⊢
    rw [setCpu_self]
    exact (h.checkBp hp).mono hasked
  | report =>
    have hnone := reported_none h.reported (by simp [hp]) (by simp [hp]) (.inr (by simp [hp]))
    have hfalse : attached = false → False := fun hn => by simpa [Clear, hp] using hclear hn
    simp only [DebugTarget.cpuStep, hp] at hasked ⊢
    unfold DebugTarget.reportBp at hasked ⊢
    -- asked to stop already, it goes to park; else it is the one that asks
    cases hreq : t.stopReq with
    | true =>
      simp only [hreq, if_true] at hasked ⊢
      rw [setCpu_self, if_neg (by simp)]
      exact h.goto hasked .loadGen (by simp [hp]) (by simp) (fun _ _ => .inr (.inl hreq))
        (.of_none hnone) fun hn => (hfalse hn).elim
    | false =>
      simp only [hreq, Bool.false_eq_true, if_false] at hasked ⊢
      rw [setCpu_self, if_pos (by simp)]
      refine h.move hasked (by simp [hp]) (by simp) rfl rfl rfl h.pc h.gen h.copied
        (fun _ _ => .inr (.inl rfl)) ?_ fun hn => (hfalse hn).elim
      intro p hr
      cases hr
      exact ⟨rfl, rfl, .inr ⟨rfl, .inl rfl⟩⟩
  | park =>
    have hfalse : attached = false → False := fun hn => by simpa [Clear, hp] using hclear hn
    simp only [DebugTarget.cpuStep, hp]
    rw [setCpu_self, if_neg (by simp)]
    exact {
      parked := by simp
      pc := h.pc
      seen := le_rfl
      gen := h.gen
      copied := h.copied
      stage := trivial
      reported p hr := ⟨(h.reported p hr).1, (h.reported p hr).2.1, .inl (.inr rfl)⟩
      stay _ := rfl
      harmless hn := (hfalse hn).elim }
  | parkWait =>
    rw [if_neg (by simp)]
    simp only [DebugTarget.cpuStep, hp] at hasked ⊢
    rw [setCpu_self]
    exact (h.parkTurn hp).mono hasked
  | released act =>
    have hnone := reported_none h.reported (by simp [hp]) (by simp [hp]) (.inr (by simp [hp]))
    have hst := h.stage
    simp only [StageInv, hp] at hst
    rw [if_neg (by simp)]
    cases act with
    | Stay => exact absurd rfl hst.1
    | Step => simpa [DebugTarget.cpuStep, hp] using h
    | Continue =>
      simp only [DebugTarget.cpuStep, hp] at hasked ⊢
      rw [setCpu_self]
      exact h.goto hasked .loadGen (by simp [hp]) (by simp) (fun p hsk => .inl (hst.2 rfl p hsk))
        (.of_none hnone) fun _ => trivial
  | stepped =>
    have hnone := reported_none h.reported (by simp [hp]) (by simp [hp]) (.inr (by simp [hp]))
    have hfalse : attached = false → False := fun hn => by simpa [Clear, hp] using hclear hn
    rw [if_neg (by simp)]
    simp only [DebugTarget.cpuStep, hp] at hasked ⊢
    rw [setCpu_self]
    refine h.goto hasked .loadGen (by simp [hp]) (by simp) (fun _ _ => .inr (.inl ?_))
      (.of_none hnone) fun hn => (hfalse hn).elim
    exact requestStop_stopReq _ _ _

end OwnStep

/-! ## Executing -/

theorem start_asked {t : DebugTarget n} (j : Fin n) : Asked t (t.start j) := by
  unfold DebugTarget.start
  split
  · exact setCpu_asked _
  · exact .rfl t

theorem start_cpus {t : DebugTarget n} (j i : Fin n) :
    (t.start j).cpus i = t.cpus i ∨
      i = j ∧ (t.cpus i).pos = .unstarted ∧
        (t.start j).cpus i = { t.cpus i with pos := .dispatch } := by
  unfold DebugTarget.start
  split
  · rename_i hp
    by_cases hij : i = j
    · subst hij
      exact .inr ⟨rfl, hp, setCpu_self _⟩
    · exact .inl (setCpu_other _ hij)
  · exact .inl rfl

/-- A processor the console has started keeps the invariant. -/
theorem CpuInv.started {t : DebugTarget n} {k : Cpu} {arr : Option Nat} {attached : Bool}
    (h : CpuInv t attached k arr) (hp : k.pos = .unstarted) :
    CpuInv t attached { k with pos := .dispatch } arr := by
  have hst := h.stage
  simp only [StageInv, hp] at hst
  have hnone := reported_none h.reported (by simp [hp]) (by simp [hp]) (.inr (by simp [hp]))
  exact h.goto (.rfl t) .dispatch (by simp [hp]) (by simp) hst (.of_none hnone) fun _ => trivial

/-- The processor after it has executed the instruction at its PC. -/
def Cpu.executed (k : Cpu) (target : Option Nat) : Cpu :=
  { k with
    pc := match target with
      | some a => align a
      | none => (k.pc + 4) % 2 ^ 64
    pos := DebugTarget.afterExec target k.pos }

theorem executed_pc {k : Cpu} (h : k.pc = align k.pc) (target : Option Nat) :
    (k.executed target).pc = align (k.executed target).pc := by
  cases target with
  | some a => exact align_align a
  | none =>
    have h4 := align_mod k.pc
    rw [← h] at h4
    refine align_of ?_ (Nat.mod_lt _ (by decide))
    show (k.pc + 4) % 2 ^ 64 % 4 = 0
    omega

/-- What a processor may still run after an instruction has no breakpoint it has not reported. -/
theorem run_stage {t : DebugTarget n} {k : Cpu} {arr : Option Nat} {m : Nat}
    (hpc : k.pc = align k.pc) (hp : k.pos = .run (m + 1)) (hst : StageInv t k arr)
    (hwrap : k.pc + 4 = 2 ^ 64 → ∀ b ∈ t.bps, 4 * m ≤ b) (hm : m ≠ 0) {a : Nat} (ha : a ∈ t.bps) :
    a ≠ (k.pc + 4) % 2 ^ 64 ∧ (a < (k.pc + 4) % 2 ^ 64 ∨ (k.pc + 4) % 2 ^ 64 + 4 * m ≤ a) := by
  have h4 := align_mod k.pc
  have hlt := align_lt k.pc
  rw [← hpc] at h4 hlt
  simp only [StageInv, hp] at hst
  obtain ⟨hat, hoff⟩ := hst.2 (by omega) a ha
  by_cases hend : k.pc + 4 = 2 ^ 64
  · have := hwrap hend a ha
    rw [hend, Nat.mod_self]
    omega
  · rw [Nat.mod_eq_of_lt (by omega)]
    by_cases hne : a = k.pc
    · omega
    · have := hoff hne
      omega

theorem CpuInv.executed {t : DebugTarget n} {k : Cpu} {arr : Option Nat} {attached : Bool}
    (h : CpuInv t attached k arr) (hx : DebugTarget.executes k.pos = true) {target : Option Nat}
    (hwrap : target = none → k.pc + 4 = 2 ^ 64 →
      ∀ m, k.pos = .run (m + 1) → ∀ b ∈ t.bps, 4 * m ≤ b) :
    CpuInv t attached (k.executed target) none := by
  have hst := h.stage
  have hpc := executed_pc h.pc target
  cases hp : k.pos with
  | free =>
    have hnone := reported_none h.reported (by simp [hp]) (by simp [hp]) (.inr (by simp [hp]))
    have hpos : (k.executed target).pos = .free := by
      simp [Cpu.executed, DebugTarget.afterExec, hp]
    simp only [StageInv, hp] at hst
    refine h.move (.rfl t) (by simp [hp]) (by simp [hpos]) rfl rfl rfl hpc h.gen h.copied ?_
      (.of_none hnone) fun _ => by simp [Clear, hpos]
    rw [StageInv, hpos]
    exact hst
  | released act =>
    obtain rfl : act = .Step := by
      cases act with
      | Step => rfl
      | Stay => simp [DebugTarget.executes, hp] at hx
      | Continue => simp [DebugTarget.executes, hp] at hx
    have hnone := reported_none h.reported (by simp [hp]) (by simp [hp]) (.inr (by simp [hp]))
    have hpos : (k.executed target).pos = .stepped := by
      simp [Cpu.executed, DebugTarget.afterExec, hp]
    refine h.move (.rfl t) (by simp [hp]) (by simp [hpos]) rfl rfl rfl hpc h.gen h.copied
      (by simp [StageInv, hpos]) (.of_none hnone) fun hn => ?_
    simpa [Clear, hp] using (h.harmless hn).1
  | run m =>
    obtain _ | m := m
    · simp [DebugTarget.executes, hp] at hx
    have hnone := reported_none h.reported (by simp [hp]) (by simp [hp]) (.inr (by simp [hp]))
    cases target with
    | some a =>
      have hpos : (k.executed (some a)).pos = .run 0 := by
        simp [Cpu.executed, DebugTarget.afterExec, hp]
      refine h.move (.rfl t) (by simp [hp]) (by simp [hpos]) rfl rfl rfl hpc h.gen h.copied ?_
        (.of_none hnone) fun _ => by simp [Clear, hpos]
      simp only [StageInv, hp] at hst
      rw [StageInv, hpos]
      exact ⟨hst.1, fun h => absurd rfl h⟩
    | none =>
      have hpos : (k.executed none).pos = .run m := by
        simp [Cpu.executed, DebugTarget.afterExec, hp]
      refine h.move (.rfl t) (by simp [hp]) (by simp [hpos]) rfl rfl rfl hpc h.gen h.copied ?_
        (.of_none hnone) fun _ => by simp [Clear, hpos]
      rw [StageInv, hpos]
      have hskip := hst
      simp only [StageInv, hp] at hskip
      refine ⟨hskip.1, fun hm a ha => ?_⟩
      obtain ⟨hne, hahead⟩ :=
        run_stage h.pc hp hst (fun hend => hwrap rfl hend m hp) hm ha
      exact ⟨fun he => absurd he hne, fun _ => hahead⟩
  | _ => simp [DebugTarget.executes, hp] at hx

/-! ## The debugger's changes to a processor -/

/-- Watching a processor changes nothing the invariant of a processor speaks of. -/
theorem CpuInv.watch {t : DebugTarget n} {k : Cpu} {arr : Option Nat} {attached : Bool}
    (h : CpuInv t attached k arr) : CpuInv t attached { k with debugOn := true } arr :=
  ⟨h.parked, h.pc, h.seen, h.gen, h.copied, h.stage, h.reported, h.stay, h.harmless⟩

/-- With a debugger attached less is asked of a processor. -/
theorem CpuInv.attached {t : DebugTarget n} {k : Cpu} {arr : Option Nat} {attached : Bool}
    (h : CpuInv t attached k arr) : CpuInv t true k arr :=
  ⟨h.parked, h.pc, h.seen, h.gen, h.copied, h.stage, h.reported, h.stay, fun hn => by cases hn⟩

/-- Nothing is asked of a parked processor's place. -/
theorem StageInv.parked {t t' : DebugTarget n} {k k' : Cpu} {arr : Option Nat} {P : Prop}
    (h : StageInv t k arr) (hq : k.pos = .parkWait ∧ P ∨ k.pos = .unstarted)
    (hpos : k'.pos = k.pos) (hskip : k'.skipPc = k.skipPc) : StageInv t' k' arr := by
  unfold StageInv at h ⊢
  rw [hpos]
  rcases hq with ⟨hp, -⟩ | hp
  · rw [hp]
    trivial
  · rw [hp] at h ⊢
    exact hskip.trans h

/-- With no breakpoints a processor's place needs only what it says about the one to skip. -/
theorem StageInv.detach {t : DebugTarget n} {k : Cpu} {arr : Option Nat} (h : StageInv t k arr)
    {t' : DebugTarget n} (ht : t'.bps = ∅) {k' : Cpu} (hpos : k'.pos = k.pos)
    (hskip : k'.skipPc = k.skipPc) : StageInv t' k' arr := by
  unfold StageInv at h ⊢
  rw [hpos]
  split at h
  · exact hskip.trans h
  · exact hskip.trans h
  · exact ⟨ht, hskip.trans h.2⟩
  · exact fun _ _ => .inr (.inr ht)
  · exact fun _ _ => .inr (.inr ht)
  · exact ⟨.inl ht, fun _ _ => .inr (.inr ht)⟩
  · exact ⟨.inl ht, fun _ _ => .inr ht⟩
  · rw [hskip]
    exact h
  · refine ⟨hskip.trans h.1, fun _ a ha => ?_⟩
    rw [ht] at ha
    exact absurd ha (Finset.notMem_empty a)
  · trivial

/-! ## Runs -/

namespace DebugRun

/-- The invariant of a run. -/
structure RunInv (s : DebugRun n) : Prop where
  cpu : ∀ i, CpuInv s.t s.attached (s.t.cpus i) (s.arrived i)
  idle : s.attached = false → s.t.stopReq = false ∧ s.t.bps = ∅
  watched : s.attached = true → ∀ i, (s.t.cpus i).debugOn = true
  attaching : ∀ k stop, s.dbg = .attaching k stop →
    ∀ i : Fin n, i.val < k → (s.t.cpus i).debugOn = true
  halted : s.halted = true → s.t.stopReq = true ∧ ∀ i, s.t.quiescent (s.t.cpus i) = true
  detached : s.detached = true → s.attached = false ∧ s.dbg = .idle

/-- The steps that keep the run control safe. -/
def Settles (s : DebugRun n) (op : DebugOp n) : Prop :=
  s.CallOk op ∧
  match op with
  | .detach => ∀ i, Clear (s.t.cpus i)
  | .resume actions => ∀ i, DebugTarget.actionOf actions i = .Stay → (s.t.cpus i).parked = true
  | .exec i none _ => (s.t.cpus i).pc + 4 = 2 ^ 64 →
      ∀ m, (s.t.cpus i).pos = .run (m + 1) → ∀ b ∈ s.t.bps, 4 * m ≤ b
  | _ => True

section

variable {s : DebugRun n} {i : Fin n}

/-- A processor out of the way is parked or not started. -/
theorem quiescent_pos (h : RunInv s) (hq : s.t.quiescent (s.t.cpus i) = true) :
    (s.t.cpus i).pos = .parkWait ∧
      ((s.t.cpus i).seenGen = s.t.runGen ∨ (s.t.cpus i).action = .Stay) ∨
    (s.t.cpus i).pos = .unstarted := by
  simp only [DebugTarget.quiescent, Bool.or_eq_true, Bool.and_eq_true, beq_iff_eq] at hq
  exact hq.imp_left fun hq => ⟨(h.cpu i).parked.mp hq.1, hq.2⟩

theorem quiescent_idle (h : RunInv s) (hq : s.t.quiescent (s.t.cpus i) = true) :
    DebugTarget.executes (s.t.cpus i).pos = false := by
  rcases quiescent_pos h hq with ⟨hp, -⟩ | hp
  · rw [hp]
    rfl
  · rw [hp]
    rfl

/-- While the machine is stopped a processor's step changes nothing but the generation it has
seen. -/
theorem cpuStep_quiescent (h : RunInv s) (hq : s.t.quiescent (s.t.cpus i) = true) :
    (s.t.cpuStep i).quiescent ((s.t.cpuStep i).cpus i) = true := by
  rcases quiescent_pos h hq with ⟨hp, hgo⟩ | hp
  · have hpark := (h.cpu i).parked.mpr hp
    simp only [DebugTarget.cpuStep, hp, setCpu_self, DebugTarget.parkTurn]
    split
    · exact hq
    · rename_i hgen
      rw [if_pos (hgo.resolve_left hgen)]
      simp [DebugTarget.quiescent, DebugTarget.setCpu, hpark]
  · simpa [DebugTarget.cpuStep, hp] using hq

theorem quiescent_congr {t t' : DebugTarget n} (h : t'.runGen = t.runGen) (k : Cpu) :
    t'.quiescent k = t.quiescent k := by
  unfold DebugTarget.quiescent
  rw [h]

/-- No processor's step changes who is watched. -/
theorem cpuStep_debugOn {t : DebugTarget n} (i j : Fin n) :
    ((t.cpuStep i).cpus j).debugOn = (t.cpus j).debugOn := by
  by_cases hj : j = i
  · subst hj
    unfold DebugTarget.cpuStep
    dsimp only
    split
    case h_5 =>
      rw [setCpu_self]
      unfold DebugTarget.checkBp
      split <;> rfl
    case h_6 =>
      unfold DebugTarget.reportBp
      dsimp only
      split
      · rw [setCpu_self]
      · rw [setCpu_self]
    case h_8 =>
      rw [setCpu_self]
      unfold DebugTarget.parkTurn
      split
      · rfl
      · split <;> rfl
    case h_9 | h_12 | h_13 | h_14 => rfl
    all_goals rw [setCpu_self]
  · rw [cpuStep_other hj]

/-- Only a processor at a breakpoint or after a step asks for a stop. -/
theorem cpuStep_stopReq {t : DebugTarget n} (h : Clear (t.cpus i)) :
    (t.cpuStep i).stopReq = t.stopReq := by
  unfold DebugTarget.cpuStep
  dsimp only
  split
  case h_6 hp => simp [Clear, hp] at h
  case h_11 hp => simp [Clear, hp] at h
  all_goals rfl

theorem runInv_cpu (h : RunInv s) (i : Fin n) : RunInv (s.step (.cpu i)) where
  cpu j := by
    by_cases hj : j = i
    · subst hj
      have hown := (h.cpu j).cpuStep h.idle fun ha => h.watched ha j
      have harr : (s.step (.cpu j)).arrived j =
          if (s.t.cpus j).pos = .report ∧ s.t.stopReq = false then some (s.t.cpus j).pc
          else s.arrived j := by
        simp only [step]
        split
        · exact Function.update_self _ _ _
        · rfl
      rw [harr]
      exact hown
    · have harr : (s.step (.cpu i)).arrived j = s.arrived j := by
        simp only [step]
        split
        · exact Function.update_of_ne hj _ _
        · rfl
      rw [harr]
      show CpuInv (s.t.cpuStep i) s.attached ((s.t.cpuStep i).cpus j) (s.arrived j)
      rw [cpuStep_other hj]
      exact (h.cpu j).mono cpuStep_asked
  idle hn := by
    obtain ⟨hreq, hbps⟩ := h.idle hn
    exact ⟨(cpuStep_stopReq ((h.cpu i).harmless hn).1).trans hreq, cpuStep_asked.bps.trans hbps⟩
  watched ha j := (cpuStep_debugOn i j).trans (h.watched ha j)
  attaching k stop hd j hj := (cpuStep_debugOn i j).trans (h.attaching k stop hd j hj)
  halted hh := by
    obtain ⟨hreq, hq⟩ := h.halted hh
    refine ⟨cpuStep_asked.stopReq hreq, fun j => ?_⟩
    by_cases hj : j = i
    · subst hj
      exact cpuStep_quiescent h (hq j)
    · show (s.t.cpuStep i).quiescent ((s.t.cpuStep i).cpus j) = true
      rw [cpuStep_other hj, quiescent_congr cpuStep_asked.runGen]
      exact hq j
  detached := h.detached

/-- Processor `j` after `i` has executed an instruction. -/
theorem exec_cpus {t : DebugTarget n} {i : Fin n} (target : Option Nat) (starts : Option (Fin n))
    (hx : DebugTarget.executes (t.cpus i).pos = true) (j : Fin n) :
    j = i ∧ (t.exec i target starts).cpus j = (t.cpus i).executed target ∨
    j ≠ i ∧ ((t.exec i target starts).cpus j = t.cpus j ∨ (t.cpus j).pos = .unstarted ∧
      (t.exec i target starts).cpus j = { t.cpus j with pos := .dispatch }) := by
  have hself : ((t.setCpu i ((t.cpus i).executed target)).cpus i) = (t.cpus i).executed target :=
    setCpu_self _
  have hnot : ((t.cpus i).executed target).pos ≠ .unstarted := by
    unfold Cpu.executed DebugTarget.afterExec
    dsimp only
    split
    · simp
    · split <;> simp
    · intro hu
      simp [hu, DebugTarget.executes] at hx
  by_cases hj : j = i
  · subst hj
    refine .inl ⟨rfl, ?_⟩
    cases starts with
    | none => exact hself
    | some l =>
      rcases start_cpus (t := t.setCpu j ((t.cpus j).executed target)) l j with h | ⟨-, hu, -⟩
      · exact h.trans hself
      · rw [hself] at hu
        exact absurd hu hnot
  · refine .inr ⟨hj, ?_⟩
    have hother := setCpu_other (t := t) ((t.cpus i).executed target) hj
    cases starts with
    | none => exact .inl hother
    | some l =>
      rcases start_cpus (t := t.setCpu i ((t.cpus i).executed target)) l j with h | ⟨-, hu, h⟩
      · exact .inl (h.trans hother)
      · rw [hother] at hu h
        exact .inr ⟨hu, h⟩

theorem exec_asked {t : DebugTarget n} (i : Fin n) (target : Option Nat) (starts : Option (Fin n)) :
    Asked t (t.exec i target starts) := by
  cases starts with
  | none => exact setCpu_asked _
  | some l =>
    obtain ⟨h1, h2, h3, h4⟩ := start_asked (t := t.setCpu i ((t.cpus i).executed target)) l
    exact ⟨h1, h2, h3, h4⟩

theorem exec_stopReq {t : DebugTarget n} (i : Fin n) (target : Option Nat)
    (starts : Option (Fin n)) : (t.exec i target starts).stopReq = t.stopReq := by
  cases starts with
  | none => rfl
  | some l =>
    show ((t.setCpu i ((t.cpus i).executed target)).start l).stopReq = t.stopReq
    unfold DebugTarget.start
    split <;> rfl

theorem exec_debugOn {t : DebugTarget n} {i : Fin n} (target : Option Nat)
    (starts : Option (Fin n)) (hx : DebugTarget.executes (t.cpus i).pos = true) (j : Fin n) :
    ((t.exec i target starts).cpus j).debugOn = (t.cpus j).debugOn := by
  rcases exec_cpus target starts hx j with ⟨rfl, h⟩ | ⟨-, h | ⟨-, h⟩⟩
  all_goals rw [h]
  all_goals rfl

theorem runInv_exec (h : RunInv s) {target : Option Nat} {starts : Option (Fin n)}
    (hok : s.Settles (.exec i target starts)) : RunInv (s.step (.exec i target starts)) := by
  simp only [step]
  split
  swap
  · exact h
  rename_i hx
  -- a processor that executes is not quiescent, so the machine is not stopped
  have hgo : s.halted = false := by
    by_contra hh
    have := quiescent_idle h ((h.halted (by simpa using hh)).2 i)
    rw [hx] at this
    cases this
  have hasked := exec_asked (t := s.t) i target starts
  have hwrap : target = none → (s.t.cpus i).pc + 4 = 2 ^ 64 →
      ∀ m, (s.t.cpus i).pos = .run (m + 1) → ∀ b ∈ s.t.bps, 4 * m ≤ b := by
    rintro rfl
    exact hok.2
  exact {
    cpu j := by
      rcases exec_cpus target starts hx j with ⟨rfl, hj⟩ | ⟨hne, hj⟩
      · dsimp only
        rw [hj, Function.update_self]
        exact ((h.cpu j).executed hx hwrap).mono hasked
      · dsimp only
        rw [Function.update_of_ne hne]
        rcases hj with hj | ⟨hu, hj⟩
        · rw [hj]
          exact (h.cpu j).mono hasked
        · rw [hj]
          exact ((h.cpu j).started hu).mono hasked
    idle hn := ⟨(exec_stopReq i target starts).trans (h.idle hn).1, hasked.bps.trans (h.idle hn).2⟩
    watched ha j := (exec_debugOn target starts hx j).trans (h.watched ha j)
    attaching k stop hd j hj := (exec_debugOn target starts hx j).trans (h.attaching k stop hd j hj)
    halted hh := by simp [hgo] at hh
    detached := h.detached }

/-- A change of one processor's place, not parked before or after, that keeps its invariant. -/
theorem runInv_goto (h : RunInv s) (p : Pos)
    (hold : s.t.quiescent (s.t.cpus i) = false)
    (hcpu : CpuInv s.t s.attached { s.t.cpus i with pos := p } (s.arrived i)) :
    RunInv { s with t := s.t.setCpu i { s.t.cpus i with pos := p } } where
  cpu j := by
    by_cases hj : j = i
    · subst hj
      dsimp only
      rw [setCpu_self]
      exact hcpu.mono (setCpu_asked _)
    · dsimp only
      rw [setCpu_other _ hj]
      exact (h.cpu j).mono (setCpu_asked _)
  idle := h.idle
  watched ha j := by
    by_cases hj : j = i
    · subst hj
      dsimp only
      rw [setCpu_self]
      exact h.watched ha j
    · dsimp only
      rw [setCpu_other _ hj]
      exact h.watched ha j
  attaching k stop hd j hlt := by
    by_cases hj : j = i
    · subst hj
      dsimp only
      rw [setCpu_self]
      exact h.attaching k stop hd j hlt
    · dsimp only
      rw [setCpu_other _ hj]
      exact h.attaching k stop hd j hlt
  halted hh := by
    have := (h.halted hh).2 i
    rw [hold] at this
    cases this
  detached := h.detached

/-- A processor out of `boundary` is not out of the way. -/
theorem running_not_quiescent (h : RunInv s) (h1 : (s.t.cpus i).pos ≠ .parkWait)
    (h2 : (s.t.cpus i).pos ≠ .unstarted) : s.t.quiescent (s.t.cpus i) = false := by
  by_contra hq
  rcases quiescent_pos h (by simpa using hq) with ⟨hp, -⟩ | hp
  · exact h1 hp
  · exact h2 hp

theorem runInv_leave (h : RunInv s) (again : Bool) : RunInv (s.step (.leave i again)) := by
  have hst := (h.cpu i).stage
  show RunInv { s with t := s.t.leave i again }
  unfold DebugTarget.leave
  split
  · rename_i m hp
    simp only [StageInv, hp] at hst
    have hnone := reported_none (h.cpu i).reported (by simp [hp]) (by simp [hp])
      (.inr (by simp [hp]))
    refine runInv_goto h _ (running_not_quiescent h (by simp [hp]) (by simp [hp])) ?_
    cases again with
    | true =>
      exact (h.cpu i).goto (.rfl s.t) .loadGen (by simp [hp]) (by simp) (.of_none hst.1)
        (.of_none hnone) fun _ => trivial
    | false =>
      exact (h.cpu i).goto (.rfl s.t) .dispatch (by simp [hp]) (by simp) hst.1
        (.of_none hnone) fun _ => trivial
  · rename_i hp
    simp only [StageInv, hp] at hst
    have hnone := reported_none (h.cpu i).reported (by simp [hp]) (by simp [hp])
      (.inr (by simp [hp]))
    refine runInv_goto h _ (running_not_quiescent h (by simp [hp]) (by simp [hp])) ?_
    exact (h.cpu i).goto (.rfl s.t) .dispatch (by simp [hp]) (by simp) hst.2
      (.of_none hnone) fun _ => trivial
  · exact h

/-! ### The debugger's calls -/

/-- Asking for a stop. -/
theorem runInv_requestStop (h : RunInv s) (ha : s.attached = true) (cpu signal : Nat) :
    RunInv { s with t := s.t.requestStop cpu signal false } where
  cpu j := by
    dsimp only
    rw [requestStop_cpus]
    exact (h.cpu j).mono (requestStop_asked _ _ _)
  idle hn := by
    rw [ha] at hn
    cases hn
  watched _ j := by
    dsimp only
    rw [requestStop_cpus]
    exact h.watched ha j
  attaching k stop hd j hlt := by
    dsimp only
    rw [requestStop_cpus]
    exact h.attaching k stop hd j hlt
  halted hh := by
    refine ⟨requestStop_stopReq _ _ _, fun j => ?_⟩
    dsimp only
    rw [requestStop_cpus, quiescent_congr (requestStop_asked _ _ _).runGen]
    exact (h.halted hh).2 j
  detached := h.detached

theorem runInv_attachNext (h : RunInv s) : RunInv s.attachNext := by
  unfold attachNext
  split
  · exact h
  rename_i k stop hd
  split
  · rename_i hk
    -- one more processor watches: it alone is changed
    exact {
      cpu j := by
        by_cases hj : j = ⟨k, hk⟩
        · subst hj
          dsimp only
          rw [setCpu_self]
          exact ((h.cpu _).mono (setCpu_asked _)).watch
        · dsimp only
          rw [setCpu_other _ hj]
          exact (h.cpu j).mono (setCpu_asked _)
      idle := h.idle
      watched ha j := by
        by_cases hj : j = ⟨k, hk⟩
        · subst hj
          dsimp only
          rw [setCpu_self]
        · dsimp only
          rw [setCpu_other _ hj]
          exact h.watched ha j
      attaching l _ hl j hlt := by
        cases hl
        by_cases hj : j = ⟨k, hk⟩
        · subst hj
          dsimp only
          rw [setCpu_self]
        · dsimp only
          rw [setCpu_other _ hj]
          refine h.attaching k stop hd j ?_
          have hne : j.val ≠ k := fun he => hj (Fin.ext he)
          omega
      halted hh := by
        refine ⟨(h.halted hh).1, fun j => ?_⟩
        by_cases hj : j = ⟨k, hk⟩
        · subst hj
          dsimp only
          rw [setCpu_self]
          exact (h.halted hh).2 _
        · dsimp only
          rw [setCpu_other _ hj]
          exact (h.halted hh).2 j
      detached hdet := by
        rw [(h.detached hdet).2] at hd
        cases hd }
  · rename_i hk
    -- all watch, so the debugger is attached
    have hon : ∀ j, (s.t.cpus j).debugOn = true := fun j =>
      h.attaching k stop hd j (by omega)
    have hdone : RunInv { s with dbg := .idle, attached := true } := {
      cpu j := (h.cpu j).attached
      idle hn := by cases hn
      watched _ := hon
      attaching l _ hl := by cases hl
      halted := h.halted
      detached hdet := by
        rw [(h.detached hdet).2] at hd
        cases hd }
    cases stop with
    | true => exact runInv_requestStop hdone rfl 0 kSigTrap
    | false => exact hdone

/-- A stopped machine has a debugger. -/
theorem halted_attached (h : RunInv s) (hh : s.halted = true) : s.attached = true := by
  by_contra hn
  have := (h.idle (by simpa using hn)).1
  rw [(h.halted hh).1] at this
  cases this

/-- While the machine is stopped the breakpoints can change. -/
theorem runInv_setBreakpoint (h : RunInv s) (hh : s.halted = true) (addr : Nat) (on : Bool) :
    RunInv { s with t := s.t.setBreakpoint addr on } where
  cpu j := by
    have hj := h.cpu j
    have ha := halted_attached h hh
    exact {
      parked := hj.parked
      pc := hj.pc
      seen := hj.seen
      gen g hg := Nat.le_succ_of_le (hj.gen g hg)
      copied hg := absurd (hj.gen _ hg) (Nat.not_succ_le_self s.t.bpGen)
      stage := hj.stage.parked (quiescent_pos h ((h.halted hh).2 j)) rfl rfl
      reported := hj.reported
      stay := hj.stay
      harmless hn := by
        dsimp only at hn
        rw [ha] at hn
        cases hn }
  idle hn := by
    dsimp only at hn
    rw [halted_attached h hh] at hn
    cases hn
  watched := h.watched
  attaching := h.attaching
  halted := h.halted
  detached := h.detached

/-- A resume that tells only parked processors to stay. -/
theorem runInv_resume (h : RunInv s) (hh : s.halted = true) {actions : List Action}
    (hstay : ∀ i, DebugTarget.actionOf actions i = .Stay → (s.t.cpus i).parked = true) :
    RunInv { s with t := s.t.resume actions, halted := false, detached := false } := by
  have ha := halted_attached h hh
  obtain ⟨hcpus, hrun, hbps, hgen⟩ :
      (∀ i, (s.t.resume actions).cpus i =
        { s.t.cpus i with action := DebugTarget.actionOf actions i }) ∧
      (s.t.resume actions).runGen = s.t.runGen + 1 ∧ (s.t.resume actions).bps = s.t.bps ∧
      (s.t.resume actions).bpGen = s.t.bpGen := by
    unfold DebugTarget.resume
    dsimp only
    split
    · exact ⟨fun _ => rfl, rfl, rfl, rfl⟩
    · exact ⟨fun _ => rfl, rfl, rfl, rfl⟩
  exact {
    cpu j := by
      have hj := h.cpu j
      dsimp only
      rw [hcpus j]
      exact {
        parked := hj.parked
        pc := hj.pc
        seen := by
          rw [hrun]
          exact Nat.le_succ_of_le hj.seen
        gen := by
          rw [hgen]
          exact hj.gen
        copied := by
          rw [hgen, hbps]
          exact hj.copied
        stage := hj.stage.parked (quiescent_pos h ((h.halted hh).2 j)) rfl rfl
        reported p hr := by
          obtain ⟨h1, h2, h3⟩ := hj.reported p hr
          refine ⟨h1, h2, .inl ?_⟩
          rcases quiescent_pos h ((h.halted hh).2 j) with ⟨hp, -⟩ | hp
          · exact .inr hp
          · simp [hp] at h3
        stay hs := hj.parked.mp (hstay j hs)
        harmless hn := by
          rw [ha] at hn
          cases hn }
    idle hn := by
      dsimp only at hn
      rw [ha] at hn
      cases hn
    watched _ j := by
      dsimp only
      rw [hcpus j]
      exact h.watched ha j
    attaching k stop hd j hlt := by
      dsimp only
      rw [hcpus j]
      exact h.attaching k stop hd j hlt
    halted hn := by cases hn
    detached hn := by cases hn }

/-- A detach that finds no processor about to stop. -/
theorem runInv_detach (h : RunInv s) (hclear : ∀ i, Clear (s.t.cpus i)) (hd : s.dbg = .idle) :
    RunInv { s with t := s.t.detach, halted := false, attached := false, detached := true } where
  cpu j := by
    have hj := h.cpu j
    exact {
      parked := hj.parked
      pc := hj.pc
      seen := Nat.le_succ_of_le hj.seen
      gen g hg := Nat.le_succ_of_le (hj.gen g hg)
      copied hg := absurd (hj.gen _ hg) (Nat.not_succ_le_self s.t.bpGen)
      stage := hj.stage.detach rfl rfl rfl
      reported := .of_none rfl
      stay hs := by cases hs
      harmless _ := by
        refine ⟨hclear j, fun _ => ⟨fun he => ?_, rfl⟩⟩
        have hle := hj.seen
        have he' : (s.t.cpus j).seenGen = s.t.runGen + 1 := he
        omega }
  idle _ := ⟨rfl, rfl⟩
  watched hn := by cases hn
  attaching k stop hk := by
    dsimp only at hk
    rw [hd] at hk
    cases hk
  halted hn := by cases hn
  detached _ := ⟨rfl, hd⟩

theorem runInv_call (h : RunInv s) (hd : s.dbg = .idle) {op : DebugOp n} (hok : s.Settles op) :
    RunInv (s.call op) := by
  cases op with
  | attach stop =>
    exact {
      cpu := h.cpu
      idle := h.idle
      watched := h.watched
      attaching k _ hk i hlt := by
        cases hk
        exact absurd hlt (Nat.not_lt_zero _)
      halted := h.halted
      detached hn := by cases hn }
  | requestStop cpu signal => exact runInv_requestStop h hok.1 cpu signal
  | stopped =>
    show RunInv (if s.t.stopped then { s with halted := true } else s)
    split
    · rename_i hstop
      simp only [DebugTarget.stopped, Bool.and_eq_true, List.all_eq_true] at hstop
      exact {
        cpu := h.cpu
        idle := h.idle
        watched := h.watched
        attaching := h.attaching
        halted _ := ⟨hstop.1, fun i => hstop.2 i (List.mem_finRange i)⟩
        detached := h.detached }
    · exact h
  | setBreakpoint addr on => exact runInv_setBreakpoint h hok.1 addr on
  | resume actions => exact runInv_resume h hok.1 hok.2
  | detach => exact runInv_detach h hok.2 hd
  | cpu | exec | leave | attachNext => exact h

theorem runInv_step (s : DebugRun n) (op : DebugOp n) (h : RunInv s) (hok : s.Settles op) :
    RunInv (s.step op) := by
  cases op with
  | cpu i => exact runInv_cpu h i
  | exec i target starts => exact runInv_exec h hok
  | leave i again => exact runInv_leave h again
  | attachNext => exact runInv_attachNext h
  | _ =>
    simp only [step]
    split
    · rename_i hd
      exact runInv_call h hd hok
    · exact h

theorem runInv_start (s : DebugRun n) (h : Start s) : RunInv s where
  cpu i := by
    obtain ⟨hp, hon, hpk, hseen, hact, hrep, hgen, hbps, hskip, hpc⟩ := h.cpu i
    have hwait : (s.t.cpus i).pos ≠ .parkWait := by
      rcases hp with hp | hp
      · simp [hp]
      · simp [hp]
    exact {
      parked := by simp [hpk, hwait]
      pc := hpc
      seen := hseen.le
      gen g hg := by
        rw [hgen] at hg
        cases hg
      copied hg := by
        rw [hgen] at hg
        cases hg
      stage := by
        rcases hp with hp | hp
        · simpa [StageInv, hp] using hskip
        · simpa [StageInv, hp] using hskip
      reported := .of_none hrep
      stay hs := by
        rw [hact] at hs
        cases hs
      harmless _ := by
        refine ⟨?_, fun hw => absurd hw hwait⟩
        rcases hp with hp | hp
        · simp [Clear, hp]
        · simp [Clear, hp] }
  idle _ := ⟨h.stopReq, h.bps⟩
  watched ha := by
    rw [h.attached] at ha
    cases ha
  attaching k stop hd := by
    rw [h.dbg] at hd
    cases hd
  halted hh := by
    rw [h.halted] at hh
    cases hh
  detached hd := by
    rw [h.detached] at hd
    cases hd

end

/-! ## Safety -/

/-- A processor with no call in progress: out of `boundary`, or parked with nothing to let it go. -/
def Finished (t : DebugTarget n) (k : Cpu) : Prop :=
  match k.pos with
  | .unstarted | .dispatch | .free | .run _ => True
  | .parkWait => k.seenGen = t.runGen ∨ k.action = .Stay
  | _ => False

/-- What the run control is for. -/
structure Safe (s : DebugRun n) : Prop where
  stopped : s.halted = true → ∀ i, DebugTarget.executes (s.t.cpus i).pos = false
  stay : ∀ i, (s.t.cpus i).action = .Stay → DebugTarget.executes (s.t.cpus i).pos = false
  breakpoint : ∀ i, DebugTarget.executes (s.t.cpus i).pos = true → (s.t.cpus i).pc ∈ s.t.bps →
    s.arrived i = some (s.t.cpus i).pc ∨ (s.t.cpus i).pos = .released .Step
  detached : s.detached = true → (∀ i, Finished s.t (s.t.cpus i)) →
    s.t.stopReq = false ∧ ∀ i, (s.t.cpus i).parked = false

theorem RunInv.safe {s : DebugRun n} (h : RunInv s) : Safe s where
  stopped hh i := quiescent_idle h ((h.halted hh).2 i)
  stay i hs := by
    rw [(h.cpu i).stay hs]
    rfl
  breakpoint i hx hbp := by
    have hst := (h.cpu i).stage
    cases hp : (s.t.cpus i).pos with
    | free =>
      simp only [StageInv, hp] at hst
      rw [hst.1] at hbp
      exact absurd hbp (Finset.notMem_empty _)
    | released act =>
      cases act with
      | Step => exact .inr rfl
      | Stay => simp [DebugTarget.executes, hp] at hx
      | Continue => simp [DebugTarget.executes, hp] at hx
    | run m =>
      obtain _ | m := m
      · simp [DebugTarget.executes, hp] at hx
      · simp only [StageInv, hp] at hst
        exact .inl ((hst.2 (by simp) _ hbp).1 rfl)
    | _ => simp [DebugTarget.executes, hp] at hx
  detached hd hfin := by
    have hn := (h.detached hd).1
    refine ⟨(h.idle hn).1, fun i => ?_⟩
    by_contra hpk
    have hp := (h.cpu i).parked.mp (by simpa using hpk)
    obtain ⟨hseen, hact⟩ := ((h.cpu i).harmless hn).2 hp
    have := hfin i
    simp [Finished, hp, hseen, hact] at this

/-- In every run whose steps all settle, nothing executes while the machine is stopped, no
processor told to stay executes, no breakpoint is passed unreported, and a detach leaves no stop
asked for and nobody parked. -/
theorem debug_runs_safely {s : DebugRun n} (h : Lib.Reach Start Settles step s) : Safe s :=
  (Lib.Reach.inv runInv_start runInv_step h).safe

/-- A machine of one started processor at power-up. -/
def powerUp : DebugRun 1 where
  t := {
    cpus := fun _ => ⟨.dispatch, 0, false, false, 0, .Continue, none, 0, none, [], none⟩
    stopReq := false
    stop := ⟨0, 0, false⟩
    runGen := 0
    bps := ∅
    bpGen := 0 }
  dbg := .idle
  attached := false
  halted := false
  detached := false
  arrived := fun _ => none

theorem powerUp_start : Start powerUp := by
  refine ⟨rfl, rfl, rfl, rfl, fun _ => rfl, rfl, rfl, fun _ => ?_⟩
  exact ⟨.inr rfl, rfl, rfl, rfl, rfl, rfl, rfl, rfl, rfl, align_of rfl (by decide : 0 < 2 ^ 64)⟩

/-- The debugger attaches and stops the processor. -/
def stopIt : List (DebugOp 1) :=
  [.attach true, .attachNext, .attachNext, .cpu 0, .cpu 0, .cpu 0, .cpu 0, .cpu 0, .stopped]

/-- It sets a breakpoint, lets the processor go on and detaches. -/
def letGo : List (DebugOp 1) :=
  stopIt ++ [.setBreakpoint 4 true, .resume [.Continue], .cpu 0, .cpu 0, .detach]

theorem debug_runs_safely_letGo :
    (letGo.foldl step powerUp).detached = true ∧ Safe (letGo.foldl step powerUp) := by
  refine ⟨rfl, debug_runs_safely ((Lib.Reach.start powerUp_start).run letGo ?_)⟩
  refine ⟨⟨trivial, trivial⟩, ⟨trivial, trivial⟩, ⟨trivial, trivial⟩, ⟨trivial, trivial⟩,
    ⟨trivial, trivial⟩, ⟨trivial, trivial⟩, ⟨trivial, trivial⟩, ⟨trivial, trivial⟩,
    ⟨trivial, trivial⟩, ⟨rfl, trivial⟩, ⟨rfl, fun i => ?_⟩, ⟨trivial, trivial⟩,
    ⟨trivial, trivial⟩, ⟨trivial, fun i => ?_⟩, trivial⟩
  · rw [Subsingleton.elim i 0]
    exact fun _ => rfl
  · rw [Subsingleton.elim i 0]
    exact trivial

/-- It has the processor take a step, and detaches before the step is done. -/
def detachInStep : List (DebugOp 1) :=
  stopIt ++ [.resume [.Step], .cpu 0, .detach, .exec 0 none none, .cpu 0, .cpu 0, .cpu 0, .cpu 0,
    .cpu 0]

/-- A detach during a step: the step asks for a stop that nobody resumes. -/
theorem debug_detach_freezes :
    ¬ ∀ s : DebugRun 1, Lib.Reach Start CallOk step s → Safe s := by
  intro hall
  have hreach : Lib.Reach Start CallOk step (detachInStep.foldl step powerUp) := by
    refine (Lib.Reach.start powerUp_start).run detachInStep ?_
    exact ⟨trivial, trivial, trivial, trivial, trivial, trivial, trivial, trivial, trivial, rfl,
      trivial, trivial, trivial, trivial, trivial, trivial, trivial, trivial, trivial⟩
  have hfreed := (hall _ hreach).detached rfl fun i => by
    rw [Subsingleton.elim i 0]
    exact .inl rfl
  have hreq : (detachInStep.foldl step powerUp).t.stopReq = true := rfl
  rw [hfreed.1] at hreq
  cases hreq

end DebugRun

end Alphabox.Debug
