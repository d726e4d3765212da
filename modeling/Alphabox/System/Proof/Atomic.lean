import Alphabox.System.Proof.Inv

/-!
# `LDx_L` and `STx_C` are atomic in every run of safe steps

Each step keeps `Inv`: a processor's own step moves its program counter, and what the others see of
it is nothing, a store or a bump.
-/

namespace Alphabox.System

open Function (update)

variable {n : Nat} {κ : Type} {B : Board} {s s' : Sys n κ} {c c' : Fin n} {p : Pc}
  {a v e : BitVec 64} {bytes : Nat} {same held : Bool}

structure Inv (B : Board) (s : Sys n κ) : Prop where
  gate : GateInv B s
  lock : LockInv s
  probe : ∀ k, Probed B s (s.dma k)
  cpu : ∀ c, CpuInv B s c
  atomic : Atomic B s.log

theorem Atomic.cons {log : List (Event n)} (h : Atomic B log) {ev : Event n}
    (he : ∀ c a, ev = .stored c a →
      ¬ storedSince B c (B.line a) log ∧ ¬ dmaSince B c (B.line a) log) :
    Atomic B (ev :: log) := by
  intro later c a earlier hl
  cases later with
  | nil =>
    obtain ⟨rfl, rfl⟩ := List.cons.inj hl
    exact he c a rfl
  | cons ev' later =>
    obtain ⟨-, hl⟩ := List.cons.inj hl
    exact h later c a earlier hl

theorem inv_init (mem : Mem) : Inv B (Sys.init mem : Sys n κ) := by
  refine ⟨⟨?_, ?_, ?_, ?_, ?_⟩, ⟨?_, ?_⟩, fun k => trivial, fun c =>
    ⟨?_, ?_, ?_, ?_, ?_, ?_, ?_, ?_, ?_, ?_⟩, ?_⟩
  · simp [Sys.init, Pc.inGuard, Pc.addr]
  · exact fun k hk => absurd rfl hk
  · exact fun k _ hk => absurd rfl hk
  · exact fun k hk => by cases hk
  · exact fun k a m hr => by cases hr
  · exact fun c b hb => by cases hb
  · exact fun c _ b hb => by cases hb
  · exact fun _ => rfl
  · exact fun _ hs => by cases hs
  · exact fun a hw => by cases hw
  · exact fun hf => by cases hf
  · exact fun a hl => by cases hl
  · exact fun a hr => by cases hr
  · exact fun a hl => by cases hl
  · exact fun a hs => by cases hs
  · exact fun a hc => by cases hc
  · exact fun a hc => by cases hc
  · intro later c a earlier hl
    cases later <;> cases hl

/-! ## Steps of a processor -/

/-- A step of `c` that takes it to `p` and leaves the others' registers alone. -/
structure Moved (s s' : Sys n κ) (c : Fin n) (p : Pc) : Prop where
  pc : s'.pc = update s.pc c p
  dma : s'.dma = s.dma
  writer : s'.writer = s.writer
  lockFlags : ∀ c', c' ≠ c → s'.lockFlags c' = s.lockFlags c'
  lockAddress : ∀ c', c' ≠ c → s'.lockAddress c' = s.lockAddress c'
  llSeqSnap : ∀ c', c' ≠ c → s'.llSeqSnap c' = s.llSeqSnap c'

namespace Moved

theorem pc_self (h : Moved s s' c p) : s'.pc c = p := by rw [h.pc, Function.update_self]

theorem pc_of_ne (h : Moved s s' c p) (hne : c' ≠ c) : s'.pc c' = s.pc c' := by
  rw [h.pc, Function.update_of_ne hne]

theorem unseen (h : Moved s s' c p) (hne : c' ≠ c) : Unseen s s' c' :=
  ⟨h.pc_of_ne hne, h.lockAddress c' hne, h.llSeqSnap c' hne, fun hf => h.lockFlags c' hne ▸ hf⟩

/-- A processor that is not bumping is not what others wait for. -/
theorem pending (h : Moved s s' c p) (hb : (s.pc c).bumping = none) {c' : Fin n} {l : BitVec 64}
    (hp : Pending B s c' l) : Pending B s' c' l := by
  obtain ⟨c₁, a, hne, hbm, hl⟩ := hp
  have hc : c₁ ≠ c := by
    rintro rfl
    simp [hb] at hbm
  exact ⟨c₁, a, hne, h.pc_of_ne hc ▸ hbm, hl⟩

/-- Its own step does not change what a processor waits for. -/
theorem pending_self (h : Moved s s' c p) {l : BitVec 64} (hp : Pending B s c l) :
    Pending B s' c l := by
  obtain ⟨c₁, a, hne, hbm, hl⟩ := hp
  exact ⟨c₁, a, hne, h.pc_of_ne hne ▸ hbm, hl⟩

/-- The gate, where the step stays inside the guard or outside it. -/
theorem gate (h : Moved s s' c p) (hg : GateInv B s) (hr : s'.readers = s.readers)
    (ha : p.addr = (s.pc c).addr) : GateInv B s' := by
  have hin : p.inGuard B = (s.pc c).inGuard B := by rw [Pc.inGuard, Pc.inGuard, ha]
  exact hg.cpu h.dma h.writer h.pc (by rw [hr, hin]) fun hp => Or.inl (hin ▸ hp)

/-- A step that leaves the registers alone and goes on with the same access, or ends it. -/
theorem cpuInv (hm : Moved s s' c p) (h : CpuInv B s c) (hq : s'.llSeq = s.llSeq)
    (hl : s'.log = s.log) (hA : s'.lockAddress c = s.lockAddress c)
    (hs : s'.llSeqSnap c = s.llSeqSnap c) (hf : s'.lockFlags c = true → s.lockFlags c = true)
    (hstale : (s.pc c).stale = false) (hw : p.window = none) (hld : p.load = none)
    (hlg : p.loading = none) (hrec : p.recorded = none)
    (hst : p.storing = none ∨ p.storing = (s.pc c).storing) (hck : p.checked = none)
    (hcl : ∀ a, p.claimed = some a → a < B.dramSize) : CpuInv B s' c := by
  have hpc := hm.pc_self
  refine ⟨?_, ?_, ?_, ?_, ?_, ?_, ?_, ?_, ?_, ?_⟩
  · rw [hq, hl, hA, hs]
    exact fun _ => h.count hstale
  · rw [hl, hA]
    exact fun _ hss => (h.watch hstale hss).imp_right hm.pending_self
  · simp [hpc, hw]
  · rw [hl, hA]
    exact fun hfl => h.flagged (hf hfl)
  · simp [hpc, hlg]
  · simp [hpc, hrec]
  · simp [hpc, hld]
  · rw [hpc, hl, hA]
    rcases hst with hst | hst
    · simp [hst]
    · rw [hst]
      exact h.storing
  · simp [hpc, hck]
  · rw [hpc]
    exact hcl

end Moved

/-- A step of `c` in which it neither stores nor bumps. -/
theorem Inv.quiet (h : Inv B s) (hm : Moved s s' c p) (hgate : GateInv B s') (hlock : LockInv s')
    (hq : s'.llSeq = s.llSeq) (hb : (s.pc c).bumping = none)
    (hlog : s'.log = s.log ∨ (∃ a, s'.log = .read c a :: s.log) ∨ s'.log = .snap c :: s.log)
    (hflag : s'.lockFlags c = true → (s.lockFlags c = true ∧ s'.lockAddress c = s.lockAddress c) ∨
      (s.pc c).inGuard B = true ∨ NoAlias B (s'.lockAddress c))
    (hown : CpuInv B s' c) : Inv B s' := by
  refine ⟨hgate, hlock, Probed.cpu h.gate hm.dma h.probe
    (fun c' hne => ⟨hm.lockFlags c' hne, hm.lockAddress c' hne⟩) hflag, fun c' => ?_, ?_⟩
  · by_cases hc : c' = c
    · exact hc ▸ hown
    · have hne : c ≠ c' := Ne.symm hc
      refine (h.cpu c').quiet (hm.unseen hc) hq ?_ ?_ ?_ (fun l => hm.pending hb)
      · intro l hs
        rcases hlog with he | ⟨a, he⟩ | he <;> rw [he] at hs
        · exact hs
        · exact hs.2
        · exact hs
      · intro l hd
        rcases hlog with he | ⟨a, he⟩ | he <;> rw [he] at hd
        · exact hd
        · exact hd.2
        · exact hd
      · intro b
        rcases hlog with he | ⟨a, he⟩ | he <;> rw [he]
        · rfl
        · simp [bumpsSince, hne]
  · rcases hlog with he | ⟨a, he⟩ | he <;> rw [he]
    · exact h.atomic
    · exact h.atomic.cons fun _ _ hc => by cases hc
    · exact h.atomic.cons fun _ _ hc => by cases hc

/-! ### `LDx_L` -/

theorem inv_ldRead (h : Inv B s) (hp : s.pc c = .ldRead a bytes) :
    Inv B ((s.note (.read c a)).setPc c (.lockAddress a v)) := by
  have hm : Moved s ((s.note (.read c a)).setPc c (.lockAddress a v)) c (.lockAddress a v) :=
    ⟨rfl, rfl, rfl, fun _ _ => rfl, fun _ _ => rfl, fun _ _ => rfl⟩
  have hpc := hm.pc_self
  have hcpu := h.cpu c
  -- nothing has happened since a read that is only now
  have hs (l : BitVec 64) : ¬ storedSince B c l (.read c a :: s.log) := fun hs => hs.1 rfl
  have hd (l : BitVec 64) : ¬ dmaSince B c l (.read c a :: s.log) := fun hd => hd.1 rfl
  refine h.quiet hm (hm.gate h.gate rfl (by rw [hp]; rfl)) (h.lock.same rfl rfl (Or.inl rfl)) rfl
    (by rw [hp]; rfl) (Or.inr (Or.inl ⟨a, rfl⟩)) (fun hf => Or.inl ⟨hf, rfl⟩)
    ⟨fun _ => ?_, fun _ hss => absurd hss (hs _), fun _ _ hss => absurd hss (hs _),
      fun _ => hd _, fun _ _ => hd _, ?_, ?_, ?_, ?_, ?_⟩
  · exact hcpu.count (by rw [hp]; rfl)
  · simp [hpc, Pc.recorded]
  · rw [hpc]
    exact fun a' ha => hcpu.load a' (by rw [hp]; exact ha)
  · simp [hpc, Pc.storing]
  · simp [hpc, Pc.checked]
  · simp [hpc, Pc.claimed]

/-- The address of an `LDx_L` is in DRAM, under the guard, or decoded to no line of it. -/
theorem Inv.load_guarded (h : Inv B s) (hl : (s.pc c).load = some a) (ha : (s.pc c).addr = some a) :
    (s.pc c).inGuard B = true ∨ NoAlias B a := by
  refine ((h.cpu c).load a hl).imp_left fun hlt => ?_
  simp [Pc.inGuard, ha, hlt]

theorem inv_lockAddress (h : Inv B s) (hp : s.pc c = .lockAddress a v) :
    Inv B ({ s with lockAddress := update s.lockAddress c a }.setPc c (.lockValue a v)) := by
  have hm : Moved s ({ s with lockAddress := update s.lockAddress c a }.setPc c (.lockValue a v)) c
      (.lockValue a v) :=
    ⟨rfl, rfl, rfl, fun _ _ => rfl, fun _ hne => Function.update_of_ne hne _ _, fun _ _ => rfl⟩
  have hpc := hm.pc_self
  have hcpu := h.cpu c
  have hA : update s.lockAddress c a c = a := Function.update_self ..
  refine h.quiet hm (hm.gate h.gate rfl (by rw [hp]; rfl)) (h.lock.same rfl rfl (Or.inl rfl)) rfl
    (by rw [hp]; rfl) (Or.inl rfl) (fun _ => Or.inr ?_)
    ⟨?_, ?_, ?_, ?_, ?_, ?_, ?_, ?_, ?_, ?_⟩
  · have hg := h.load_guarded (c := c) (a := a) (by rw [hp]; rfl) (by rw [hp]; rfl)
    simpa only [Sys.setPc, hA] using hg
  · simp [hpc, Pc.stale]
  · simp [hpc, Pc.stale]
  · rw [hpc]
    exact fun a' hw hss => hm.pending_self (hcpu.window a' (by rw [hp]; exact hw) hss)
  · simp only [Sys.setPc, hA]
    exact fun _ => hcpu.loading a (by rw [hp]; rfl)
  · rw [hpc]
    exact fun a' hl => hcpu.loading a' (by rw [hp]; exact hl)
  · rw [hpc]
    exact fun a' ha => hA.trans (Option.some.inj ha)
  · rw [hpc]
    exact fun a' hl => hcpu.load a' (by rw [hp]; exact hl)
  · simp [hpc, Pc.storing]
  · simp [hpc, Pc.checked]
  · simp [hpc, Pc.claimed]

theorem inv_lockValue (h : Inv B s) (hp : s.pc c = .lockValue a v) :
    Inv B ({ s with lockValue := update s.lockValue c v }.setPc c (.lockSnap a)) := by
  have hm : Moved s ({ s with lockValue := update s.lockValue c v }.setPc c (.lockSnap a)) c
      (.lockSnap a) := ⟨rfl, rfl, rfl, fun _ _ => rfl, fun _ _ => rfl, fun _ _ => rfl⟩
  have hpc := hm.pc_self
  have hcpu := h.cpu c
  refine h.quiet hm (hm.gate h.gate rfl (by rw [hp]; rfl)) (h.lock.same rfl rfl (Or.inl rfl)) rfl
    (by rw [hp]; rfl) (Or.inl rfl) (fun hf => Or.inl ⟨hf, rfl⟩)
    ⟨?_, ?_, ?_, hcpu.flagged, ?_, ?_, ?_, ?_, ?_, ?_⟩
  · simp [hpc, Pc.stale]
  · simp [hpc, Pc.stale]
  · rw [hpc]
    exact fun a' hw hss => hm.pending_self (hcpu.window a' (by rw [hp]; exact hw) hss)
  · rw [hpc]
    exact fun a' hl => hcpu.loading a' (by rw [hp]; exact hl)
  · rw [hpc]
    exact fun a' ha => hcpu.recorded a' (by rw [hp]; exact ha)
  · rw [hpc]
    exact fun a' hl => hcpu.load a' (by rw [hp]; exact hl)
  · simp [hpc, Pc.storing]
  · simp [hpc, Pc.checked]
  · simp [hpc, Pc.claimed]

theorem inv_lockSnap (h : Inv B s) (hp : s.pc c = .lockSnap a) :
    Inv B (({ s with llSeqSnap := update s.llSeqSnap c (s.llSeq (bucket a)) }.note
      (.snap c)).setPc c (.lockFlag a)) := by
  have hm : Moved s (({ s with llSeqSnap := update s.llSeqSnap c (s.llSeq (bucket a)) }.note
      (.snap c)).setPc c (.lockFlag a)) c (.lockFlag a) :=
    ⟨rfl, rfl, rfl, fun _ _ => rfl, fun _ _ => rfl, fun _ hne => Function.update_of_ne hne _ _⟩
  have hpc := hm.pc_self
  have hcpu := h.cpu c
  have hA : s.lockAddress c = a := hcpu.recorded a (by rw [hp]; rfl)
  refine h.quiet hm (hm.gate h.gate rfl (by rw [hp]; rfl)) (h.lock.same rfl rfl (Or.inl rfl)) rfl
    (by rw [hp]; rfl) (Or.inr (Or.inr rfl)) (fun hf => Or.inl ⟨hf, rfl⟩)
    ⟨?_, ?_, ?_, hcpu.flagged, ?_, ?_, ?_, ?_, ?_, ?_⟩
  · intro _
    simp [Sys.setPc, Sys.note, bumpsSince, hA]
  · intro _ hss
    refine Or.inr (hm.pending_self ?_)
    simp only [Sys.setPc, Sys.note, hA] at hss ⊢
    exact hcpu.window a (by rw [hp]; rfl) hss
  · simp [hpc, Pc.window]
  · rw [hpc]
    exact fun a' hl => hcpu.loading a' (by rw [hp]; exact hl)
  · rw [hpc]
    exact fun a' ha => hcpu.recorded a' (by rw [hp]; exact ha)
  · rw [hpc]
    exact fun a' hl => hcpu.load a' (by rw [hp]; exact hl)
  · simp [hpc, Pc.storing]
  · simp [hpc, Pc.checked]
  · simp [hpc, Pc.claimed]

theorem inv_lockFlag (h : Inv B s) (hp : s.pc c = .lockFlag a) :
    Inv B ({ s with lockFlags := update s.lockFlags c true }.setPc c (.ldLeave a)) := by
  have hm : Moved s ({ s with lockFlags := update s.lockFlags c true }.setPc c (.ldLeave a)) c
      (.ldLeave a) :=
    ⟨rfl, rfl, rfl, fun _ hne => Function.update_of_ne hne _ _, fun _ _ => rfl, fun _ _ => rfl⟩
  have hpc := hm.pc_self
  have hcpu := h.cpu c
  have hA : s.lockAddress c = a := hcpu.recorded a (by rw [hp]; rfl)
  refine h.quiet hm (hm.gate h.gate rfl (by rw [hp]; rfl)) (h.lock.same rfl rfl (Or.inl rfl)) rfl
    (by rw [hp]; rfl) (Or.inl rfl) (fun _ => Or.inr ?_)
    ⟨fun _ => hcpu.count (by rw [hp]; rfl), ?_, ?_, ?_, ?_, ?_, ?_, ?_, ?_, ?_⟩
  · have hg := h.load_guarded (c := c) (a := a) (by rw [hp]; rfl) (by rw [hp]; rfl)
    simpa only [Sys.setPc, hA] using hg
  · exact fun _ hss => (hcpu.watch (by rw [hp]; rfl) hss).imp_right hm.pending_self
  · simp [hpc, Pc.window]
  · intro _
    simp only [Sys.setPc, hA]
    exact hcpu.loading a (by rw [hp]; rfl)
  · simp [hpc, Pc.loading]
  · simp [hpc, Pc.recorded]
  · simp [hpc, Pc.load]
  · simp [hpc, Pc.storing]
  · simp [hpc, Pc.checked]
  · simp [hpc, Pc.claimed]

/-! ### The guard -/

theorem GateInv.readers_pos (h : GateInv B s) (hg : (s.pc c).inGuard B = true) : 0 < s.readers := by
  have hle := Lib.le_sum s.pc (fun p => (p.inGuard B).toNat) c
  rw [h.readers]
  simp only [hg, Bool.toNat_true] at hle
  omega

/-- An access that is over. -/
theorem inv_leave (h : Inv B s) (ha : (s.pc c).addr = some a)
    (hb : (s.pc c).bumping = none) (hst : (s.pc c).stale = false) : Inv B (s.leave B c a) := by
  have hm : Moved s (s.leave B c a) c .idle :=
    ⟨rfl, rfl, rfl, fun _ _ => rfl, fun _ _ => rfl, fun _ _ => rfl⟩
  have hgd : (s.pc c).inGuard B = decide (a < B.dramSize) := by simp [Pc.inGuard, ha]
  have hgate : GateInv B (s.leave B c a) := by
    refine h.gate.cpu rfl rfl rfl ?_ fun hp => by cases hp
    simp only [Sys.leave, Sys.setPc, hgd]
    by_cases hlt : a < B.dramSize
    · have hpos := h.gate.readers_pos (c := c) (by simp [hgd, hlt])
      simp only [hlt, if_true, decide_true, Bool.toNat_true]
      have h0 : (Pc.idle.inGuard B).toNat = 0 := rfl
      omega
    · simp only [hlt, if_false, decide_false, Bool.toNat_false]
      rfl
  exact h.quiet hm hgate (h.lock.same rfl rfl (Or.inl rfl)) rfl hb (Or.inl rfl)
    (fun hf => Or.inl ⟨hf, rfl⟩)
    (hm.cpuInv (h.cpu c) rfl rfl rfl rfl id hst rfl rfl rfl rfl (Or.inl rfl) rfl (fun _ hx => by cases hx))

/-- An access that begins. -/
theorem inv_enter (h : Inv B s) (hi : s.pc c = .idle) (ha : p.addr = some a)
    (hh : p.holds = none) (hw : p.window = none) (hlg : p.loading = none)
    (hrec : p.recorded = none) (hld : ∀ a', p.load = some a' → a' < B.dramSize ∨ NoAlias B a')
    (hsto : p.storing = none) (hck : p.checked = none) (hcl : p.claimed = none) :
    Inv B (s.enter B c a p) := by
  have hgd : p.inGuard B = decide (a < B.dramSize) := by simp [Pc.inGuard, ha]
  have hig : (s.pc c).inGuard B = false := by rw [hi]; rfl
  have key {s' : Sys n κ} (hm : Moved s s' c p) (hg : GateInv B s') (hl : s'.llLock = s.llLock)
      (hq : s'.llSeq = s.llSeq) (hlog : s'.log = s.log) (hf : s'.lockFlags = s.lockFlags)
      (hA : s'.lockAddress = s.lockAddress) (hs : s'.llSeqSnap = s.llSeqSnap) : Inv B s' := by
    have hpc := hm.pc_self
    have hcpu := h.cpu c
    refine h.quiet hm hg (h.lock.same hl hm.pc (Or.inl hh)) hq (by rw [hi]; rfl) (Or.inl hlog)
      (fun hfl => Or.inl ⟨hf ▸ hfl, by rw [hA]⟩) ⟨?_, ?_, ?_, ?_, ?_, ?_, ?_, ?_, ?_, ?_⟩
    · rw [hq, hlog, hA, hs]
      exact fun _ => hcpu.count (by rw [hi]; rfl)
    · rw [hlog, hA]
      exact fun _ hss => (hcpu.watch (by rw [hi]; rfl) hss).imp_right hm.pending_self
    · simp [hpc, hw]
    · rw [hf, hA, hlog]
      exact hcpu.flagged
    · simp [hpc, hlg]
    · simp [hpc, hrec]
    · rw [hpc]
      exact hld
    · simp [hpc, hsto]
    · simp [hpc, hck]
    · simp [hpc, hcl]
  rw [Sys.enter]
  split
  · rename_i hlt
    split
    · exact h
    · rename_i hfree
      have hwr : s.writer = false := by
        by_contra hw
        exact hfree (Or.inl (by simpa using hw))
      have hm : Moved s ({ s with readers := s.readers + 1 }.setPc c p) c p :=
        ⟨rfl, rfl, rfl, fun _ _ => rfl, fun _ _ => rfl, fun _ _ => rfl⟩
      refine key hm (h.gate.cpu rfl rfl rfl ?_ fun _ => Or.inr hwr) rfl rfl rfl rfl rfl rfl
      simp [Sys.setPc, hig, hgd, hlt]
  · rename_i hlt
    have hm : Moved s (s.setPc c p) c p :=
      ⟨rfl, rfl, rfl, fun _ _ => rfl, fun _ _ => rfl, fun _ _ => rfl⟩
    refine key hm (h.gate.cpu rfl rfl rfl ?_ fun hp => ?_) rfl rfl rfl rfl rfl rfl
    · simp [Sys.setPc, hig, hgd, hlt]
    · simp [hgd, hlt] at hp

/-! ### `STx_C` -/

theorem inv_stTest (h : Inv B s) {intervened : Bool} (hp : s.pc c = .stTest a bytes v intervened)
    (hheld : held = true → a &&& cpuLockIoMask ≠ 0 ∨
      (s.lockFlags c = true ∧ B.cpuLockMatches (s.lockAddress c) a = true)) :
    Inv B (s.setPc c (.stTake a bytes v held)) := by
  have hm : Moved s (s.setPc c (.stTake a bytes v held)) c (.stTake a bytes v held) :=
    ⟨rfl, rfl, rfl, fun _ _ => rfl, fun _ _ => rfl, fun _ _ => rfl⟩
  have hpc := hm.pc_self
  have hcpu := h.cpu c
  refine h.quiet hm (hm.gate h.gate rfl (by rw [hp]; rfl)) (h.lock.same rfl rfl (Or.inl rfl)) rfl
    (by rw [hp]; rfl) (Or.inl rfl) (fun hf => Or.inl ⟨hf, rfl⟩)
    ⟨fun _ => hcpu.count (by rw [hp]; rfl), ?_, ?_, hcpu.flagged, ?_, ?_, ?_, ?_, ?_, ?_⟩
  · exact fun _ hss => (hcpu.watch (by rw [hp]; rfl) hss).imp_right hm.pending_self
  · simp [hpc, Pc.window]
  · simp [hpc, Pc.loading]
  · simp [hpc, Pc.recorded]
  · simp [hpc, Pc.load]
  · rw [hpc]
    intro a' hst hlt
    cases held with
    | false => cases hst
    | true =>
      obtain rfl : a = a' := Option.some.inj hst
      rcases hheld rfl with hio | ⟨hf, hmt⟩
      · exact absurd (Board.dram_not_io hlt) hio
      · have hl := Board.cpuLockMatches_iff.mp hmt
        exact ⟨hl, hl ▸ hcpu.flagged hf⟩
  · simp [hpc, Pc.checked]
  · simp [hpc, Pc.claimed]

theorem inv_stTake (h : Inv B s) (hp : s.pc c = .stTake a bytes v held)
    (hq : (∃ e same, p = .stLock a bytes v e same) ∧ held = true ∨ p = .stLeave a false) :
    Inv B ({ s with lockFlags := update s.lockFlags c false }.setPc c p) := by
  have hm : Moved s ({ s with lockFlags := update s.lockFlags c false }.setPc c p) c p :=
    ⟨rfl, rfl, rfl, fun _ hne => Function.update_of_ne hne _ _, fun _ _ => rfl, fun _ _ => rfl⟩
  have hf {P : Prop} (hf : update s.lockFlags c false c = true) : P := by simp at hf
  rcases hq with ⟨⟨e, same, rfl⟩, rfl⟩ | rfl
  · exact h.quiet hm (hm.gate h.gate rfl (by rw [hp]; rfl)) (h.lock.same rfl rfl (Or.inl rfl)) rfl
      (by rw [hp]; rfl) (Or.inl rfl) hf
      (hm.cpuInv (h.cpu c) rfl rfl rfl rfl hf (by rw [hp]; rfl) rfl rfl rfl rfl
        (Or.inr (by rw [hp]; rfl)) rfl (fun _ hx => by cases hx))
  · exact h.quiet hm (hm.gate h.gate rfl (by rw [hp]; rfl)) (h.lock.same rfl rfl (Or.inl rfl)) rfl
      (by rw [hp]; rfl) (Or.inl rfl) hf
      (hm.cpuInv (h.cpu c) rfl rfl rfl rfl hf (by rw [hp]; rfl) rfl rfl rfl rfl (Or.inl rfl) rfl
        (fun _ hx => by cases hx))

theorem inv_stLock (h : Inv B s) (hp : s.pc c = .stLock a bytes v e same)
    (ha : a < B.dramSize) (hf : s.llLock (bucket a) = false) :
    Inv B ({ s with llLock := update s.llLock (bucket a) true }.setPc c
      (.stCheck a bytes v e same)) := by
  have hm : Moved s ({ s with llLock := update s.llLock (bucket a) true }.setPc c
      (.stCheck a bytes v e same)) c (.stCheck a bytes v e same) :=
    ⟨rfl, rfl, rfl, fun _ _ => rfl, fun _ _ => rfl, fun _ _ => rfl⟩
  exact h.quiet hm (hm.gate h.gate rfl (by rw [hp]; rfl)) (h.lock.acquire hf rfl rfl rfl) rfl
    (by rw [hp]; rfl) (Or.inl rfl) (fun hf => Or.inl ⟨hf, rfl⟩)
    (hm.cpuInv (h.cpu c) rfl rfl rfl rfl id (by rw [hp]; rfl) rfl rfl rfl rfl
      (Or.inr (by rw [hp]; rfl)) rfl fun _ hx => Option.some.inj hx ▸ ha)

/-- A store to I/O space. -/
theorem inv_stIo (h : Inv B s) (hp : s.pc c = .stLock a bytes v e same) (mem : Mem) :
    Inv B ({ s with mem }.setPc c (.stLeave a true)) := by
  have hm : Moved s ({ s with mem }.setPc c (.stLeave a true)) c (.stLeave a true) :=
    ⟨rfl, rfl, rfl, fun _ _ => rfl, fun _ _ => rfl, fun _ _ => rfl⟩
  exact h.quiet hm (hm.gate h.gate rfl (by rw [hp]; rfl)) (h.lock.same rfl rfl (Or.inl rfl)) rfl
    (by rw [hp]; rfl) (Or.inl rfl) (fun hf => Or.inl ⟨hf, rfl⟩)
    (hm.cpuInv (h.cpu c) rfl rfl rfl rfl id (by rw [hp]; rfl) rfl rfl rfl rfl (Or.inl rfl) rfl (fun _ hx => by cases hx))

/-- A check or a compare that fails. -/
theorem inv_stFail (h : Inv B s) (hp : s.pc c = .stCheck a bytes v e same ∨
    s.pc c = .stStore a bytes v e same) : Inv B (s.setPc c (.stUnlock a false)) := by
  have hm : Moved s (s.setPc c (.stUnlock a false)) c (.stUnlock a false) :=
    ⟨rfl, rfl, rfl, fun _ _ => rfl, fun _ _ => rfl, fun _ _ => rfl⟩
  rcases hp with hp | hp <;>
    exact h.quiet hm (hm.gate h.gate rfl (by rw [hp]; rfl))
      (h.lock.same rfl rfl (Or.inr (by rw [hp]; rfl))) rfl (by rw [hp]; rfl) (Or.inl rfl)
      (fun hf => Or.inl ⟨hf, rfl⟩)
      (hm.cpuInv (h.cpu c) rfl rfl rfl rfl id (by rw [hp]; rfl) rfl rfl rfl rfl (Or.inl rfl) rfl (fun _ hx => by cases hx))

/-- A sequence number that matches: nobody stored to the line since the read. -/
theorem inv_stCheck (h : Inv B s) (hp : s.pc c = .stCheck a bytes v e same)
    (hseq : s.llSeq (bucket a) = s.llSeqSnap c) (hwrap : bumpsSince c (bucket a) s.log < 2 ^ 32) :
    Inv B (s.setPc c (.stStore a bytes v e same)) := by
  have hm : Moved s (s.setPc c (.stStore a bytes v e same)) c (.stStore a bytes v e same) :=
    ⟨rfl, rfl, rfl, fun _ _ => rfl, fun _ _ => rfl, fun _ _ => rfl⟩
  have hpc := hm.pc_self
  have hcpu := h.cpu c
  have ha := hcpu.claimed a (by rw [hp]; rfl)
  obtain ⟨hline, hdma⟩ := hcpu.storing a (by rw [hp]; rfl) ha
  have hbk := Board.bucket_eq_of_line hline
  -- the bucket was not bumped since the snapshot
  have h0 : bumpsSince c (bucket a) s.log = 0 := by
    have hc := hcpu.count (by rw [hp]; rfl)
    rw [hbk, hseq] at hc
    have hz : BitVec.ofNat 32 (bumpsSince c (bucket a) s.log) = 0 := by
      simpa using hc.symm
    have hz' := congrArg BitVec.toNat hz
    rw [BitVec.toNat_ofNat, Nat.mod_eq_of_lt hwrap] at hz'
    exact hz'
  -- and who is about to bump it would have its lock
  have hclean : ¬ storedSince B c (B.line a) s.log := by
    intro hss
    rcases hcpu.watch (by rw [hp]; rfl) (hline ▸ hss) with hpos | ⟨c', a', hne, hbm, hl⟩
    · rw [hbk, h0] at hpos
      exact absurd hpos (Nat.lt_irrefl 0)
    · have hh' : (s.pc c').holds = some (bucket a) := by
        rw [← Board.bucket_eq_of_line (hl.trans hline)]
        revert hbm
        cases s.pc c' <;> simp [Pc.bumping, Pc.holds]
        rintro rfl
        rfl
      exact hne (h.lock.one c' c _ hh' (by rw [hp]; rfl))
  refine h.quiet hm (hm.gate h.gate rfl (by rw [hp]; rfl))
    (h.lock.same rfl rfl (Or.inr (by rw [hp]; rfl))) rfl
    (by rw [hp]; rfl) (Or.inl rfl) (fun hf => Or.inl ⟨hf, rfl⟩)
    ⟨fun _ => hcpu.count (by rw [hp]; rfl), ?_, ?_, hcpu.flagged, ?_, ?_, ?_, ?_, ?_, ?_⟩
  · exact fun _ hss => (hcpu.watch (by rw [hp]; rfl) hss).imp_right hm.pending_self
  · simp [hpc, Pc.window]
  · simp [hpc, Pc.loading]
  · simp [hpc, Pc.recorded]
  · simp [hpc, Pc.load]
  · rw [hpc]
    exact fun a' hst => hcpu.storing a' (by rw [hp]; exact hst)
  · rw [hpc]
    rintro a' hck
    obtain rfl : a = a' := Option.some.inj hck
    exact hclean
  · rw [hpc]
    exact fun a' hx => Option.some.inj hx ▸ ha

/-- The store of an `STx_C` that succeeds. -/
theorem inv_stStore (h : Inv B s) (hp : s.pc c = .stStore a bytes v e same) (mem : Mem) :
    Inv B (({ s with mem }.note (.stored c a)).setPc c (.stBump a)) := by
  have hm : Moved s (({ s with mem }.note (.stored c a)).setPc c (.stBump a)) c (.stBump a) :=
    ⟨rfl, rfl, rfl, fun _ _ => rfl, fun _ _ => rfl, fun _ _ => rfl⟩
  have hpc := hm.pc_self
  have hcpu := h.cpu c
  have hclean := hcpu.checked a (by rw [hp]; rfl)
  have ha := hcpu.claimed a (by rw [hp]; rfl)
  obtain ⟨-, hdma⟩ := hcpu.storing a (by rw [hp]; rfl) ha
  refine ⟨hm.gate h.gate rfl (by rw [hp]; rfl), h.lock.same rfl rfl (Or.inr (by rw [hp]; rfl)),
    Probed.cpu (c := c) h.gate rfl h.probe (fun _ _ => ⟨rfl, rfl⟩) (fun hf => Or.inl ⟨hf, rfl⟩),
    fun c' => ?_, h.atomic.cons ?_⟩
  · by_cases hc : c' = c
    · subst hc
      have hs (l : BitVec 64) (hss : storedSince B c' l (.stored c' a :: s.log)) :
          storedSince B c' l s.log := hss.resolve_left fun hx => hx.1 rfl
      refine ⟨fun _ => hcpu.count (by rw [hp]; rfl), ?_, ?_, hcpu.flagged, ?_, ?_, ?_, ?_, ?_, ?_⟩
      · exact fun _ hss => (hcpu.watch (by rw [hp]; rfl) (hs _ hss)).imp_right hm.pending_self
      · simp [hpc, Pc.window]
      · simp [hpc, Pc.loading]
      · simp [hpc, Pc.recorded]
      · simp [hpc, Pc.load]
      · simp [hpc, Pc.storing]
      · simp [hpc, Pc.checked]
      · simp [hpc, Pc.claimed]
    · refine (h.cpu c').store (hm.unseen hc) rfl rfl (Ne.symm hc) (by rw [hpc]; rfl)
        (fun l => hm.pending (by rw [hp]; rfl)) fun a' hck hb => hc ?_
      have hh' : (s.pc c').holds = some (bucket a) := by
        rw [← hb]
        revert hck
        cases s.pc c' <;> simp [Pc.checked, Pc.holds]
        rintro rfl
        rfl
      exact h.lock.one c' c _ hh' (by rw [hp]; rfl)
  · intro c' a' he
    obtain ⟨rfl, rfl⟩ := Event.stored.inj he
    exact ⟨hclean, hdma⟩

/-- Its bump, with no `LDx_L` of the line between read and snapshot that the store came in. -/
theorem inv_stBump (h : Inv B s) (hp : s.pc c = .stBump a)
    (hsafe : ∀ c' a', c' ≠ c → (s.pc c').window = some a' → B.line a' = B.line a →
      ¬ storedSince B c' (B.line a') s.log) :
    Inv B (({ s with llSeq := update s.llSeq (bucket a) (s.llSeq (bucket a) + 1) }.note
      (.bump c a)).setPc c (.stUnlock a true)) := by
  have hm : Moved s (({ s with llSeq := update s.llSeq (bucket a) (s.llSeq (bucket a) + 1) }.note
      (.bump c a)).setPc c (.stUnlock a true)) c (.stUnlock a true) :=
    ⟨rfl, rfl, rfl, fun _ _ => rfl, fun _ _ => rfl, fun _ _ => rfl⟩
  have hpc := hm.pc_self
  have hcpu := h.cpu c
  refine ⟨hm.gate h.gate rfl (by rw [hp]; rfl), h.lock.same rfl rfl (Or.inr (by rw [hp]; rfl)),
    Probed.cpu (c := c) h.gate rfl h.probe (fun _ _ => ⟨rfl, rfl⟩) (fun hf => Or.inl ⟨hf, rfl⟩),
    fun c' => ?_, h.atomic.cons fun _ _ he => by cases he⟩
  by_cases hc : c' = c
  · subst hc
    refine ⟨fun _ => count_bump rfl (hcpu.count (by rw [hp]; rfl)), ?_, ?_, hcpu.flagged, ?_, ?_,
      ?_, ?_, ?_, ?_⟩
    · intro _ hss
      refine (hcpu.watch (by rw [hp]; rfl) hss).imp (fun hpos => ?_) hm.pending_self
      simp only [Sys.setPc, Sys.note, bumpsSince]
      split
      · exact Nat.succ_pos _
      · exact hpos
    · rw [hpc]
      exact fun _ hx => by cases hx
    · rw [hpc]
      exact fun _ hx => by cases hx
    · rw [hpc]
      exact fun _ hx => by cases hx
    · rw [hpc]
      exact fun _ hx => by cases hx
    · rw [hpc]
      exact fun _ hx => by cases hx
    · rw [hpc]
      exact fun _ hx => by cases hx
    · rw [hpc]
      exact fun _ hx => by cases hx
  · exact (h.cpu c').bump (hm.unseen hc) rfl rfl (by rw [hp]; rfl) (fun _ => hm.pc_of_ne)
      fun a' hw hl => hsafe c' a' hc hw hl

theorem inv_stUnlock (h : Inv B s) {ok : Bool} (hp : s.pc c = .stUnlock a ok) :
    Inv B ({ s with llLock := update s.llLock (bucket a) false }.setPc c (.stLeave a ok)) := by
  have hm : Moved s ({ s with llLock := update s.llLock (bucket a) false }.setPc c (.stLeave a ok))
      c (.stLeave a ok) := ⟨rfl, rfl, rfl, fun _ _ => rfl, fun _ _ => rfl, fun _ _ => rfl⟩
  exact h.quiet hm (hm.gate h.gate rfl (by rw [hp]; rfl))
    (h.lock.release (by rw [hp]; rfl) rfl rfl rfl) rfl (by rw [hp]; rfl) (Or.inl rfl)
    (fun hf => Or.inl ⟨hf, rfl⟩)
    (hm.cpuInv (h.cpu c) rfl rfl rfl rfl id (by rw [hp]; rfl) rfl rfl rfl rfl (Or.inl rfl) rfl (fun _ hx => by cases hx))

/-- One step of a processor. -/
theorem inv_advance [DecidableEq κ] (h : Inv B s) (io : BitVec 64)
    (hsafe : Safe B s (.advance c io)) : Inv B (s.advance B c io) := by
  simp only [Safe] at hsafe
  rw [Sys.advance]
  cases hp : s.pc c with
  | idle => exact h
  | ldRead a bytes => exact inv_ldRead h hp
  | lockAddress a v => exact inv_lockAddress h hp
  | lockValue a v => exact inv_lockValue h hp
  | lockSnap a => exact inv_lockSnap h hp
  | lockFlag a => exact inv_lockFlag h hp
  | ldLeave a => exact inv_leave h (by rw [hp]; rfl) (by rw [hp]; rfl) (by rw [hp]; rfl)
  | stTest a bytes v intervened =>
    refine inv_stTest h hp fun hheld => ?_
    exact (of_decide_eq_true hheld).imp_right fun hx => hx.2
  | stTake a bytes v held =>
    dsimp only
    split
    · rename_i hheld
      exact inv_stTake h hp (Or.inl ⟨⟨_, _, rfl⟩, hheld⟩)
    · exact inv_stTake h hp (Or.inr rfl)
  | stLock a bytes v e same =>
    dsimp only
    split
    · exact inv_stIo h hp _
    · rename_i hlt
      split
      · exact h
      · rename_i hf
        exact inv_stLock h hp (BitVec.not_le.mp hlt) (by simpa using hf)
  | stCheck a bytes v e same =>
    simp only [hp] at hsafe
    dsimp only
    split
    · exact inv_stFail h (Or.inl hp)
    · rename_i hseq
      exact inv_stCheck h hp (not_not.mp hseq) hsafe
  | stStore a bytes v e same =>
    dsimp only
    split
    · exact inv_stFail h (Or.inr hp)
    · exact inv_stStore h hp _
  | stBump a =>
    simp only [hp] at hsafe
    exact inv_stBump h hp hsafe
  | stUnlock a ok => exact inv_stUnlock h hp
  | stLeave a ok => exact inv_leave h (by rw [hp]; rfl) (by rw [hp]; rfl) (by rw [hp]; rfl)

/-! ## Steps of a device -/

/-- Nothing a processor waits for or counts has changed. -/
theorem CpuInv.congr (h : CpuInv B s c) (hpc : s'.pc = s.pc) (hA : s'.lockAddress = s.lockAddress)
    (hs : s'.llSeqSnap = s.llSeqSnap) (hq : s'.llSeq = s.llSeq) (hlog : s'.log = s.log)
    (hf : s'.lockFlags c = true → s.lockFlags c = true) : CpuInv B s' c := by
  refine h.quiet ⟨by rw [hpc], by rw [hA], by rw [hs], hf⟩ hq ?_ ?_ ?_ ?_
  · rw [hlog]
    exact fun _ => id
  · rw [hlog]
    exact fun _ => id
  · rw [hlog]
    exact fun _ => rfl
  · intro l hp
    rwa [Pending, hpc]

variable [DecidableEq κ] {k : κ} {d : DmaPc n}

/-- A device goes on with its write. -/
theorem GateInv.dma (h : GateInv B s) (hpc : s'.pc = s.pc) (hr : s'.readers = s.readers)
    (hw : s'.writer = s.writer) (hd : s'.dma = update s.dma k d) (hk : s.dma k ≠ .idle)
    (hin : d.inside = true → ∀ c, (s.pc c).inGuard B = false)
    (hrange : d.range = (s.dma k).range) : GateInv B s' := by
  have hne (k' : κ) (hk' : s'.dma k' ≠ .idle) : s.dma k' ≠ .idle := by
    rw [hd] at hk'
    by_cases he : k' = k
    · exact he ▸ hk
    · rwa [Function.update_of_ne he] at hk'
  refine ⟨by rw [hr, hpc, h.readers], ?_, ?_, ?_, ?_⟩
  · rw [hw]
    exact fun k' hk' => h.writer k' (hne k' hk')
  · exact fun k₁ k₂ h₁ h₂ => h.one k₁ k₂ (hne k₁ h₁) (hne k₂ h₂)
  · intro k' hk' c
    rw [hpc]
    rw [hd] at hk'
    by_cases he : k' = k
    · subst he
      rw [Function.update_self] at hk'
      exact hin hk' c
    · rw [Function.update_of_ne he] at hk'
      exact h.drained k' hk' c
  · intro k' a m hr'
    rw [hd] at hr'
    by_cases he : k' = k
    · subst he
      rw [Function.update_self, hrange] at hr'
      exact h.range k' a m hr'
    · rw [Function.update_of_ne he] at hr'
      exact h.range k' a m hr'

/-- A step of a device that clears flags at most. -/
theorem Inv.dmaMove (h : Inv B s) {flags : Fin n → Bool}
    (hf : ∀ c, flags c = true → s.lockFlags c = true) (hk : s.dma k ≠ .idle)
    (hin : d.inside = true → ∀ c, (s.pc c).inGuard B = false)
    (hrange : d.range = (s.dma k).range)
    (hprobe : Probed B ({ s with lockFlags := flags }.setDma k d) d) :
    Inv B ({ s with lockFlags := flags }.setDma k d) := by
  refine ⟨h.gate.dma rfl rfl rfl rfl hk hin hrange, ⟨h.lock.locked, h.lock.one⟩, fun k' => ?_,
    fun c => (h.cpu c).congr rfl rfl rfl rfl rfl (hf c), h.atomic⟩
  by_cases he : k' = k
  · subst he
    simpa only [Sys.setDma, Function.update_self] using hprobe
  · simp only [Sys.setDma, Function.update_of_ne he]
    exact (h.probe k').mono fun c a m i _ _ _ hc _ => ⟨hf c hc, rfl⟩

theorem inv_dmaEnter (h : Inv B s) {data : List (BitVec 8)} (hw : s.writer = false)
    (hr : a.toNat + data.length ≤ B.dramSize.toNat) :
    Inv B ({ s with writer := true }.setDma k (.drain a data)) := by
  have hidle (k' : κ) : s.dma k' = .idle := by
    by_contra hne
    rw [h.gate.writer k' hne] at hw
    cases hw
  have hsplit (k' : κ) : update s.dma k (.drain a data) k' =
      if k' = k then .drain a data else .idle := by
    by_cases he : k' = k
    · simp [he]
    · simp [he, hidle]
  refine ⟨⟨h.gate.readers, fun _ _ => rfl, ?_, ?_, ?_⟩, ⟨h.lock.locked, h.lock.one⟩, ?_,
    fun c => (h.cpu c).congr rfl rfl rfl rfl rfl id, h.atomic⟩
  · intro k₁ k₂ h₁ h₂
    simp only [Sys.setDma, hsplit] at h₁ h₂
    rw [show k₁ = k by by_contra he; simp [he] at h₁, show k₂ = k by by_contra he; simp [he] at h₂]
  · intro k' hk'
    simp only [Sys.setDma, hsplit] at hk'
    split at hk' <;> cases hk'
  · intro k' a' m hr'
    simp only [Sys.setDma, hsplit] at hr'
    split at hr'
    · cases hr'
      exact hr
    · cases hr'
  · intro k'
    simp only [Sys.setDma, hsplit]
    split <;> trivial

theorem inv_dmaLeave (h : Inv B s) (hin : (s.dma k).inside = true) :
    Inv B ({ s with writer := false, readers := 0 }.setDma k .idle) := by
  have hk := DmaPc.ne_idle_of_inside hin
  have hidle (k' : κ) : update s.dma k .idle k' = .idle := by
    by_cases he : k' = k
    · simp [he]
    · rw [Function.update_of_ne he]
      by_contra hne
      exact he (h.gate.one k' k hne hk)
  refine ⟨⟨?_, ?_, ?_, ?_, ?_⟩, ⟨h.lock.locked, h.lock.one⟩, ?_,
    fun c => (h.cpu c).congr rfl rfl rfl rfl rfl id, h.atomic⟩
  · simp [Sys.setDma, h.gate.drained k hin]
  · exact fun k' hk' => absurd (hidle k') hk'
  · exact fun k' _ hk' => absurd (hidle k') hk'
  · intro k' hk'
    simp only [Sys.setDma, hidle] at hk'
    cases hk'
  · intro k' a m hr
    simp only [Sys.setDma, hidle] at hr
    cases hr
  · intro k'
    simp only [Sys.setDma, hidle]
    trivial

/-- A byte of the transfer: its line is not locked, and nobody is about to lock it. -/
theorem inv_dmaByte (h : Inv B s) {data : List (BitVec 8)} {i : Nat}
    (hp : s.dma k = .write a data i) (hi : i < data.length) (mem : Mem) :
    Inv B (({ s with mem }.note (.dma (a + BitVec.ofNat 64 i))).setDma k
      (.write a data (i + 1))) := by
  have hin : (s.dma k).inside = true := by rw [hp]; rfl
  have hdr := h.gate.drained k hin
  have hrange := h.gate.range k a data.length (by rw [hp]; rfl)
  have hw := h.probe k
  rw [hp] at hw
  refine ⟨h.gate.dma rfl rfl rfl rfl (DmaPc.ne_idle_of_inside hin) (fun _ => hdr)
    (by rw [hp]; rfl), ⟨h.lock.locked, h.lock.one⟩, fun k' => ?_, fun c => ?_,
    h.atomic.cons fun _ _ he => by cases he⟩
  · by_cases he : k' = k
    · subst he
      simp only [Sys.setDma, Function.update_self]
      exact hw
    · simp only [Sys.setDma, Function.update_of_ne he]
      exact (h.probe k').mono fun c a m i _ _ _ hc _ => ⟨hc, rfl⟩
  · exact (h.cpu c).dma ⟨rfl, rfl, rfl, id⟩ rfl rfl (Board.dram_byte hrange hi).2 (fun _ => id)
      (hdr c) (hw c i hi)

/-- One step of a device. -/
theorem inv_dmaAdvance (h : Inv B s) : Inv B (s.dmaAdvance B k) := by
  have hprobe := h.probe k
  rw [Sys.dmaAdvance]
  cases hp : s.dma k with
  | idle => exact h
  | drain a data =>
    dsimp only
    split
    · rename_i hr
      refine h.dmaMove (fun _ => id) (by rw [hp]; nofun) (fun _ c => ?_) (by rw [hp]; rfl) trivial
      -- the drain ends when no processor is in the gate
      by_contra hg
      have := h.gate.readers_pos (by simpa using hg)
      omega
    · exact h
  | invalidate a data =>
    have hdr := h.gate.drained k (by rw [hp]; rfl)
    dsimp only
    split
    · rename_i h0
      refine h.dmaMove (fun _ => id) (by rw [hp]; nofun) (fun _ => hdr) (by rw [hp]; rfl) ?_
      exact fun c i hi => by omega
    · refine h.dmaMove (fun _ => id) (by rw [hp]; nofun) (fun _ => hdr) (by rw [hp]; rfl) ?_
      exact fun c i _ hc _ => Or.inl ⟨hc, List.mem_finRange c⟩
  | scan a data flags todo mask =>
    have hdr := h.gate.drained k (by rw [hp]; rfl)
    have hrange := h.gate.range k a data.length (by rw [hp]; rfl)
    rw [hp] at hprobe
    cases todo with
    | nil =>
      dsimp only
      refine h.dmaMove (fun c hc => ?_) (by rw [hp]; nofun) (fun _ => hdr) (by rw [hp]; rfl) ?_
      · exact (Bool.and_eq_true_iff.mp hc).1
      · intro c i hi hc hl
        -- no processor is left to look at, so one still linked would have been seen
        obtain ⟨hf, hm⟩ := Bool.and_eq_true_iff.mp hc
        rcases hprobe c i hi hf hl with ⟨-, hmem⟩ | hm'
        · cases hmem
        · simp [hm'] at hm
    | cons c₀ todo =>
      dsimp only
      refine h.dmaMove (fun _ => id) (by rw [hp]; nofun) (fun _ => hdr) (by rw [hp]; rfl) ?_
      intro c i hi hc hl
      have hin : B.lineInRange a data.length (s.lockAddress c) = true :=
        Board.lineInRange_of_byte hrange hi hl
      -- this processor is looked at now, the others before or after
      by_cases he : c = c₀
      · subst he
        refine Or.inr ?_
        rcases hprobe c i hi hc hl with ⟨hf, -⟩ | hm
        · simp [hf, hin]
        · by_cases hf : flags c = true <;> simp [hf, hin, hm]
      · rcases hprobe c i hi hc hl with ⟨hf, hmem⟩ | hm
        · exact Or.inl ⟨hf, (List.mem_cons.mp hmem).resolve_left he⟩
        · refine Or.inr ?_
          split
          · rwa [Function.update_of_ne he]
          · exact hm
  | write a data i =>
    dsimp only
    split
    · rename_i b hb
      exact inv_dmaByte h hp (List.getElem?_eq_some_iff.mp hb).1 _
    · exact inv_dmaLeave h (by rw [hp]; rfl)

/-! ## Runs -/

theorem inv_step (h : Inv B s) {act : Sys.Act n κ} (hsafe : Safe B s act) :
    Inv B (s.step B act) := by
  cases act with
  | load c a bytes =>
    simp only [Sys.step]
    split
    · rename_i hi
      refine inv_enter h hi rfl rfl rfl rfl rfl (fun a' ha => ?_) rfl rfl rfl
      obtain rfl : a = a' := Option.some.inj ha
      exact hsafe
    · exact h
  | store c a bytes v intervened =>
    simp only [Sys.step]
    split
    · rename_i hi
      exact inv_enter h hi rfl rfl rfl rfl rfl (fun _ hx => by cases hx) rfl rfl rfl
    · exact h
  | clearLock c =>
    simp only [Sys.step]
    split
    · have hf (c' : Fin n) (hc : update s.lockFlags c false c' = true) : s.lockFlags c' = true := by
        by_cases he : c' = c
        · simp [he] at hc
        · rwa [Function.update_of_ne he] at hc
      exact ⟨⟨h.gate.readers, h.gate.writer, h.gate.one, h.gate.drained, h.gate.range⟩,
        ⟨h.lock.locked, h.lock.one⟩,
        fun k => (h.probe k).mono fun c' _ _ _ _ _ _ hc _ => ⟨hf c' hc, rfl⟩,
        fun c' => (h.cpu c').congr rfl rfl rfl rfl rfl (hf c'), h.atomic⟩
    · exact h
  | plain c a bytes v =>
    simp only [Sys.step]
    split
    · exact ⟨⟨h.gate.readers, h.gate.writer, h.gate.one, h.gate.drained, h.gate.range⟩,
        ⟨h.lock.locked, h.lock.one⟩,
        fun k => (h.probe k).mono fun _ _ _ _ _ _ _ hc _ => ⟨hc, rfl⟩,
        fun c' => (h.cpu c').congr rfl rfl rfl rfl rfl id, h.atomic⟩
    · exact h
  | advance c io => exact inv_advance h io hsafe
  | dmaEnter k a data =>
    simp only [Sys.step]
    split
    · split
      · rename_i hx
        exact inv_dmaEnter h hx.1 hx.2
      · exact h
    · exact h
  | dmaAdvance k => exact inv_dmaAdvance h

theorem SafeRun.act (h : SafeRun B s) (act : Sys.Act n κ) (hs : Safe B s act) :
    SafeRun B (s.step B act) := Lib.Reach.next h hs

end Alphabox.System
