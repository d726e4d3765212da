import Alphabox.Lib.Count
import Alphabox.System.Proof.Lines

/-!
# What holds while processors and devices interleave

The gate keeps a device that writes apart from every processor inside an `LDx_L` or `STx_C` of DRAM
(`GateInv`), a bucket's lock has one holder (`LockInv`), a device that writes has cleared the flags
of the lines it touches (`ProbeInv`), and a processor's reservation is as good as its flag and its
sequence snapshot say (`CpuInv`).
-/

namespace Alphabox.System

open Function (update)

/-! ## Where a processor is -/

namespace Pc

def addr : Pc → Option (BitVec 64)
  | idle => none
  | ldRead a _ | lockAddress a _ | lockValue a _ | lockSnap a | lockFlag a | ldLeave a => some a
  | stTest a .. | stTake a .. | stLock a .. | stCheck a .. | stStore a .. | stBump a
  | stUnlock a _ | stLeave a _ => some a

/-- The bucket whose lock the processor has. -/
def holds : Pc → Option (BitVec 64)
  | stCheck a .. | stStore a .. | stBump a | stUnlock a _ => some (bucket a)
  | _ => none

/-- The lock address is that of an `LDx_L` whose snapshot is still to come. -/
def stale : Pc → Bool
  | lockValue .. | lockSnap _ => true
  | _ => false

/-- The address of an `LDx_L` before its flag is set. -/
def load : Pc → Option (BitVec 64)
  | ldRead a _ | lockAddress a _ | lockValue a _ | lockSnap a | lockFlag a => some a
  | _ => none

/-- The same, once it has read. -/
def loading : Pc → Option (BitVec 64)
  | lockAddress a _ | lockValue a _ | lockSnap a | lockFlag a => some a
  | _ => none

/-- The same, once its address is recorded. -/
def recorded : Pc → Option (BitVec 64)
  | lockValue a _ | lockSnap a | lockFlag a => some a
  | _ => none

/-- The address of an `STx_C` that found its lock, before its store. -/
def storing : Pc → Option (BitVec 64)
  | stTake a _ _ held => if held then some a else none
  | stLock a .. | stCheck a .. | stStore a .. => some a
  | _ => none

/-- The address of an `STx_C` that found its sequence number, before its store. -/
def checked : Pc → Option (BitVec 64)
  | stStore a .. => some a
  | _ => none

/-- The address of an `STx_C` that got its bucket's lock, before its store. -/
def claimed : Pc → Option (BitVec 64)
  | stCheck a .. | stStore a .. => some a
  | _ => none

/-- The address of an `STx_C` that has stored and not yet bumped. -/
def bumping : Pc → Option (BitVec 64)
  | stBump a => some a
  | _ => none

/-- Inside an `LDx_L` or `STx_C` of DRAM. -/
def inGuard (B : Board) (p : Pc) : Bool :=
  match p.addr with
  | none => false
  | some a => a < B.dramSize

variable {p : Pc} {a : BitVec 64}

theorem addr_of_loading (h : p.loading = some a) : p.addr = some a := by
  cases p <;> simp_all [loading, addr]

theorem load_of_loading (h : p.loading = some a) : p.load = some a := by
  cases p <;> simp_all [loading, load]

theorem addr_of_storing (h : p.storing = some a) : p.addr = some a := by
  cases p <;> simp_all [storing, addr]

end Pc

/-- Past the wait for readers. -/
def DmaPc.inside {n : Nat} : DmaPc n → Bool
  | idle | drain .. => false
  | _ => true

/-- The bytes a device writes: where and how many. -/
def DmaPc.range {n : Nat} : DmaPc n → Option (BitVec 64 × Nat)
  | idle => none
  | drain a data | invalidate a data | scan a data .. | write a data _ => some (a, data.length)

variable {n : Nat} {κ : Type} {B : Board} {s s' : Sys n κ} {c c' : Fin n} {p : Pc} {k : κ}

/-! ## The gate -/

structure GateInv (B : Board) (s : Sys n κ) : Prop where
  readers : s.readers = ∑ c, ((s.pc c).inGuard B).toNat
  writer : ∀ k, s.dma k ≠ .idle → s.writer = true
  one : ∀ k k', s.dma k ≠ .idle → s.dma k' ≠ .idle → k = k'
  drained : ∀ k, (s.dma k).inside = true → ∀ c, (s.pc c).inGuard B = false
  range : ∀ k a m, (s.dma k).range = some (a, m) → a.toNat + m ≤ B.dramSize.toNat

theorem DmaPc.ne_idle_of_inside {d : DmaPc n} (h : d.inside = true) : d ≠ .idle := by
  rintro rfl
  cases h

/-- A processor's step; it enters the guard only where no writer is. -/
theorem GateInv.cpu (h : GateInv B s) (hdma : s'.dma = s.dma) (hw : s'.writer = s.writer)
    (hpc : s'.pc = update s.pc c p)
    (hr : s'.readers + ((s.pc c).inGuard B).toNat = s.readers + (p.inGuard B).toNat)
    (he : p.inGuard B = true → (s.pc c).inGuard B = true ∨ s.writer = false) : GateInv B s' := by
  refine ⟨?_, ?_, ?_, ?_, ?_⟩
  · have hs := Lib.sum_update (Finset.mem_univ c) s.pc (fun p => (p.inGuard B).toNat) p
    rw [hpc]
    have := h.readers
    omega
  · rw [hdma, hw]
    exact h.writer
  · rw [hdma]
    exact h.one
  · intro k hk c'
    rw [hdma] at hk
    rw [hpc]
    by_cases hc : c' = c
    · subst hc
      rw [Function.update_self]
      by_contra hp
      rcases he (by simpa using hp) with hg | hf
      · rw [h.drained k hk c'] at hg
        cases hg
      · rw [h.writer k (DmaPc.ne_idle_of_inside hk)] at hf
        cases hf
    · rw [Function.update_of_ne hc]
      exact h.drained k hk c'
  · rw [hdma]
    exact h.range

/-! ## The bucket locks -/

structure LockInv (s : Sys n κ) : Prop where
  locked : ∀ c b, (s.pc c).holds = some b → s.llLock b = true
  one : ∀ c c' b, (s.pc c).holds = some b → (s.pc c').holds = some b → c = c'

/-- A step that neither takes nor frees a lock. -/
theorem LockInv.same (h : LockInv s) (hl : s'.llLock = s.llLock) (hpc : s'.pc = update s.pc c p)
    (hp : p.holds = none ∨ p.holds = (s.pc c).holds) : LockInv s' := by
  have hh (c' : Fin n) (b : BitVec 64) (hb : (s'.pc c').holds = some b) :
      (s.pc c').holds = some b := by
    rw [hpc] at hb
    by_cases hc : c' = c
    · subst hc
      rw [Function.update_self] at hb
      rcases hp with hp | hp
      · simp [hp] at hb
      · rwa [← hp]
    · rwa [Function.update_of_ne hc] at hb
  refine ⟨fun c b hb => ?_, fun c c' b hb hb' => h.one c c' b (hh c b hb) (hh c' b hb')⟩
  rw [hl]
  exact h.locked c b (hh c b hb)

theorem LockInv.acquire (h : LockInv s) {b : BitVec 64} (hf : s.llLock b = false)
    (hl : s'.llLock = update s.llLock b true) (hpc : s'.pc = update s.pc c p)
    (hp : p.holds = some b) : LockInv s' := by
  have hh (c' : Fin n) (b' : BitVec 64) (hb : (s'.pc c').holds = some b') :
      c' = c ∧ b' = b ∨ b' ≠ b ∧ (s.pc c').holds = some b' := by
    rw [hpc] at hb
    by_cases hc : c' = c
    · subst hc
      rw [Function.update_self, hp] at hb
      exact Or.inl ⟨rfl, (Option.some.inj hb).symm⟩
    · rw [Function.update_of_ne hc] at hb
      refine Or.inr ⟨?_, hb⟩
      rintro rfl
      simp [h.locked c' b' hb] at hf
  refine ⟨fun c' b' hb => ?_, fun c₁ c₂ b' hb₁ hb₂ => ?_⟩
  · rw [hl]
    rcases hh c' b' hb with ⟨-, rfl⟩ | ⟨hne, hb⟩
    · rw [Function.update_self]
    · rw [Function.update_of_ne hne]
      exact h.locked c' b' hb
  · rcases hh c₁ b' hb₁ with ⟨rfl, hb⟩ | ⟨hne, hb₁'⟩ <;>
      rcases hh c₂ b' hb₂ with ⟨rfl, hb'⟩ | ⟨hne', hb₂'⟩
    · rfl
    · exact absurd hb hne'
    · exact absurd hb' hne
    · exact h.one c₁ c₂ b' hb₁' hb₂'

theorem LockInv.release (h : LockInv s) {b : BitVec 64} (hb : (s.pc c).holds = some b)
    (hl : s'.llLock = update s.llLock b false) (hpc : s'.pc = update s.pc c p)
    (hp : p.holds = none) : LockInv s' := by
  have hh (c' : Fin n) (b' : BitVec 64) (hb' : (s'.pc c').holds = some b') :
      c' ≠ c ∧ (s.pc c').holds = some b' := by
    rw [hpc] at hb'
    by_cases hc : c' = c
    · subst hc
      simp [hp] at hb'
    · rw [Function.update_of_ne hc] at hb'
      exact ⟨hc, hb'⟩
  refine ⟨fun c' b' hb' => ?_, fun c₁ c₂ b' hb₁ hb₂ =>
    h.one c₁ c₂ b' (hh c₁ b' hb₁).2 (hh c₂ b' hb₂).2⟩
  obtain ⟨hne, hb''⟩ := hh c' b' hb'
  have hbb : b' ≠ b := by
    rintro rfl
    exact hne (h.one c' c b' hb'' hb)
  rw [hl, Function.update_of_ne hbb]
  exact h.locked c' b' hb''

/-! ## The invalidating probe -/

/-- The flags of the lines to be written are cleared, or still to be. -/
def Probed (B : Board) (s : Sys n κ) : DmaPc n → Prop
  | .scan a data flags todo mask => ∀ c i, i < data.length → s.lockFlags c = true →
      B.line (s.lockAddress c) = B.line (a + BitVec.ofNat 64 i) →
      (flags c = true ∧ c ∈ todo) ∨ mask c = true
  | .write a data _ => ∀ c i, i < data.length → s.lockFlags c = true →
      B.line (s.lockAddress c) ≠ B.line (a + BitVec.ofNat 64 i)
  | _ => True

/-- No line of DRAM is decoded from `a`. -/
def NoAlias (B : Board) (a : BitVec 64) : Prop := ∀ d, d < B.dramSize → B.line d ≠ B.line a

/-- Flags may go, and new ones are not of lines a device writes to. -/
theorem Probed.mono {d : DmaPc n} (h : Probed B s d)
    (hf : ∀ c a m i, d.inside = true → d.range = some (a, m) → i < m → s'.lockFlags c = true →
      B.line (s'.lockAddress c) = B.line (a + BitVec.ofNat 64 i) →
      s.lockFlags c = true ∧ s'.lockAddress c = s.lockAddress c) : Probed B s' d := by
  cases d with
  | scan a data flags todo mask =>
    intro c i hi hc hl
    obtain ⟨hc', ha⟩ := hf c a data.length i rfl rfl hi hc hl
    exact h c i hi hc' (ha ▸ hl)
  | write a data j =>
    intro c i hi hc hl
    obtain ⟨hc', ha⟩ := hf c a data.length i rfl rfl hi hc hl
    exact h c i hi hc' (ha ▸ hl)
  | idle => trivial
  | drain => trivial
  | invalidate => trivial

theorem Probed.cpu (hg : GateInv B s) (hdma : s'.dma = s.dma) (h : ∀ k, Probed B s (s.dma k))
    (hothers : ∀ c', c' ≠ c → s'.lockFlags c' = s.lockFlags c' ∧ s'.lockAddress c' = s.lockAddress c')
    (hown : s'.lockFlags c = true → (s.lockFlags c = true ∧ s'.lockAddress c = s.lockAddress c) ∨
      (s.pc c).inGuard B = true ∨ NoAlias B (s'.lockAddress c)) (k : κ) :
    Probed B s' (s'.dma k) := by
  rw [hdma]
  refine (h k).mono fun c' a m i hin hr hi hc hl => ?_
  by_cases hcc : c' = c
  · subst hcc
    rcases hown hc with h' | hgd | hna
    · exact h'
    · rw [hg.drained k hin c'] at hgd
      cases hgd
    · exact absurd hl.symm (hna _ (Board.dram_byte (hg.range k a m hr) hi).2)
  · obtain ⟨h1, h2⟩ := hothers c' hcc
    exact ⟨h1 ▸ hc, h2⟩

/-! ## Reservations -/

/-- Another processor has stored to the line and not yet bumped its bucket. -/
def Pending (B : Board) (s : Sys n κ) (c : Fin n) (l : BitVec 64) : Prop :=
  ∃ c' a, c' ≠ c ∧ (s.pc c').bumping = some a ∧ B.line a = l

structure CpuInv (B : Board) (s : Sys n κ) (c : Fin n) : Prop where
  /-- The bucket of the lock address was bumped as often as its number moved. -/
  count : (s.pc c).stale = false → s.llSeq (bucket (s.lockAddress c)) =
    s.llSeqSnap c + BitVec.ofNat 32 (bumpsSince c (bucket (s.lockAddress c)) s.log)
  /-- A store to the locked line shows in the number, or will. -/
  watch : (s.pc c).stale = false → storedSince B c (B.line (s.lockAddress c)) s.log →
    0 < bumpsSince c (bucket (s.lockAddress c)) s.log ∨ Pending B s c (B.line (s.lockAddress c))
  /-- A store to the line in the window of an `LDx_L` is not yet bumped. -/
  window : ∀ a, (s.pc c).window = some a → storedSince B c (B.line a) s.log →
    Pending B s c (B.line a)
  /-- No device has written to a line while it is locked. -/
  flagged : s.lockFlags c = true → ¬ dmaSince B c (B.line (s.lockAddress c)) s.log
  loading : ∀ a, (s.pc c).loading = some a → ¬ dmaSince B c (B.line a) s.log
  recorded : ∀ a, (s.pc c).recorded = some a → s.lockAddress c = a
  load : ∀ a, (s.pc c).load = some a → a < B.dramSize ∨ NoAlias B a
  storing : ∀ a, (s.pc c).storing = some a → a < B.dramSize →
    B.line (s.lockAddress c) = B.line a ∧ ¬ dmaSince B c (B.line a) s.log
  checked : ∀ a, (s.pc c).checked = some a → ¬ storedSince B c (B.line a) s.log
  claimed : ∀ a, (s.pc c).claimed = some a → a < B.dramSize

/-- What a processor sees of a step that is not its own. -/
structure Unseen (s s' : Sys n κ) (c : Fin n) : Prop where
  pc : s'.pc c = s.pc c
  lockAddress : s'.lockAddress c = s.lockAddress c
  llSeqSnap : s'.llSeqSnap c = s.llSeqSnap c
  lockFlags : s'.lockFlags c = true → s.lockFlags c = true

/-- A step that nobody else stores, bumps or writes in. -/
theorem CpuInv.quiet (h : CpuInv B s c) (hu : Unseen s s' c) (hq : s'.llSeq = s.llSeq)
    (hs : ∀ l, storedSince B c l s'.log → storedSince B c l s.log)
    (hd : ∀ l, dmaSince B c l s'.log → dmaSince B c l s.log)
    (hb : ∀ b, bumpsSince c b s'.log = bumpsSince c b s.log)
    (hp : ∀ l, Pending B s c l → Pending B s' c l) : CpuInv B s' c := by
  obtain ⟨hpc, ha, hsn, hf⟩ := hu
  refine ⟨?_, ?_, ?_, ?_, ?_, ?_, ?_, ?_, ?_, ?_⟩
  · rw [hpc, ha, hsn, hq, hb]
    exact h.count
  · rw [hpc, ha, hb]
    exact fun hst hss => (h.watch hst (hs _ hss)).imp_right (hp _)
  · rw [hpc]
    exact fun a hw hss => hp _ (h.window a hw (hs _ hss))
  · rw [ha]
    exact fun hfl hds => h.flagged (hf hfl) (hd _ hds)
  · rw [hpc]
    exact fun a hl hds => h.loading a hl (hd _ hds)
  · rw [hpc, ha]
    exact h.recorded
  · rw [hpc]
    exact h.load
  · rw [hpc, ha]
    exact fun a hst hlt => ⟨(h.storing a hst hlt).1, fun hds => (h.storing a hst hlt).2 (hd _ hds)⟩
  · rw [hpc]
    exact fun a hc hss => h.checked a hc (hs _ hss)
  · rw [hpc]
    exact h.claimed

/-- Another processor's store, with its bump still to come. -/
theorem CpuInv.store (h : CpuInv B s c) (hu : Unseen s s' c) (hq : s'.llSeq = s.llSeq)
    {c₀ : Fin n} {a : BitVec 64} (hlog : s'.log = .stored c₀ a :: s.log) (hne : c₀ ≠ c)
    (hbump : (s'.pc c₀).bumping = some a)
    (hpend : ∀ l, Pending B s c l → Pending B s' c l)
    (hexcl : ∀ a', (s.pc c).checked = some a' → bucket a' ≠ bucket a) : CpuInv B s' c := by
  have hnew : Pending B s' c (B.line a) := ⟨c₀, a, hne, hbump, rfl⟩
  have hs {l : BitVec 64} (hss : storedSince B c l s'.log) :
      B.line a = l ∨ storedSince B c l s.log := by
    rw [hlog] at hss
    exact hss.imp_left And.right
  obtain ⟨hpc, ha, hsn, hf⟩ := hu
  refine ⟨?_, ?_, ?_, ?_, ?_, ?_, ?_, ?_, ?_, ?_⟩
  · rw [hpc, ha, hsn, hq, hlog]
    exact h.count
  · intro hst hss
    rw [hpc] at hst
    rw [ha] at hss ⊢
    rcases hs hss with hl | hss
    · exact Or.inr (hl ▸ hnew)
    · rw [hlog]
      exact (h.watch hst hss).imp_right (hpend _)
  · intro a' hw hss
    rw [hpc] at hw
    rcases hs hss with hl | hss
    · exact hl ▸ hnew
    · exact hpend _ (h.window a' hw hss)
  · rw [ha, hlog]
    exact fun hfl => h.flagged (hf hfl)
  · rw [hpc, hlog]
    exact h.loading
  · rw [hpc, ha]
    exact h.recorded
  · rw [hpc]
    exact h.load
  · rw [hpc, ha, hlog]
    exact h.storing
  · intro a' hc hss
    rw [hpc] at hc
    rcases hs hss with hl | hss
    · exact hexcl a' hc (Board.bucket_eq_of_line hl.symm)
    · exact h.checked a' hc hss
  · rw [hpc]
    exact h.claimed

/-- The bucket of a line bumped once more. -/
theorem count_bump {q q' : BitVec 64 → BitVec 32} {a A : BitVec 64} {x : BitVec 32} {m : Nat}
    (hq : q' = update q (bucket a) (q (bucket a) + 1))
    (h : q (bucket A) = x + BitVec.ofNat 32 m) :
    q' (bucket A) = x + BitVec.ofNat 32 (if bucket a = bucket A then m + 1 else m) := by
  subst hq
  by_cases hb : bucket a = bucket A
  · rw [hb, Function.update_self, h, if_pos rfl, BitVec.ofNat_add, BitVec.add_assoc]
    rfl
  · rw [Function.update_of_ne (Ne.symm hb), if_neg hb, h]

/-- Another processor's bump. -/
theorem CpuInv.bump (h : CpuInv B s c) (hu : Unseen s s' c) {c₀ : Fin n} {a : BitVec 64}
    (hq : s'.llSeq = update s.llSeq (bucket a) (s.llSeq (bucket a) + 1))
    (hlog : s'.log = .bump c₀ a :: s.log) (hbump : (s.pc c₀).bumping = some a)
    (hothers : ∀ c', c' ≠ c₀ → s'.pc c' = s.pc c')
    (hsafe : ∀ a', (s.pc c).window = some a' → B.line a' = B.line a →
      ¬ storedSince B c (B.line a') s.log) : CpuInv B s' c := by
  have hpend {l : BitVec 64} (hp : Pending B s c l) : B.line a = l ∨ Pending B s' c l := by
    obtain ⟨c', a', hne, hb, hl⟩ := hp
    by_cases hc : c' = c₀
    · subst hc
      rw [hbump] at hb
      cases hb
      exact Or.inl hl
    · exact Or.inr ⟨c', a', hne, hothers c' hc ▸ hb, hl⟩
  obtain ⟨hpc, ha, hsn, hf⟩ := hu
  refine ⟨?_, ?_, ?_, ?_, ?_, ?_, ?_, ?_, ?_, ?_⟩
  · rw [hpc, ha, hsn, hlog]
    exact fun hst => count_bump hq (h.count hst)
  · intro hst hss
    rw [hpc] at hst
    rw [ha, hlog] at hss ⊢
    simp only [bumpsSince]
    by_cases hb : bucket a = bucket (s.lockAddress c)
    · rw [if_pos hb]
      exact Or.inl (Nat.succ_pos _)
    · rw [if_neg hb]
      refine (h.watch hst hss).imp_right fun hp => (hpend hp).resolve_left fun hl => ?_
      exact hb (Board.bucket_eq_of_line hl)
  · intro a' hw hss
    rw [hpc] at hw
    rw [hlog] at hss
    exact (hpend (h.window a' hw hss)).resolve_left fun hl => hsafe a' hw hl.symm hss
  · rw [ha, hlog]
    exact fun hfl => h.flagged (hf hfl)
  · rw [hpc, hlog]
    exact h.loading
  · rw [hpc, ha]
    exact h.recorded
  · rw [hpc]
    exact h.load
  · rw [hpc, ha, hlog]
    exact h.storing
  · rw [hpc, hlog]
    exact h.checked
  · rw [hpc]
    exact h.claimed

/-- A byte written by a device, to a line that is neither locked nor about to be. -/
theorem CpuInv.dma (h : CpuInv B s c) (hu : Unseen s s' c) (hq : s'.llSeq = s.llSeq)
    {x : BitVec 64} (hlog : s'.log = .dma x :: s.log) (hx : x < B.dramSize)
    (hpend : ∀ l, Pending B s c l → Pending B s' c l) (hg : (s.pc c).inGuard B = false)
    (hfl : s.lockFlags c = true → B.line (s.lockAddress c) ≠ B.line x) : CpuInv B s' c := by
  obtain ⟨hpc, ha, hsn, hf⟩ := hu
  have hguard {a : BitVec 64} (hadr : (s.pc c).addr = some a) (hlt : a < B.dramSize) : False := by
    simp [Pc.inGuard, hadr, hlt] at hg
  refine ⟨?_, ?_, ?_, ?_, ?_, ?_, ?_, ?_, ?_, ?_⟩
  · rw [hpc, ha, hsn, hq, hlog]
    exact h.count
  · rw [hpc, ha, hlog]
    exact fun hst hss => (h.watch hst hss).imp_right (hpend _)
  · rw [hpc, hlog]
    exact fun a hw hss => hpend _ (h.window a hw hss)
  · rw [ha, hlog]
    rintro hfl' (hl | hds)
    · exact hfl (hf hfl') hl.symm
    · exact h.flagged (hf hfl') hds
  · rw [hpc, hlog]
    rintro a hl (hla | hds)
    · rcases h.load a (Pc.load_of_loading hl) with hlt | hna
      · exact hguard (Pc.addr_of_loading hl) hlt
      · exact hna x hx hla
    · exact h.loading a hl hds
  · rw [hpc, ha]
    exact h.recorded
  · rw [hpc]
    exact h.load
  · rw [hpc]
    exact fun a hst hlt => (hguard (Pc.addr_of_storing hst) hlt).elim
  · rw [hpc, hlog]
    exact h.checked
  · rw [hpc]
    exact h.claimed

end Alphabox.System
