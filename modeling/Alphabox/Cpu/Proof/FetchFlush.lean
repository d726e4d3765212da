import Alphabox.Cpu.Proof.FetchCursor

/-!
# Flushed and translated instructions

A flush on one processor reaches the fetches of the others once they have looked
(`fetch_after_flush`), and no line answers a fetch that the page tables it was filled under would
not have allowed, or with an instruction that memory did not hold there since the flush
(`fetch_translated`).
-/

namespace Alphabox.Cpu

open Function (update)

/-! ## What a line holds -/

namespace IFetch

variable {s s' : IFetch} {memBits flushes : Nat} {mem : Nat → BitVec 8} {address p : BitVec 64}
  {ins : BitVec 32} {P : SICache → Prop}

/-- No line is of a generation to come. -/
def LinesOld (s : IFetch) : Prop := ∀ k, (s.icache k).valid = true → (s.icache k).gen ≤ s.icacheGen

/-- `P` holds of the lines that may answer a fetch. -/
def LiveLines (P : SICache → Prop) (s : IFetch) : Prop :=
  ∀ k, (s.icache k).valid = true → (s.icache k).gen = s.icacheGen → P (s.icache k)

theorem liveLines_dropLines (h : s.LinesOld) (seen : Nat) : LiveLines P (s.dropLines seen) := by
  intro k hv hg
  have := h k hv
  have hgen : (s.icache k).gen = s.icacheGen + 1 := hg
  omega

theorem linesOld_dropLines (h : s.LinesOld) (seen : Nat) : (s.dropLines seen).LinesOld := by
  intro k hv
  exact Nat.le_succ_of_le (h k hv)

/-- The line a lookup of `address` fills. -/
def Fills (s : IFetch) (mem : Nat → BitVec 8) (address : BitVec 64) (l : SICache) : Prop :=
  (address.getLsbD 0 = true ∧ ∃ modes,
    l = s.newLine mem address (address &&& ICACHE_MATCH_MASK &&& ~~~1#64) true modes) ∨
  (address.getLsbD 0 = false ∧ ∃ pA c,
    s.cpu.virt2phys (address &&& ICACHE_MATCH_MASK) { exec := true } = (.ok pA, c) ∧
    l = ({ s with cpu := c } : IFetch).newLine mem address pA
      (s.cpu.execAsm (address &&& ICACHE_MATCH_MASK))
      (c.icacheExecModes address (address &&& ICACHE_MATCH_MASK)).1)

theorem fillIcache_lines (s : IFetch) (memBits : Nat) (mem : Nat → BitVec 8)
    (address pA : BitVec 64) (asm : Bool) :
    (s.fillIcache memBits mem address pA asm).2.icache = s.icache ∨
      (s.fillIcache memBits mem address pA asm).2.icache = update s.icache (icacheSet address)
        (s.newLine mem address pA asm
          (s.cpu.icacheExecModes address (address &&& ICACHE_MATCH_MASK)).1) := by
  unfold fillIcache
  split
  · exact .inr rfl
  · exact .inl rfl

theorem fillIcache_gen (s : IFetch) (memBits : Nat) (mem : Nat → BitVec 8)
    (address pA : BitVec 64) (asm : Bool) :
    (s.fillIcache memBits mem address pA asm).2.icacheGen = s.icacheGen ∧
      (s.fillIcache memBits mem address pA asm).2.icacheFlushSeen = s.icacheFlushSeen := by
  unfold fillIcache
  split
  · exact ⟨rfl, rfl⟩
  · exact ⟨rfl, rfl⟩

/-- A lookup changes one line at most. -/
theorem getIcache_lines (s : IFetch) (memBits : Nat) (mem : Nat → BitVec 8) (address : BitVec 64) :
    (s.getIcache memBits mem address).2.icacheGen = s.icacheGen ∧
    (s.getIcache memBits mem address).2.icacheFlushSeen = s.icacheFlushSeen ∧
    ((s.getIcache memBits mem address).2.icache = s.icache ∨ ∃ l, s.Fills mem address l ∧
      (s.getIcache memBits mem address).2.icache = update s.icache (icacheSet address) l) := by
  unfold getIcache
  split
  · exact ⟨rfl, rfl, .inl rfl⟩
  · split
    · rename_i h0
      obtain ⟨hg, hf⟩ := fillIcache_gen s memBits mem address
        (address &&& ICACHE_MATCH_MASK &&& ~~~1#64) true
      refine ⟨hg, hf, ?_⟩
      obtain hl | hl := fillIcache_lines s memBits mem address
        (address &&& ICACHE_MATCH_MASK &&& ~~~1#64) true
      · exact .inl hl
      · exact .inr ⟨_, .inl ⟨h0, _, rfl⟩, hl⟩
    · rename_i h0
      rw [Bool.not_eq_true] at h0
      split
      · rename_i pA c hv
        obtain ⟨hg, hf⟩ := fillIcache_gen { s with cpu := c } memBits mem address pA
          (s.cpu.execAsm (address &&& ICACHE_MATCH_MASK))
        refine ⟨hg, hf, ?_⟩
        obtain hl | hl := fillIcache_lines { s with cpu := c } memBits mem address pA
          (s.cpu.execAsm (address &&& ICACHE_MATCH_MASK))
        · exact .inl hl
        · exact .inr ⟨_, .inr ⟨h0, pA, c, hv, rfl⟩, hl⟩
      · unfold vectorExec
        split
        · exact ⟨rfl, rfl, .inl rfl⟩
        · exact ⟨rfl, rfl, .inl rfl⟩

theorem Fills.gen {l : SICache} (h : s.Fills mem address l) : l.gen = s.icacheGen := by
  obtain ⟨-, modes, rfl⟩ | ⟨-, pA, c, -, rfl⟩ := h
  · rfl
  · rfl

/-- What `P` says of the lines stays true when it is true of the line that is filled. -/
theorem liveLines_getIcache (h : LiveLines P s) (hP : ∀ l, s.Fills mem address l → P l) :
    LiveLines P (s.getIcache memBits mem address).2 := by
  obtain ⟨hg, -, hl | ⟨l, hfill, hl⟩⟩ := getIcache_lines s memBits mem address
  · intro k
    rw [hl, hg]
    exact h k
  · intro k
    rw [hl, hg]
    by_cases hk : k = icacheSet address
    · rw [hk, Function.update_self]
      exact fun _ _ => hP l hfill
    · rw [Function.update_of_ne hk]
      exact h k

theorem linesOld_getIcache (h : s.LinesOld) : (s.getIcache memBits mem address).2.LinesOld := by
  obtain ⟨hg, -, hl | ⟨l, hfill, hl⟩⟩ := getIcache_lines s memBits mem address
  · intro k
    rw [hl, hg]
    exact h k
  · intro k
    rw [hl, hg]
    by_cases hk : k = icacheSet address
    · rw [hk, Function.update_self]
      exact fun _ => Nat.le_of_eq hfill.gen
    · rw [Function.update_of_ne hk]
      exact h k

/-- The lookup's instruction, out of a line that may answer or straight from memory. -/
theorem getIcache_ins (h : s.getIcache memBits mem address = (some ins, s')) :
    (∃ l, (s.icacheLineHits (icacheSet address) address = true ∧ l = s.icache (icacheSet address) ∨
        s.Fills mem address l) ∧
      ins = l.data (icacheWord address) ∧
      s'.pcPhys = l.pAddress + BitVec.ofNat 64 (4 * icacheWord address)) ∨
    (ins = insAt mem s'.pcPhys ∧ ∃ l, s.Fills mem address l ∧
      s'.pcPhys = l.pAddress + BitVec.ofNat 64 (4 * icacheWord address)) := by
  unfold getIcache at h
  rw [and_byteMask] at h
  split at h
  · rename_i hhits
    cases h
    exact .inl ⟨_, .inl ⟨hhits, rfl⟩, rfl, rfl⟩
  · unfold fillIcache at h
    rw [and_byteMask] at h
    split at h
    · rename_i h0
      cases h
      split
      · exact .inl ⟨_, .inr (.inl ⟨h0, fun _ => true, rfl⟩), rfl, rfl⟩
      · exact .inr ⟨rfl, _, .inl ⟨h0, fun _ => true, rfl⟩, rfl⟩
    · rename_i h0
      rw [Bool.not_eq_true] at h0
      split at h
      · rename_i pA c hv
        cases h
        split
        · exact .inl ⟨_, .inr (.inr ⟨h0, pA, c, hv, rfl⟩), rfl, rfl⟩
        · exact .inr ⟨rfl, _, .inr ⟨h0, pA, c, hv, rfl⟩, rfl⟩
      · cases h

/-! ## Fresh lines -/

/-- What a line has of the instruction at `p` is as `Q` says. -/
def HasAt (p : BitVec 64) (Q : BitVec 32 → Prop) (l : SICache) : Prop :=
  ∀ w, l.pAddress + BitVec.ofNat 64 (4 * w) = p → Q (l.data w)

/-- No line that may answer has an old copy of the instruction at `p`. -/
def Fresh (s : IFetch) (mem : Nat → BitVec 8) (p : BitVec 64) : Prop :=
  LiveLines (HasAt p (· = insAt mem p)) s

theorem Fills.fresh {l : SICache} (h : s.Fills mem address l) {w : Nat}
    (hw : l.pAddress + BitVec.ofNat 64 (4 * w) = p) : l.data w = insAt mem p := by
  obtain ⟨-, modes, rfl⟩ | ⟨-, pA, c, -, rfl⟩ := h
  · exact congrArg (insAt mem) hw
  · exact congrArg (insAt mem) hw

theorem live_of_hits {i : BitVec 10} (h : s.icacheLineHits i address = true) :
    (s.icache i).valid = true ∧ (s.icache i).gen = s.icacheGen ∧
      ((s.icache i).asn = s.cpu.asn ∨ (s.icache i).asmBit = true) ∧
      (s.icache i).execModes s.cpu.cm = true ∧
      (s.icache i).address = address &&& ICACHE_MATCH_MASK := by
  unfold icacheLineHits at h
  simp only [Bool.and_eq_true, Bool.or_eq_true, beq_iff_eq] at h
  obtain ⟨⟨⟨⟨hv, hg⟩, ha⟩, hm⟩, ht⟩ := h
  exact ⟨hv, hg, ha, hm, ht⟩

/-- The lookup's instruction is one that a line has, or that memory holds. -/
theorem getIcache_hasAt {Q : BitVec 32 → Prop} (h : LiveLines (HasAt p Q) s)
    (hq : Q (insAt mem p)) (hg : s.getIcache memBits mem address = (some ins, s'))
    (hp : s'.pcPhys = p) : Q ins := by
  obtain ⟨l, hl, rfl, hphys⟩ | ⟨rfl, -⟩ := getIcache_ins hg
  · obtain ⟨hhits, rfl⟩ | hfill := hl
    · obtain ⟨hv, hgen, -⟩ := live_of_hits hhits
      exact h _ hv hgen _ (hphys.symm.trans hp)
    · rw [hfill.fresh (hphys.symm.trans hp)]
      exact hq
  · rw [hp]
    exact hq

/-- A lookup and what follows it leave the lines as `get_icache` does. -/
theorem lookup_lines (s : IFetch) (memBits : Nat) (mem : Nat → BitVec 8) :
    (s.lookup memBits mem).2.icache =
      (s.getIcache memBits mem s.pc).2.icache ∧
    (s.lookup memBits mem).2.icacheGen = (s.getIcache memBits mem s.pc).2.icacheGen ∧
    (s.lookup memBits mem).2.icacheFlushSeen =
      (s.getIcache memBits mem s.pc).2.icacheFlushSeen := by
  unfold lookup
  split
  · rename_i hg
    rw [hg]
    unfold setCursor
    split
    · exact ⟨rfl, rfl, rfl⟩
    · exact ⟨rfl, rfl, rfl⟩
  · rename_i hg
    rw [hg]
    exact ⟨rfl, rfl, rfl⟩

theorem liveLines_lookup (h : LiveLines P s) (hP : ∀ l, s.Fills mem s.pc l → P l) :
    LiveLines P (s.lookup memBits mem).2 := by
  obtain ⟨hl, hg, -⟩ := lookup_lines s memBits mem
  intro k
  rw [hl, hg]
  exact liveLines_getIcache h hP k

theorem linesOld_lookup (h : s.LinesOld) : (s.lookup memBits mem).2.LinesOld := by
  obtain ⟨hl, hg, -⟩ := lookup_lines s memBits mem
  intro k
  rw [hl, hg]
  exact linesOld_getIcache h k

/-- What a fetch does to the lines: nothing, or what a lookup does, after the reset's flush. -/
theorem fetch_lines (s : IFetch) (memBits : Nat) (mem : Nat → BitVec 8) (flushes : Nat) :
    ((s.fetch memBits mem flushes).2.icache = s.icache ∧
      (s.fetch memBits mem flushes).2.icacheGen = s.icacheGen ∧
      (s.fetch memBits mem flushes).2.icacheFlushSeen = s.icacheFlushSeen ∧ ¬ s.AtReset) ∨
    (s.fetch memBits mem flushes = ((s.flushIcache (flushes + 1)).lookup memBits mem) ∧
      s.AtReset) ∨
    (s.fetch memBits mem flushes = s.lookup memBits mem ∧ ¬ s.AtReset) := by
  unfold fetch
  split
  · rename_i hs
    exact .inl ⟨rfl, rfl, rfl, fun hr => hr.1 hs⟩
  · unfold fetchPlain resetFlush
    split
    · rename_i hr
      exact .inr (.inl ⟨rfl, hr⟩)
    · rename_i hr
      exact .inr (.inr ⟨rfl, hr⟩)

theorem lookup_hasAt {Q : BitVec 32 → Prop} (h : LiveLines (HasAt p Q) s) (hq : Q (insAt mem p))
    (hf : s.lookup memBits mem = (some ins, s')) (hp : s'.pcPhys - 4 = p) : Q ins := by
  unfold lookup at hf
  split at hf
  · rename_i hg
    cases hf
    refine getIcache_hasAt h hq hg ?_
    rw [← hp]
    unfold setCursor nextPc
    split
    · exact (BitVec.add_sub_cancel _ _).symm
    · exact (BitVec.add_sub_cancel _ _).symm
  · cases hf

theorem linesOld_fetch (h : s.LinesOld) : (s.fetch memBits mem flushes).2.LinesOld := by
  obtain ⟨hl, hg, -⟩ | ⟨hf, -⟩ | ⟨hf, -⟩ := fetch_lines s memBits mem flushes
  · intro k
    rw [hl, hg]
    exact h k
  · rw [hf]
    exact linesOld_lookup (linesOld_dropLines h _)
  · rw [hf]
    exact linesOld_lookup h

theorem liveLines_fetch (h : s.LinesOld) (hs : LiveLines P s)
    (hP : ∀ t : IFetch, t.cpu = s.cpu → ∀ l, t.Fills mem s.pc l → P l) :
    LiveLines P (s.fetch memBits mem flushes).2 := by
  obtain ⟨hl, hg, -⟩ | ⟨hf, -⟩ | ⟨hf, -⟩ := fetch_lines s memBits mem flushes
  · intro k
    rw [hl, hg]
    exact hs k
  · rw [hf]
    exact liveLines_lookup (liveLines_dropLines h _) (hP (s.flushIcache (flushes + 1)) rfl)
  · rw [hf]
    exact liveLines_lookup hs (hP s rfl)

/-- A fetch at the reset entry flushes. -/
theorem fetch_seen (s : IFetch) : (s.fetch memBits mem flushes).2.icacheFlushSeen =
    if s.AtReset then flushes + 1 else s.icacheFlushSeen := by
  have hlookup (t : IFetch) : (t.lookup memBits mem).2.icacheFlushSeen = t.icacheFlushSeen :=
    (lookup_lines t memBits mem).2.2.trans (getIcache_lines t memBits mem t.pc).2.1
  obtain ⟨-, -, hs, hr⟩ | ⟨hf, hr⟩ | ⟨hf, hr⟩ := fetch_lines s memBits mem flushes
  · rw [hs, if_neg hr]
  · rw [hf, if_pos hr, hlookup]
    rfl
  · rw [hf, if_neg hr, hlookup]

theorem fresh_fetch (h : s.LinesOld) (hs : s.AtReset ∨ s.Fresh mem p) :
    (s.fetch memBits mem flushes).2.Fresh mem p := by
  have hfill (t : IFetch) (l : SICache) (hl : t.Fills mem s.pc l) :
      HasAt p (· = insAt mem p) l := fun _ hw => hl.fresh hw
  obtain hr | hs := hs
  · obtain ⟨-, -, -, hn⟩ | ⟨hf, -⟩ | ⟨-, hn⟩ := fetch_lines s memBits mem flushes
    · exact absurd hr hn
    · rw [hf]
      exact liveLines_lookup (liveLines_dropLines h _) (hfill _)
    · exact absurd hr hn
  · exact liveLines_fetch h hs fun t _ l hl => hfill t l hl

/-- A processor fetches what its lines have of an instruction, or what memory holds of it. -/
theorem fetch_hasAt {Q : BitVec 32 → Prop} (hc : s.CursorInv) (hs : LiveLines (HasAt p Q) s)
    (hq : Q (insAt mem p)) (hf : (s.fetch memBits mem flushes).1 = some ins)
    (hp : (s.fetch memBits mem flushes).2.pcPhys - 4 = p) (h : s.LinesOld) : Q ins := by
  rw [fetch_eq_fetchPlain hc] at hf hp
  unfold fetchPlain resetFlush at hf hp
  by_cases hr : s.AtReset
  · rw [if_pos hr] at hf hp
    exact lookup_hasAt (s := s.flushIcache (flushes + 1)) (liveLines_dropLines h _) hq
      (Prod.ext hf rfl) hp
  · rw [if_neg hr] at hf hp
    exact lookup_hasAt hs hq (Prod.ext hf rfl) hp

end IFetch

/-! ## Flushes in a run -/

namespace FetchRun

open IFetch

variable {n memBits : Nat} {s : FetchRun n} {p : BitVec 64} {f : Nat} {i j : Fin n}

/-- Lines and counts are of the past. -/
structure FlushInv (s : FetchRun n) : Prop where
  old : ∀ i, (s.proc i).LinesOld
  seen : ∀ i, (s.proc i).icacheFlushSeen ≤ s.flushes

/-- Whoever has seen the flush that counted to `f` has no old copy of the instruction at `p`. -/
def Current (p : BitVec 64) (f : Nat) (s : FetchRun n) : Prop :=
  ∀ i, f ≤ (s.proc i).icacheFlushSeen → (s.proc i).Fresh s.mem p

/-- An operation writes a byte of the instruction at `p`. -/
def Writes (p : BitVec 64) (op : FetchOp n) : Prop :=
  ∃ b, ∃ k < 4, op = .write (p + BitVec.ofNat 64 k).toNat b

theorem insAt_write {a : Nat} {b : BitVec 8} (h : ¬ Writes (n := n) p (.write a b)) :
    insAt (update s.mem a b) p = insAt s.mem p := by
  have hne (k : Nat) (hk : k < 4) : (p + BitVec.ofNat 64 k).toNat ≠ a := by
    intro he
    exact h ⟨b, k, hk, by rw [he]⟩
  have h0 := hne 0 (by decide)
  rw [BitVec.add_zero] at h0
  have h1 : (p + 1).toNat ≠ a := hne 1 (by decide)
  have h2 : (p + 2).toNat ≠ a := hne 2 (by decide)
  have h3 : (p + 3).toNat ≠ a := hne 3 (by decide)
  unfold insAt
  rw [Function.update_of_ne h0, Function.update_of_ne h1, Function.update_of_ne h2,
    Function.update_of_ne h3]

theorem seen_update (h : FlushInv s) {m : Nat} (hm : s.flushes ≤ m) {t : IFetch}
    (ht : t.icacheFlushSeen ≤ m) : ∀ i, (update s.proc j t i).icacheFlushSeen ≤ m :=
  update_forall (P := fun t => t.icacheFlushSeen ≤ m) (fun i => Nat.le_trans (h.seen i) hm) ht

theorem flushInv_step (memBits : Nat) (op : FetchOp n) (h : FlushInv s) :
    FlushInv (s.step memBits op) := by
  cases op with
  | fetch j =>
    have hm : s.flushes ≤ s.flushesAfter j := by
      unfold flushesAfter
      split <;> omega
    refine ⟨update_forall h.old (linesOld_fetch (h.old j)), seen_update h hm ?_⟩
    rw [fetch_seen]
    unfold flushesAfter
    have := h.seen j
    split <;> omega
  | setPc j pc => exact ⟨update_forall h.old (h.old j), seen_update h (Nat.le_refl _) (h.seen j)⟩
  | setCpu j c => exact ⟨update_forall h.old (h.old j), seen_update h (Nat.le_refl _) (h.seen j)⟩
  | setPalBase j b =>
    exact ⟨update_forall h.old (h.old j), seen_update h (Nat.le_refl _) (h.seen j)⟩
  | flush j =>
    exact ⟨update_forall h.old (linesOld_dropLines (h.old j) _),
      seen_update h (Nat.le_succ _) (Nat.le_refl _)⟩
  | flushAsm j =>
    refine ⟨update_forall h.old ?_, seen_update h (Nat.le_refl _) (h.seen j)⟩
    intro k hv
    have hold := h.old j k
    unfold flushIcacheAsm at hv ⊢
    dsimp only at hv ⊢
    split at hv
    · rename_i ha
      rw [if_pos ha]
      exact hold hv
    · cases hv
  | look j =>
    have hlook : ((s.proc j).honourRemoteFlush s.flushes).LinesOld ∧
        ((s.proc j).honourRemoteFlush s.flushes).icacheFlushSeen ≤ s.flushes := by
      unfold honourRemoteFlush
      split
      · exact ⟨h.old j, h.seen j⟩
      · exact ⟨linesOld_dropLines (h.old j) _, Nat.le_refl _⟩
    exact ⟨update_forall h.old hlook.1, seen_update h (Nat.le_refl _) hlook.2⟩
  | write a b => exact ⟨h.old, h.seen⟩

theorem flushInv_run (h : Lib.Reach Start (Ok memBits) (step memBits) s) : FlushInv s := by
  refine h.inv ?_ ?_
  · intro s hs
    refine ⟨fun i k hv => ?_, fun i => ?_⟩
    · rw [(hs i).valid k] at hv
      cases hv
    · rw [(hs i).icacheFlushSeen]
      exact Nat.zero_le _
  · exact fun s op hs _ => flushInv_step memBits op hs

/-- A processor that is changed without its lines, or that drops lines only, is still current. -/
theorem current_update (h : Current p f s) {t : IFetch}
    (ht : f ≤ t.icacheFlushSeen → t.Fresh s.mem p) : Current p f (s.setProc j t) := by
  intro i
  unfold setProc
  by_cases hi : i = j
  · rw [hi]
    dsimp only
    rw [Function.update_self]
    exact ht
  · dsimp only
    rw [Function.update_of_ne hi]
    exact h i

theorem current_step (op : FetchOp n) (hi : FlushInv s) (h : Current p f s)
    (hw : ¬ Writes p op) : Current p f (s.step memBits op) := by
  cases op with
  | fetch j =>
    have := current_update (j := j) h
      (t := ((s.proc j).fetch memBits s.mem s.flushes).2) fun hf => fresh_fetch (hi.old j) (by
        rw [fetch_seen] at hf
        by_cases hr : (s.proc j).AtReset
        · exact .inl hr
        · rw [if_neg hr] at hf
          exact .inr (h j hf))
    exact this
  | setPc j pc => exact current_update h (h j)
  | setCpu j c => exact current_update h (h j)
  | setPalBase j b => exact current_update h (h j)
  | flush j =>
    have := current_update (j := j) h (t := (s.proc j).flushIcache (s.flushes + 1))
      fun _ => liveLines_dropLines (hi.old j) _
    exact this
  | flushAsm j =>
    refine current_update h fun hf k hv hg => ?_
    have hfresh := h j hf k
    unfold flushIcacheAsm at hv hg ⊢
    dsimp only at hv hg ⊢
    split at hv
    · rename_i ha
      rw [if_pos ha] at hg ⊢
      exact hfresh hv hg
    · cases hv
  | look j =>
    refine current_update h ?_
    unfold honourRemoteFlush
    split
    · exact h j
    · exact fun _ => liveLines_dropLines (hi.old j) _
  | write a b =>
    intro i hf
    show (s.proc i).Fresh (update s.mem a b) p
    unfold Fresh
    rw [insAt_write hw]
    exact h i hf

/-- What has been seen of the flushes is not forgotten. -/
theorem seen_step (op : FetchOp n) (h : FlushInv s) (i : Fin n) :
    (s.proc i).icacheFlushSeen ≤ ((s.step memBits op).proc i).icacheFlushSeen := by
  have hupdate (j : Fin n) (t : IFetch)
      (ht : (s.proc j).icacheFlushSeen ≤ t.icacheFlushSeen) :
      (s.proc i).icacheFlushSeen ≤ (update s.proc j t i).icacheFlushSeen := by
    by_cases hi : i = j
    · rw [hi, Function.update_self]
      exact ht
    · rw [Function.update_of_ne hi]
  cases op with
  | fetch j =>
    apply hupdate j
    rw [fetch_seen]
    have := h.seen j
    split <;> omega
  | flush j => exact hupdate j _ (Nat.le_succ_of_le (h.seen j))
  | look j =>
    apply hupdate j
    unfold honourRemoteFlush
    split
    · exact Nat.le_refl _
    · exact h.seen j
  | write a b => exact Nat.le_refl _
  | _ j => exact hupdate j _ (Nat.le_refl _)

theorem flushes_step (op : FetchOp n) : s.flushes ≤ (s.step memBits op).flushes := by
  cases op with
  | fetch j =>
    show s.flushes ≤ s.flushesAfter j
    unfold flushesAfter
    split <;> omega
  | flush j => exact Nat.le_succ _
  | _ => exact Nat.le_refl _

/-- A run with no write to the instruction at `p`: it stays in memory, and who has seen the flush
stays current. -/
theorem current_foldl (memBits : Nat) (i : Fin n) {ops : List (FetchOp n)} (hi : FlushInv s)
    (h : Current p f s) (hfl : f ≤ s.flushes) (hw : ∀ op ∈ ops, ¬ Writes p op) :
    Current p f (ops.foldl (step memBits) s) ∧ insAt (ops.foldl (step memBits) s).mem p =
      insAt s.mem p ∧ ((f ≤ (s.proc i).icacheFlushSeen ∨ .look i ∈ ops) →
        f ≤ ((ops.foldl (step memBits) s).proc i).icacheFlushSeen) := by
  induction ops generalizing s with
  | nil =>
    refine ⟨h, rfl, fun hl => ?_⟩
    obtain hl | hl := hl
    · exact hl
    · cases hl
  | cons op ops ih =>
    have hop := hw op List.mem_cons_self
    have hmem : insAt (s.step memBits op).mem p = insAt s.mem p := by
      cases op with
      | write a b => exact insAt_write hop
      | _ => rfl
    obtain ⟨hcur, hins, hseen⟩ := ih (flushInv_step memBits op hi) (current_step op hi h hop)
      (Nat.le_trans hfl (flushes_step op)) fun o ho => hw o (List.mem_cons_of_mem op ho)
    refine ⟨hcur, hins.trans hmem, fun hl => hseen ?_⟩
    obtain hl | hl := hl
    · exact .inl (Nat.le_trans hl (seen_step op hi i))
    · obtain rfl | hl := List.mem_cons.mp hl
      · left
        show f ≤ ((update s.proc i _) i).icacheFlushSeen
        rw [Function.update_self]
        unfold honourRemoteFlush
        split
        · rename_i he
          rw [← he]
          exact hfl
        · exact hfl
      · exact .inr hl

/-- After a flush of processor `j`, and once processor `i` has looked (or is `j`), a fetch of
processor `i` delivers the instruction that memory had at the flush, unless it was written since. -/
theorem fetch_after_flush {ops : List (FetchOp n)} {ins : BitVec 32}
    (h : Lib.Reach Start (Ok memBits) (step memBits) s)
    (hops : Lib.Allowed (Ok memBits) (step memBits) s (.flush j :: ops))
    (hlook : i = j ∨ .look i ∈ ops) (hw : ∀ op ∈ ops, ¬ Writes p op)
    (hf : ((.flush j :: ops).foldl (step memBits) s).fetched memBits i = some ins)
    (hp : ((.flush j :: ops).foldl (step memBits) s).fetchedAt memBits i = p) :
    ins = insAt s.mem p := by
  have hreach := h.run _ hops
  have hi := flushInv_run h
  have hcur : Current p (s.flushes + 1) (s.step memBits (.flush j)) := by
    intro k hk
    by_cases hkj : k = j
    · rw [hkj]
      show ((update s.proc j _) j).Fresh _ _
      rw [Function.update_self]
      exact liveLines_dropLines (hi.old j) _
    · have hk' : s.flushes + 1 ≤ ((update s.proc j _) k).icacheFlushSeen := hk
      rw [Function.update_of_ne hkj] at hk'
      have := hi.seen k
      omega
  obtain ⟨hcur', hins, hseen⟩ := current_foldl memBits i
    (flushInv_step memBits (.flush j) hi) hcur (Nat.le_refl _) hw
  have hsaw : s.flushes + 1 ≤ ((s.step memBits (.flush j)).proc i).icacheFlushSeen ∨
      .look i ∈ ops := by
    obtain rfl | hl := hlook
    · left
      show s.flushes + 1 ≤ ((update s.proc i _) i).icacheFlushSeen
      rw [Function.update_self]
      exact Nat.le_refl _
    · exact .inr hl
  have hfresh := hcur' i (hseen hsaw)
  have := fetch_hasAt (cursorInv_run hreach i) hfresh rfl hf hp ((flushInv_run hreach).old i)
  exact this.trans hins

/-- Processor 0 has run the instruction at 4, which is then written and flushed by processor 1. -/
def patched : FetchRun 2 := ((superpageRun 2).step 12 (.fetch 0)).step 12 (.write 4 0x55)

theorem patched_reach : Lib.Reach Start (Ok 12) (step 12) patched :=
  .next (a := FetchOp.write 4 0x55) (superpageRun_fetched 2 0) trivial

theorem fetch_after_flush_patched : 0x07060555#32 = insAt patched.mem 4#64 :=
  fetch_after_flush (i := 0) (j := 1) patched_reach
    (show Lib.Allowed (Ok 12) (step 12) patched [.flush 1, .look 0] from
      ⟨trivial, trivial, trivial⟩)
    (.inr List.mem_cons_self) (by
      intro op hop hw
      obtain ⟨b, k, -, he⟩ := hw
      rw [List.mem_singleton.mp hop] at he
      cases he) (by decide +kernel) (by decide +kernel)

/-! ## Translation and protection -/

/-- The ITB and the superpages answer for `va` as the page tables `pt` and `may` have it, by
address space: where the page is, and the modes that may execute it. -/
structure Agrees (pt : Nat → BitVec 64 → BitVec 64) (may : Nat → BitVec 64 → Fin 4 → Prop)
    (c : AlphaCPU) (va : BitVec 64) : Prop where
  phys : ∀ pA c', c.virt2phys va { exec := true } = (.ok pA, c') → ∀ asn,
    asn = c.asn ∨ c.execAsm va = true → pt asn va = pA
  exec : ∀ pA c', c.virt2phys va { exec := true } = (.ok pA, c') → may c.asn va c.cm
  modes : ∀ pA c', c.virt2phys va { exec := true } = (.ok pA, c') → ∀ asn,
    asn = c.asn ∨ c.execAsm va = true → ∀ m, (c'.icacheExecModes va va).1 m = true → may asn va m

/-- Native fetches of processor `i` are made while its ITB agrees with the page tables. -/
def Mapped (memBits : Nat) (i : Fin n) (pt : Nat → BitVec 64 → BitVec 64)
    (may : Nat → BitVec 64 → Fin 4 → Prop) (s : FetchRun n) (op : FetchOp n) : Prop :=
  s.Ok memBits op ∧ (op = .fetch i → (s.proc i).pc.getLsbD 0 = false →
    Agrees pt may (s.proc i).cpu ((s.proc i).pc &&& ICACHE_MATCH_MASK))

variable {pt : Nat → BitVec 64 → BitVec 64} {may : Nat → BitVec 64 → Fin 4 → Prop}

/-- A native line answers for the page the page tables have there, and for its modes. -/
def MappedLine (pt : Nat → BitVec 64 → BitVec 64) (may : Nat → BitVec 64 → Fin 4 → Prop)
    (l : SICache) : Prop :=
  l.address.getLsbD 0 = false → ∀ asn, asn = l.asn ∨ l.asmBit = true →
    pt asn l.address = l.pAddress ∧ ∀ m, l.execModes m = true → may asn l.address m

theorem matchMask_even (a : BitVec 64) : (a &&& ICACHE_MATCH_MASK).getLsbD 0 = a.getLsbD 0 := by
  rw [BitVec.getLsbD_and, matchMask_getLsbD]
  simp

theorem icacheExecModes_tag (c : AlphaCPU) {a va : BitVec 64} (h : a.getLsbD 0 = false)
    (hv : va.getLsbD 0 = false) : c.icacheExecModes a va = c.icacheExecModes va va := by
  unfold AlphaCPU.icacheExecModes
  rw [h, hv]

theorem mappedLine_fills {t : IFetch} {a : BitVec 64} {mem : Nat → BitVec 8} {l : SICache}
    (h : a.getLsbD 0 = false → Agrees pt may t.cpu (a &&& ICACHE_MATCH_MASK))
    (hf : t.Fills mem a l) : MappedLine pt may l := by
  obtain ⟨h0, modes, rfl⟩ | ⟨h0, pA, c, hv, rfl⟩ := hf
  · intro he asn
    cases (h0.symm.trans ((matchMask_even a).symm.trans he))
  · have ha := h h0
    intro he asn hasn
    have hctl := AlphaCPU.virt2phys_exec_ctl hv
    have hasn' : asn = t.cpu.asn ∨ t.cpu.execAsm (a &&& ICACHE_MATCH_MASK) = true := by
      rw [← hctl.1]
      exact hasn
    refine ⟨ha.phys pA c hv asn hasn', fun m hm => ha.modes pA c hv asn hasn' m ?_⟩
    rw [← icacheExecModes_tag c h0 ((matchMask_even a).trans h0)]
    exact hm

/-- What is true of every line that a processor fills stays true of its lines. -/
theorem liveLines_step {P : SICache → Prop} (op : FetchOp n) (hi : FlushInv s)
    (h : LiveLines P (s.proc i)) (hP : op = .fetch i → ∀ t : IFetch, t.cpu = (s.proc i).cpu →
      ∀ l, t.Fills s.mem (s.proc i).pc l → P l) :
    LiveLines P ((s.step memBits op).proc i) := by
  have hupdate (j : Fin n) (t : IFetch) (ht : j = i → LiveLines P t) :
      LiveLines P (update s.proc j t i) := by
    by_cases hij : i = j
    · rw [hij, Function.update_self]
      exact ht hij.symm
    · rw [Function.update_of_ne hij]
      exact h
  cases op with
  | fetch j =>
    apply hupdate j
    rintro rfl
    exact liveLines_fetch (hi.old j) h (hP rfl)
  | flush j =>
    apply hupdate j
    rintro rfl
    exact liveLines_dropLines (hi.old j) _
  | flushAsm j =>
    apply hupdate j
    rintro rfl
    intro k hv hg
    have hline := h k
    unfold flushIcacheAsm at hv hg ⊢
    dsimp only at hv hg ⊢
    split at hv
    · rename_i ha
      rw [if_pos ha] at hg ⊢
      exact hline hv hg
    · cases hv
  | look j =>
    apply hupdate j
    rintro rfl
    unfold honourRemoteFlush
    split
    · exact h
    · exact liveLines_dropLines (hi.old j) _
  | write a b => exact h
  | _ j =>
    apply hupdate j
    rintro rfl
    exact h

/-- `x` is the instruction at `p` in one of the memories `M`. -/
def InOneOf (M : (Nat → BitVec 8) → Prop) (p : BitVec 64) (x : BitVec 32) : Prop :=
  ∃ m, M m ∧ x = insAt m p

/-- Memory at a moment of a run. -/
def MemoryIn (memBits : Nat) (s : FetchRun n) (ops : List (FetchOp n)) (m : Nat → BitVec 8) :
    Prop :=
  ∃ seen, seen <+: ops ∧ m = (seen.foldl (step memBits) s).mem

/-- What memory holds at the end. -/
theorem inOneOf_end (ops : List (FetchOp n)) : InOneOf (MemoryIn memBits s ops) p
    (insAt (ops.foldl (step memBits) s).mem p) :=
  ⟨_, ⟨ops, List.prefix_rfl, rfl⟩, rfl⟩

theorem fills_mapped {t : IFetch} {a : BitVec 64} {mem : Nat → BitVec 8} {l : SICache}
    (h0 : a.getLsbD 0 = false) (h : Agrees pt may t.cpu (a &&& ICACHE_MATCH_MASK))
    (hf : t.Fills mem a l) : pt t.cpu.asn (a &&& ICACHE_MATCH_MASK) = l.pAddress ∧
      may t.cpu.asn (a &&& ICACHE_MATCH_MASK) t.cpu.cm := by
  obtain ⟨h1, -⟩ | ⟨-, pA, c, hv, rfl⟩ := hf
  · cases h0.symm.trans h1
  · exact ⟨h.phys pA c hv t.cpu.asn (.inl rfl), h.exec pA c hv⟩

/-- The instruction a native lookup delivers comes from where the page tables put its page, which
they let the current mode execute. -/
theorem getIcache_mapped {t t' : IFetch} {a : BitVec 64} {mem : Nat → BitVec 8} {ins : BitVec 32}
    (h : LiveLines (MappedLine pt may) t) (h0 : a.getLsbD 0 = false)
    (ha : Agrees pt may t.cpu (a &&& ICACHE_MATCH_MASK))
    (hg : t.getIcache memBits mem a = (some ins, t')) :
    t'.pcPhys = pt t.cpu.asn (a &&& ICACHE_MATCH_MASK) + (a &&& ICACHE_BYTE_MASK) ∧
      may t.cpu.asn (a &&& ICACHE_MATCH_MASK) t.cpu.cm := by
  rw [and_byteMask]
  obtain ⟨l, hl, -, hphys⟩ | ⟨-, l, hfill, hphys⟩ := getIcache_ins hg
  · obtain ⟨hhits, rfl⟩ | hfill := hl
    · obtain ⟨hv, hgen, hasn, hm, htag⟩ := live_of_hits hhits
      have hline := h _ hv hgen
      unfold MappedLine at hline
      rw [htag] at hline
      obtain ⟨hpt, hmay⟩ := hline ((matchMask_even a).trans h0) t.cpu.asn (hasn.imp_left Eq.symm)
      exact ⟨hphys.trans (by rw [hpt]), hmay _ hm⟩
    · obtain ⟨hpt, hmay⟩ := fills_mapped h0 ha hfill
      exact ⟨hphys.trans (by rw [hpt]), hmay⟩
  · obtain ⟨hpt, hmay⟩ := fills_mapped h0 ha hfill
    exact ⟨hphys.trans (by rw [hpt]), hmay⟩

/-- Along a run the lines answer for the pages of the page tables, with what memory held there at
one of the run's moments. -/
theorem mapped_foldl {M : (Nat → BitVec 8) → Prop} {ops : List (FetchOp n)}
    (hr : Lib.Reach Start (Ok memBits) (step memBits) s)
    (h : LiveLines (MappedLine pt may) (s.proc i)) (hin : LiveLines (HasAt p (InOneOf M p)) (s.proc i))
    (hops : Lib.Allowed (Mapped memBits i pt may) (step memBits) s ops)
    (hM : ∀ seen, seen <+: ops → M (seen.foldl (step memBits) s).mem) :
    Lib.Reach Start (Ok memBits) (step memBits) (ops.foldl (step memBits) s) ∧
      LiveLines (MappedLine pt may) ((ops.foldl (step memBits) s).proc i) ∧
      LiveLines (HasAt p (InOneOf M p)) ((ops.foldl (step memBits) s).proc i) := by
  induction ops generalizing s with
  | nil => exact ⟨hr, h, hin⟩
  | cons op ops ih =>
    have hi := flushInv_run hr
    refine ih (hr.next hops.1.1) (liveLines_step op hi h ?_) (liveLines_step op hi hin ?_) hops.2
      fun seen hs => hM (op :: seen) (List.cons_prefix_cons.mpr ⟨rfl, hs⟩)
    · rintro rfl t ht l hl
      refine mappedLine_fills (fun h0 => ?_) hl
      rw [ht]
      exact hops.1.2 rfl h0
    · rintro - t - l hl w hw
      exact ⟨s.mem, hM [] List.nil_prefix, hl.fresh hw⟩

theorem fetched_mapped {ins : BitVec 32} (hr : Lib.Reach Start (Ok memBits) (step memBits) s)
    (h : LiveLines (MappedLine pt may) (s.proc i)) (h0 : (s.proc i).pc.getLsbD 0 = false)
    (ha : Agrees pt may (s.proc i).cpu ((s.proc i).pc &&& ICACHE_MATCH_MASK))
    (hf : s.fetched memBits i = some ins) :
    s.fetchedAt memBits i = pt (s.proc i).cpu.asn ((s.proc i).pc &&& ICACHE_MATCH_MASK) +
        ((s.proc i).pc &&& ICACHE_BYTE_MASK) ∧
      may (s.proc i).cpu.asn ((s.proc i).pc &&& ICACHE_MATCH_MASK) (s.proc i).cpu.cm := by
  have hreset : ¬ (s.proc i).AtReset := fun ha => by cases h0.symm.trans (atReset_even ha)
  unfold fetched at hf
  unfold fetchedAt
  rw [fetch_eq_fetchPlain (cursorInv_run hr i)] at hf ⊢
  unfold fetchPlain resetFlush lookup at hf ⊢
  rw [if_neg hreset] at hf ⊢
  cases hg : (s.proc i).getIcache memBits s.mem (s.proc i).pc with
  | mk r t =>
    rw [hg] at hf
    cases r with
    | none => cases hf
    | some ins' =>
      have hphys : t.setCursor.nextPc.pcPhys - 4 = t.pcPhys := by
        unfold setCursor nextPc
        split
        · exact BitVec.add_sub_cancel _ _
        · exact BitVec.add_sub_cancel _ _
      dsimp only
      rw [hphys]
      exact getIcache_mapped h h0 ha hg

/-- From a flush of a processor on, and while its ITB agrees with the page tables wherever it
fetches native code, what it fetches comes from the address that the page tables have for its PC,
and is what memory held there at some moment since the flush; the current mode may execute it. -/
theorem fetch_translated {ops : List (FetchOp n)} {t : FetchRun n} {ins : BitVec 32}
    (h : Lib.Reach Start (Ok memBits) (step memBits) s)
    (hops : Lib.Allowed (Mapped memBits i pt may) (step memBits) s (.flush i :: ops))
    (ht : t = (.flush i :: ops).foldl (step memBits) s) (h0 : (t.proc i).pc.getLsbD 0 = false)
    (ha : Agrees pt may (t.proc i).cpu ((t.proc i).pc &&& ICACHE_MATCH_MASK))
    (hf : t.fetched memBits i = some ins) :
    t.fetchedAt memBits i = pt (t.proc i).cpu.asn ((t.proc i).pc &&& ICACHE_MATCH_MASK) +
        ((t.proc i).pc &&& ICACHE_BYTE_MASK) ∧
      may (t.proc i).cpu.asn ((t.proc i).pc &&& ICACHE_MATCH_MASK) (t.proc i).cpu.cm ∧
      InOneOf (MemoryIn memBits (s.step memBits (.flush i)) ops) (t.fetchedAt memBits i) ins := by
  have hi := flushInv_run h
  have hflush (P : SICache → Prop) : LiveLines P ((s.step memBits (.flush i)).proc i) := by
    show LiveLines _ (update s.proc i _ i)
    rw [Function.update_self]
    exact liveLines_dropLines (hi.old i) _
  -- the flush leaves no line that may answer, and every line since is filled from memory
  obtain ⟨hr, hlines, hin⟩ := mapped_foldl (p := t.fetchedAt memBits i)
    (M := MemoryIn memBits (s.step memBits (.flush i)) ops) (h.next hops.1.1) (hflush _) (hflush _)
    hops.2 fun seen hs => ⟨seen, hs, rfl⟩
  subst ht
  obtain ⟨hphys, hmay⟩ := fetched_mapped hr hlines h0 ha hf
  exact ⟨hphys, hmay,
    fetch_hasAt (cursorInv_run hr i) hin (inOneOf_end ops) hf rfl ((flushInv_run hr).old i)⟩

/-- The page tables of the superpage. -/
def superpageTable (_ : Nat) (va : BitVec 64) : BitVec 64 := va &&& 0x00000fffffffffff#64

theorem superpage_agrees : Agrees superpageTable (fun _ _ m => m = 0) atSuperpage.cpu
    (atSuperpage.pc &&& ICACHE_MATCH_MASK) where
  phys pA c' h := by
    rw [virt2phys_superpage] at h
    cases h
    exact fun _ _ => rfl
  exec _ _ _ := rfl
  modes pA c' h := by
    rw [virt2phys_superpage] at h
    cases h
    have : ∀ m, (atSuperpage.cpu.icacheExecModes (atSuperpage.pc &&& ICACHE_MATCH_MASK)
      (atSuperpage.pc &&& ICACHE_MATCH_MASK)).1 m = true → m = 0 := by decide +kernel
    exact fun _ _ => this

/-- A fetch, the instruction written, and the PC back at it. -/
def fetchedThenWritten : List (FetchOp 1) :=
  [.fetch 0, .write 0 0x55, .setPc 0 0xffff800000000000#64]

/-- After a flush and these, the line answers that was filled before the write. -/
def oldLine : FetchRun 1 := (.flush 0 :: fetchedThenWritten).foldl (step 12) (superpageRun 1)

theorem oldLine_allowed : Lib.Allowed (Mapped 12 0 superpageTable fun _ _ m => m = 0) (step 12)
    (superpageRun 1) (.flush 0 :: fetchedThenWritten) := by
  refine ⟨⟨trivial, fun h => by cases h⟩, ⟨fun _ => superpage_execOk, fun _ _ => superpage_agrees⟩,
    ⟨trivial, fun h => by cases h⟩, ⟨trivial, fun h => by cases h⟩, trivial⟩

theorem fetch_translated_superpage :
    oldLine.fetchedAt 12 0 = superpageTable 0 0xffff800000000000#64 +
      (0xffff800000000000#64 &&& ICACHE_BYTE_MASK) ∧
    InOneOf (MemoryIn 12 ((superpageRun 1).step 12 (.flush 0)) fetchedThenWritten)
      (oldLine.fetchedAt 12 0) 0x03020100#32 ∧
    insAt oldLine.mem (oldLine.fetchedAt 12 0) = 0x03020155#32 := by
  have h := fetch_translated (t := oldLine) (i := 0) (.start (superpageRun_start 1)) oldLine_allowed rfl
    (show _ = false by decide +kernel) superpage_agrees (show _ = some 0x03020100#32 by decide +kernel)
  exact ⟨h.1, h.2.2, by decide +kernel⟩

end FetchRun

end Alphabox.Cpu
